import Nanomatch.ItchFeed

/-!
# The parser's diagnostics

The loop of `parse_itch_file` with its counters and samples, which are printed at its end. Only adds
and executes are counted, so the other messages do what they do without the diagnostics.
-/

namespace Nanomatch

structure Diagnostics where
  trackedAdds : ℕ := 0
  successfulInserts : ℕ := 0
  executeCalls : ℕ := 0
  executeHits : ℕ := 0
  sampleInserts : List OrderId := []
  sampleExecs : List OrderId := []

namespace Diagnostics

/-- `if (samples.size() < 16) samples.push_back(id)` -/
def sample (samples : List OrderId) (id : OrderId) : List OrderId :=
  if samples.length < 16 then samples ++ [id] else samples

/-- Whether the warning about `locate_ids` is printed. -/
def warns (d : Diagnostics) : Prop := d.trackedAdds = 0

instance (d : Diagnostics) : Decidable d.warns := inferInstanceAs (Decidable (_ = _))

end Diagnostics

/-- What the loop changes. -/
structure Counted (β : Type) where
  market : Market β := {}
  diagnostics : Diagnostics := {}

namespace Counted

variable {β : Type} [OrderBookOps β] (c : Counted β)

/-- The cases `'A'` and `'F'`. -/
def addOrder (newBook : β) (allowedLocates : Finset UInt16) (locate : UInt16) (id : OrderId)
    (side : Side) (price shares : UInt32) : Option (Counted β) :=
  if locate.toNat < kMaxStockLocate ∧ isTracked allowedLocates locate then do
    let d := { c.diagnostics with trackedAdds := c.diagnostics.trackedAdds + 1 }
    let place ← c.market.marketBooks.read locate.toNat
    let (b, inserted) ←
      OrderBookOps.insertLimitOrder (place.getD newBook) id side price shares
    let m ← c.market.setBook locate.toNat b
    some (if inserted then {
        market := m.setOwner id locate.toNat
        diagnostics := { d with
          successfulInserts := d.successfulInserts + 1
          sampleInserts := Diagnostics.sample d.sampleInserts id } }
      else { market := m, diagnostics := d })
  else some c

/-- The cases `'E'` and `'C'`. -/
def executeOrder (id : OrderId) (shares : UInt32) : Option (Counted β) :=
  let d := { c.diagnostics with executeCalls := c.diagnostics.executeCalls + 1 }
  match c.market.refOwner id with
  | none => some { c with
      diagnostics := { d with sampleExecs := Diagnostics.sample d.sampleExecs id } }
  | some locate => do
    let b ← c.market.book locate
    let (b, gone) ← OrderBookOps.executeOrder b id shares
    let m ← c.market.setBook locate b
    some (if gone then {
        market := m.eraseOwner id
        diagnostics := { d with executeHits := d.executeHits + 1 } }
      else { market := m, diagnostics := d })

def handle (newBook : β) (allowedLocates : Finset UInt16) : Message → Option (Counted β)
  | .add locate id side price shares =>
    c.addOrder newBook allowedLocates locate id side price shares
  | .execute id shares => c.executeOrder id shares
  | .cancel id canceledShares => (c.market.cancelOrder id canceledShares).map ({ c with market := · })
  | .delete id => (c.market.deleteOrder id).map ({ c with market := · })
  | .replace oldId newId price shares =>
    (c.market.replaceOrder oldId newId price shares).map ({ c with market := · })

def dispatch (newBook : β) (allowedLocates : Finset UInt16) : Option Message → Option (Counted β)
  | none => some c
  | some message => c.handle newBook allowedLocates message

variable (newBook : β) (allowedLocates : Finset UInt16)

/-- At most `n` rounds of the loop, from `cursor` on. -/
def rounds (file : List UInt8) : ℕ → ℕ → Counted β → Option (Counted β)
  | 0, _, c => some c
  | n + 1, cursor, c => do
    match ← ItchParser.header file cursor with
    | none => some c
    | some (packetLength, messageType) =>
      let message ← ItchParser.body file cursor messageType
      let c ← c.dispatch newBook allowedLocates message
      rounds file n (cursor + 2 + packetLength) c

def parseItchFile (file : List UInt8) : Option (Counted β) :=
  rounds newBook allowedLocates file file.length 0 {}

end Counted

section Counting

/-- The id of an add that is counted. -/
def Message.trackedAdd (allowedLocates : Finset UInt16) : Message → Option OrderId
  | .add locate id _ _ _ =>
    if locate.toNat < kMaxStockLocate ∧ isTracked allowedLocates locate then some id else none
  | _ => none

/-- The id of an execute. -/
def Message.executed : Message → Option OrderId
  | .execute id _ => some id
  | _ => none

def trackedAdds (allowedLocates : Finset UInt16) (messages : List (Option Message)) :
    List OrderId :=
  messages.filterMap (·.bind (Message.trackedAdd allowedLocates))

def executes (messages : List (Option Message)) : List OrderId :=
  messages.filterMap (·.bind Message.executed)

/-- The ids that the market knows the owner of. -/
def Market.Owned {β : Type} (m : Market β) (owned : Finset OrderId) : Prop :=
  ∀ id, id ∈ owned ↔ m.refOwner id ≠ none

namespace Market

variable {β : Type} [OrderBookOps β]

/-- The id of an add to a tracked ticker, if its insert returns true. -/
def insertedId (newBook : β) (allowedLocates : Finset UInt16) (m : Market β) :
    Message → Option OrderId
  | .add locate id side price shares =>
    if locate.toNat < kMaxStockLocate ∧ isTracked allowedLocates locate then do
      let place ← m.marketBooks.read locate.toNat
      let (_, inserted) ←
        OrderBookOps.insertLimitOrder (place.getD newBook) id side price shares
      if inserted then some id else none
    else none
  | _ => none

/-- The id of an execute that no owner is known of. -/
def missedId (m : Market β) : Message → Option OrderId
  | .execute id _ => if (m.refOwner id).isNone then some id else none
  | _ => none

/-- The id of an execute after which the order is gone. -/
def hitId (m : Market β) : Message → Option OrderId
  | .execute id shares => do
    let locate ← m.refOwner id
    let b ← m.book locate
    let (_, gone) ← OrderBookOps.executeOrder b id shares
    if gone then some id else none
  | _ => none

/-- The ids that `f` names along a run, each message in the state in which it comes. -/
def collect (f : Market β → Message → Option OrderId) (newBook : β) (allowedLocates : Finset UInt16) :
    Market β → List (Option Message) → List OrderId
  | _, [] => []
  | m, message :: messages =>
    (message.bind (f m)).toList ++
      (m.dispatch newBook allowedLocates message).toList.flatMap
        (collect f newBook allowedLocates · messages)

end Market

/-- The diagnostics of a run of the messages that ends in `m`. The adds and executes are those of the
messages. The inserts, hits and misses are those of the run, with the first 16 ids inserted and the
first 16 missed for samples. No more executes hit than orders were inserted, less those that are still
known. -/
structure Counts {β : Type} [OrderBookOps β] (newBook : β) (allowedLocates : Finset UInt16)
    (m : Market β) (d : Diagnostics) (messages : List (Option Message)) : Prop where
  run : Market.handleAll newBook allowedLocates {} messages = some m
  adds : d.trackedAdds = (trackedAdds allowedLocates messages).length
  calls : d.executeCalls = (executes messages).length
  inserts : d.successfulInserts = (Market.collect (Market.insertedId newBook allowedLocates) newBook
    allowedLocates {} messages).length
  hits : d.executeHits =
    (Market.collect Market.hitId newBook allowedLocates {} messages).length
  sampleInserts : d.sampleInserts = (Market.collect (Market.insertedId newBook allowedLocates) newBook
    allowedLocates {} messages).take 16
  sampleExecs : d.sampleExecs =
    (Market.collect Market.missedId newBook allowedLocates {} messages).take 16
  known : ∃ owned, m.Owned owned ∧ d.executeHits + owned.card ≤ d.successfulInserts

end Counting

end Nanomatch
