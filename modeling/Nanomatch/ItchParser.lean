import Mathlib.Data.Finset.Basic
import Mathlib.Logic.Function.Basic
import Nanomatch.ItchProtocols
import Nanomatch.OrderBook

/-!
# The ITCH parser

The loop of `parse_itch_file` over the bytes of the mapped file. The books are of any type with the
operations that the parser calls. A pointer to a book is its place in `market_books`, since a place
that holds a book keeps it; following a pointer to an empty place fails. The counters and samples
for the diagnostics are left out.
-/

namespace Nanomatch

/-- The operations of a book that the parser uses: the four that change it, `get_id_map().find` and
the side of an order of `get_pool()`. -/
class OrderBookOps (β : Type) where
  insertLimitOrder : β → OrderId → Side → UInt32 → UInt32 → Option (β × Bool)
  cancelOrder : β → OrderId → Option β
  executeOrder : β → OrderId → UInt32 → Option (β × Bool)
  reduceOrderQty : β → OrderId → UInt32 → Option (β × Bool)
  findId : β → OrderId → Option ℕ
  sideOf : β → ℕ → Option Side

instance {M : Type} [IdMapOps M] : OrderBookOps (OrderBook M) where
  insertLimitOrder s id side price qty := s.insertLimitOrder id side price.toNat qty.toNat
  cancelOrder s id := s.cancelOrder id
  executeOrder s id fillQty := s.executeOrder id fillQty.toNat
  reduceOrderQty s id cancelQty := s.reduceOrderQty id cancelQty.toNat
  findId s id := s.findId id
  sideOf s idx := (s.readOrder idx).map Order.side

def kMaxStockLocate : ℕ := 8192

/-- The books, and the book of each order that the parser knows to rest. -/
structure Market (β : Type) where
  marketBooks : Cells (Option β) := Cells.fill kMaxStockLocate none
  refOwner : OrderId → Option ℕ := fun _ => none

/-- No set of tickers means all of them. -/
def isTracked (allowedLocates : Finset UInt16) (locate : UInt16) : Prop :=
  allowedLocates = ∅ ∨ locate ∈ allowedLocates

instance (allowedLocates : Finset UInt16) (locate : UInt16) :
    Decidable (isTracked allowedLocates locate) :=
  inferInstanceAs (Decidable (_ ∨ _))

namespace Market

variable {β : Type} (m : Market β)

section Access

def book (locate : ℕ) : Option β := do
  let place ← m.marketBooks.read locate
  place

def setBook (locate : ℕ) (b : β) : Option (Market β) := do
  some { m with marketBooks := ← m.marketBooks.modify locate fun _ => some b }

def setOwner (id : OrderId) (locate : ℕ) : Market β :=
  { m with refOwner := Function.update m.refOwner id (some locate) }

def eraseOwner (id : OrderId) : Market β :=
  { m with refOwner := Function.update m.refOwner id none }

end Access

section Messages

variable [OrderBookOps β]

/-- The cases `'A'` and `'F'`. -/
def addOrder (newBook : β) (allowedLocates : Finset UInt16) (locate : UInt16) (id : OrderId)
    (side : Side) (price shares : UInt32) : Option (Market β) :=
  if locate.toNat < kMaxStockLocate ∧ isTracked allowedLocates locate then do
    let place ← m.marketBooks.read locate.toNat
    let (b, inserted) ←
      OrderBookOps.insertLimitOrder (place.getD newBook) id side price shares
    let m ← m.setBook locate.toNat b
    some (if inserted then m.setOwner id locate.toNat else m)
  else some m

/-- `op` runs on the book of the order; where it returns true the order is no longer known. -/
def onOwner (id : OrderId) (op : β → Option (β × Bool)) : Option (Market β) :=
  match m.refOwner id with
  | none => some m
  | some locate => do
    let b ← m.book locate
    let (b, gone) ← op b
    let m ← m.setBook locate b
    some (if gone then m.eraseOwner id else m)

/-- The cases `'E'` and `'C'`. -/
def executeOrder (id : OrderId) (shares : UInt32) : Option (Market β) :=
  m.onOwner id fun b => OrderBookOps.executeOrder b id shares

/-- The case `'X'`. -/
def cancelOrder (id : OrderId) (canceledShares : UInt32) : Option (Market β) :=
  m.onOwner id fun b => OrderBookOps.reduceOrderQty b id canceledShares

/-- The case `'D'`. -/
def deleteOrder (id : OrderId) : Option (Market β) :=
  m.onOwner id fun b => (OrderBookOps.cancelOrder b id).map (·, true)

/-- The case `'U'`. -/
def replaceOrder (oldId newId : OrderId) (price shares : UInt32) : Option (Market β) :=
  match m.refOwner oldId with
  | none => some m
  | some locate => do
    let b ← m.book locate
    let oldIdx ← OrderBookOps.findId b oldId
    if oldIdx = NULL_IDX then some m else do
      let originalSide ← OrderBookOps.sideOf b oldIdx
      let b ← OrderBookOps.cancelOrder b oldId
      let (b, inserted) ← OrderBookOps.insertLimitOrder b newId originalSide price shares
      let m ← m.setBook locate b
      let m := m.eraseOwner oldId
      some (if inserted then m.setOwner newId locate else m)

def handle (newBook : β) (allowedLocates : Finset UInt16) : Message → Option (Market β)
  | .add locate id side price shares =>
    m.addOrder newBook allowedLocates locate id side price shares
  | .execute id shares => m.executeOrder id shares
  | .cancel id canceledShares => m.cancelOrder id canceledShares
  | .delete id => m.deleteOrder id
  | .replace oldId newId price shares => m.replaceOrder oldId newId price shares

/-- A frame that is skipped changes nothing. -/
def dispatch (newBook : β) (allowedLocates : Finset UInt16) : Option Message → Option (Market β)
  | none => some m
  | some message => m.handle newBook allowedLocates message

end Messages

end Market

namespace ItchParser

variable {β : Type} [OrderBookOps β] (newBook : β) (allowedLocates : Finset UInt16)
  (file : List UInt8)

/-- The packet length and the message type at `cursor`, or nothing where the loop ends. -/
def header (cursor : ℕ) : Option (Option (ℕ × UInt8)) :=
  if ¬ cursor < file.length then some none
  else if cursor + 3 > file.length then some none else do
    let packetLength ← readBE file cursor 2
    let messageType ← file[cursor + 2]?
    if packetLength < 1 ∨ cursor + 2 + packetLength > file.length then some none
    else some (some (packetLength, messageType))

/-- The message that the frame at `cursor` is taken for, or nothing where the frame is skipped. -/
def body (cursor : ℕ) (messageType : UInt8) : Option (Option Message) :=
  let payload := cursor + 3
  let bodyAvail := file.length - payload
  match MessageType.ofByte messageType with
  | none => some none
  | some t => if bodyAvail < t.size then some none else (t.read file payload).map some

/-- The variables of the loop, with the frames that it has dispatched so far. -/
structure Replay (β : Type) where
  cursor : ℕ := 0
  market : Market β
  dispatched : List (List UInt8) := []

/-- One round of the loop, or nothing where the loop ends. -/
def round (r : Replay β) : Option (Option (Replay β)) := do
  match ← header file r.cursor with
  | none => some none
  | some (packetLength, messageType) =>
    let message ← body file r.cursor messageType
    let market ← r.market.dispatch newBook allowedLocates message
    some (some {
      cursor := r.cursor + 2 + packetLength
      market
      dispatched := r.dispatched ++ [(file.drop r.cursor).take (2 + packetLength)] })

/-- At most `n` rounds of the loop. -/
def rounds : ℕ → Replay β → Option (Replay β)
  | 0, r => some r
  | n + 1, r => do
    match ← round newBook allowedLocates file r with
    | none => some r
    | some r => rounds n r

/-- The books and owners after the loop, which makes no more rounds than the file has bytes. -/
def parseItchFile (market : Market β) : Option (Market β) :=
  (rounds newBook allowedLocates file file.length { market }).map Replay.market

end ItchParser

end Nanomatch
