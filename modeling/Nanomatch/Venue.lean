import Nanomatch.ItchFeed
import Nanomatch.Ladder
import Nanomatch.StlOrderBook

/-!
# What a feed is about

The venue that a feed comes from, as a list of its orders in the order in which they came. There are
no books in it: the orders at a price are those of the list that have this price. The messages of the
feed say what happens to the orders of the list.
-/

namespace Nanomatch

/-- An order of the venue. -/
structure Entry where
  id : OrderId
  side : Side
  price : ℕ
  qty : ℕ
  deriving DecidableEq, Repr

namespace Entry

/-- What is left when `shares` are taken off the order `id`. -/
def lower (id : OrderId) (shares : ℕ) (e : Entry) : Option Entry :=
  if e.id = id then if e.qty ≤ shares then none else some { e with qty := e.qty - shares }
  else some e

/-- What is left when the order `id` is taken out. -/
def without (id : OrderId) (e : Entry) : Option Entry := if e.id = id then none else some e

end Entry

/-- One ticker: its orders, the price of the first order that it had, and its executions. -/
structure Listing where
  orders : List Entry := []
  first : Option ℕ := none
  executions : List Trade := []

namespace Listing

variable (l : Listing)

section Shows

/-- The orders of a side at a price, first to last. -/
def queue (side : Side) (price : ℕ) : List Entry :=
  l.orders.filter fun e => e.side = side ∧ e.price = price

def fifo (side : Side) (price : ℕ) : List RestingOrder :=
  (l.queue side price).map fun e => ⟨e.id, e.qty⟩

def prices (side : Side) : List ℕ := (l.orders.filter (·.side = side)).map Entry.price

def best : Side → Option ℕ
  | .BUY => (l.prices .BUY).max?
  | .SELL => (l.prices .SELL).min?

end Shows

section Changes

def add (e : Entry) : Listing :=
  { l with orders := l.orders ++ [e], first := some (l.first.getD e.price) }

def change (f : Entry → Option Entry) : Listing := { l with orders := l.orders.filterMap f }

/-- The order does not trade when it comes, it finds a slot, and its price lies in the window around
the price of the first order. -/
structure Admits (band cap : ℕ) (e : Entry) : Prop where
  qty : 0 < e.qty
  room : l.orders.length < cap
  passive : ∀ e' ∈ l.orders, e'.side = e.side.other → ¬ e'.side.Crosses e.price e'.price
  window : OrderBook.centeredBase band (l.first.getD e.price) ≤ e.price ∧
    e.price < OrderBook.centeredBase band (l.first.getD e.price) + band

instance (band cap : ℕ) (e : Entry) : Decidable (l.Admits band cap e) :=
  decidable_of_iff (0 < e.qty ∧ l.orders.length < cap ∧
    (∀ e' ∈ l.orders, e'.side = e.side.other → ¬ e'.side.Crosses e.price e'.price) ∧
    OrderBook.centeredBase band (l.first.getD e.price) ≤ e.price ∧
      e.price < OrderBook.centeredBase band (l.first.getD e.price) + band)
    ⟨fun h => ⟨h.1, h.2.1, h.2.2.1, h.2.2.2⟩, fun h => ⟨h.1, h.2, h.3, h.4⟩⟩

end Changes

end Listing

/-- The orders of all tickers, each with the place of its ticker. -/
structure Venue where
  orders : List (ℕ × Entry) := []
  first : ℕ → Option ℕ := fun _ => none
  executions : ℕ → List Trade := fun _ => []

namespace Venue

variable (v : Venue)

section Orders

def listing (locate : ℕ) : Listing where
  orders := (v.orders.filter (·.1 = locate)).map Prod.snd
  first := v.first locate
  executions := v.executions locate

def find (id : OrderId) : Option (ℕ × Entry) := v.orders.find? (·.2.id = id)

def add (locate : ℕ) (e : Entry) : Venue :=
  { v with
    orders := v.orders ++ [(locate, e)]
    first := Function.update v.first locate (some ((v.first locate).getD e.price)) }

def change (f : Entry → Option Entry) : Venue :=
  { v with orders := v.orders.filterMap fun x => (f x.2).map (x.1, ·) }

def print (locate : ℕ) (t : Trade) : Venue :=
  { v with executions := Function.update v.executions locate (v.executions locate ++ [t]) }

end Orders

section Messages

variable (band cap : ℕ) (allowedLocates : Finset UInt16)

def execute (id : OrderId) (shares : ℕ) : Venue :=
  match v.find id with
  | none => v
  | some (locate, e) =>
    (v.change (Entry.lower id shares)).print locate ⟨id, 0, e.price, min shares e.qty⟩

def replace (oldId newId : OrderId) (price shares : ℕ) : Venue :=
  match v.find oldId with
  | none => v
  | some (locate, e) => (v.change (Entry.without oldId)).add locate ⟨newId, e.side, price, shares⟩

/-- What the message says, if the venue's tickers are the tracked ones. -/
def handle : Message → Venue
  | .add locate id side price shares =>
    if locate.toNat < kMaxStockLocate ∧ isTracked allowedLocates locate then
      v.add locate.toNat ⟨id, side, price.toNat, shares.toNat⟩
    else v
  | .execute id shares => v.execute id shares.toNat
  | .cancel id canceledShares => v.change (Entry.lower id canceledShares.toNat)
  | .delete id => v.change (Entry.without id)
  | .replace oldId newId price shares => v.replace oldId newId price.toNat shares.toNat

def run : Venue → List Message → Venue
  | v, [] => v
  | v, message :: messages => run (v.handle allowedLocates message) messages

/-- The order has a new id, and its ticker admits it. -/
def Admits (locate : ℕ) (e : Entry) : Prop :=
  (∀ x ∈ v.orders, x.2.id ≠ e.id) ∧ (v.listing locate).Admits band cap e

/-- The orders that the message brings are admitted. -/
def Accepts : Message → Prop
  | .add locate id side price shares =>
    locate.toNat < kMaxStockLocate ∧ isTracked allowedLocates locate →
      v.Admits band cap locate.toNat ⟨id, side, price.toNat, shares.toNat⟩
  | .replace oldId newId price shares =>
    ∀ x ∈ v.find oldId, (v.change (Entry.without oldId)).Admits band cap x.1
      ⟨newId, x.2.side, price.toNat, shares.toNat⟩
  | _ => True

def AcceptsAll : Venue → List Message → Prop
  | _, [] => True
  | v, message :: messages => v.Accepts band cap allowedLocates message ∧
    AcceptsAll (v.handle allowedLocates message) messages

instance (locate : ℕ) (e : Entry) : Decidable (v.Admits band cap locate e) :=
  inferInstanceAs (Decidable (_ ∧ _))

instance : (message : Message) → Decidable (v.Accepts band cap allowedLocates message)
  | .add _ _ _ _ _ => inferInstanceAs (Decidable (_ ∧ _ → _))
  | .execute _ _ => .isTrue trivial
  | .cancel _ _ => .isTrue trivial
  | .delete _ => .isTrue trivial
  | .replace oldId _ _ _ => inferInstanceAs (Decidable (∀ x ∈ v.find oldId, _))

instance decidableAcceptsAll : (v : Venue) → (messages : List Message) →
    Decidable (v.AcceptsAll band cap allowedLocates messages)
  | _, [] => .isTrue trivial
  | v, message :: messages =>
    have := decidableAcceptsAll (v.handle allowedLocates message) messages
    inferInstanceAs (Decidable (_ ∧ _))

end Messages

end Venue

end Nanomatch
