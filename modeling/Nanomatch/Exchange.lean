import Mathlib.Data.List.Sort
import Nanomatch.Lib.Greedy
import Nanomatch.Venue

/-!
# An exchange

What an order book is for, said of a plain list of orders. An order that comes trades with the orders
of the other side that its price crosses: those at the best price first, and at one price those that
came first. What is left of it joins the list, if the exchange has room.
-/

namespace Nanomatch

open Greedy

/-- On side `sd`, price `p` is at least as good as price `q`. -/
def Side.Ahead (p q : ℕ) : Side → Prop
  | .BUY => q ≤ p
  | .SELL => p ≤ q

instance (p q : ℕ) : (sd : Side) → Decidable (sd.Ahead p q)
  | .BUY => inferInstanceAs (Decidable (_ ≤ _))
  | .SELL => inferInstanceAs (Decidable (_ ≤ _))

namespace Listing

variable (l : Listing)

section Matching

/-- The orders of side `sd` that a taker meets: best price first, and first come first at a price.
A taker without a limit meets them all. -/
def makers (sd : Side) (limit : Option ℕ) : List Entry :=
  (l.orders.filter fun e => e.side = sd ∧ ∀ p ∈ limit, sd.Crosses p e.price).insertionSort
    fun e e' => sd.Ahead e.price e'.price

def offer (takerId : OrderId) (e : Entry) (amount : ℕ) : Trade := ⟨e.id, takerId, e.price, amount⟩

/-- What is left of an order when a taker took `qty` of the orders `makers`, first to last. -/
def hit (qty : ℕ) (makers : List Entry) (e : Entry) : Option Entry :=
  if e ∈ filled Entry.qty qty makers then none
  else if cut Entry.qty qty makers = some e then
    some { e with qty := e.qty - owed Entry.qty qty makers }
  else some e

/-- One trade for each maker that is filled, and one for the maker that is filled in part. -/
def prints (takerId : OrderId) (qty : ℕ) (makers : List Entry) : List Trade :=
  (filled Entry.qty qty makers).map (fun e => offer takerId e e.qty) ++
    (cut Entry.qty qty makers).toList.map (offer takerId · (owed Entry.qty qty makers))

/-- A taker takes `qty` of the orders of side `sd`. The second part is what it does not get. -/
def meet (sd : Side) (takerId : OrderId) (limit : Option ℕ) (qty : ℕ) : Listing × ℕ :=
  let makers := l.makers sd limit
  ({ l.change (hit qty makers) with executions := l.executions ++ prints takerId qty makers },
    qty - total Entry.qty makers)

end Matching

section Orders

variable (cap : ℕ)

def insert (id : OrderId) (sd : Side) (price qty : ℕ) : Listing × Bool :=
  let r := l.meet sd.other id (some price) qty
  let l' := { r.1 with first := some (l.first.getD price) }
  if r.2 = 0 ∨ cap ≤ l'.orders.length then (l', false) else (l'.add ⟨id, sd, price, r.2⟩, true)

def market (sd : Side) (qty : ℕ) : Listing := (l.meet sd.other 0 none qty).1

def find (id : OrderId) : Option Entry := l.orders.find? (·.id = id)

def execute (id : OrderId) (fillQty : ℕ) : Listing × Bool :=
  match l.find id with
  | none => (l, false)
  | some e => ({ l.change (Entry.lower id fillQty) with
      executions := l.executions ++ [⟨id, 0, e.price, min fillQty e.qty⟩] }, e.qty ≤ fillQty)

def reduce (id : OrderId) (cancelQty : ℕ) : Listing × Bool :=
  (l.change (Entry.lower id cancelQty), (l.find id).elim false (·.qty ≤ cancelQty))

def step : OrderBook.Op → Listing × Bool
  | .insertLimitOrder id side price qty => l.insert cap id side price.toNat qty.toNat
  | .cancelOrder id => (l.change (Entry.without id), false)
  | .processMarketOrder side qty => (l.market side qty.toNat, false)
  | .executeOrder id fillQty => l.execute id fillQty.toNat
  | .reduceOrderQty id cancelQty => l.reduce id cancelQty.toNat

def run : Listing → List OrderBook.Op → Listing × List Bool
  | l, [] => (l, [])
  | l, op :: ops =>
    let r := run (l.step cap op).1 ops
    (r.1, (l.step cap op).2 :: r.2)

end Orders

section Window

variable (band cap : ℕ)

/-- No order has the id of the one that comes, and its price lies in the window around the price of the
first order. -/
def Takes : OrderBook.Op → Prop
  | .insertLimitOrder id _ price _ => (∀ e ∈ l.orders, e.id ≠ id) ∧
    OrderBook.centeredBase band (l.first.getD price.toNat) ≤ price.toNat ∧
    price.toNat < OrderBook.centeredBase band (l.first.getD price.toNat) + band
  | _ => True

def TakesAll : Listing → List OrderBook.Op → Prop
  | _, [] => True
  | l, op :: ops => l.Takes band op ∧ TakesAll (l.step cap op).1 ops

instance : (op : OrderBook.Op) → Decidable (l.Takes band op)
  | .insertLimitOrder _ _ _ _ => inferInstanceAs (Decidable (_ ∧ _ ∧ _))
  | .cancelOrder _ => .isTrue trivial
  | .processMarketOrder _ _ => .isTrue trivial
  | .executeOrder _ _ => .isTrue trivial
  | .reduceOrderQty _ _ => .isTrue trivial

instance decidableTakesAll : (l : Listing) → (ops : List OrderBook.Op) →
    Decidable (l.TakesAll band cap ops)
  | _, [] => .isTrue trivial
  | l, op :: ops =>
    have := decidableTakesAll (l.step cap op).1 ops
    inferInstanceAs (Decidable (_ ∧ _))

end Window

end Listing

/-- The book shows what the exchange does. -/
structure Shows {M : Type} (c : OrderBook M) (l : Listing) : Prop where
  fifo : ∀ side price, c.fifo side price = l.fifo side price
  best : ∀ side, c.bestPrice side = l.best side
  trades : c.logger = l.executions

end Nanomatch
