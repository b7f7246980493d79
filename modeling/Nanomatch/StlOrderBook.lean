import Mathlib.Tactic.Linarith
import Nanomatch.View

/-!
# The plain book

`StlOrderBook` of `Stlbaselinebook.hpp`, which the benchmarks compare the book with: an ordered map
from prices to lists of orders per side, and a map from ids to list iterators. An iterator names its
list node for as long as the node is in the list; here nodes are numbered as they are made. Taking
the front of an empty list, or following an iterator whose node is gone, fails.
-/

namespace Nanomatch

structure RestingOrder where
  id : OrderId
  qty : ℕ

/-- A list node; `it` is what an iterator to it holds. -/
structure ListNode extends RestingOrder where
  it : ℕ

structure IndexEntry where
  side : Side
  price : ℕ
  it : ℕ

/-- `std::map<Price, std::list<RestingOrder>>` -/
abbrev PriceMap := Std.TreeMap ℕ (List ListNode)

structure StlOrderBook where
  bids : PriceMap := ∅
  asks : PriceMap := ∅
  idIndex : OrderId → Option IndexEntry := fun _ => none
  /-- The number of the next node that is made. -/
  nextIt : ℕ := 0

namespace StlOrderBook

variable (b : StlOrderBook)

section Levels

def levels : Side → PriceMap
  | .BUY => b.bids
  | .SELL => b.asks

def setLevels (levels : PriceMap) : Side → StlOrderBook
  | .BUY => { b with bids := levels }
  | .SELL => { b with asks := levels }

def level (side : Side) (price : ℕ) : List ListNode := (b.levels side).getD price []

/-- `asks_.begin()->first` and `bids_.rbegin()->first` -/
def best : Side → Option ℕ
  | .BUY => b.bids.keys.getLast?
  | .SELL => b.asks.keys.head?

/-- The level at `price` becomes `level`; an empty one leaves the map. -/
def setLevel (side : Side) (price : ℕ) (level : List ListNode) : StlOrderBook :=
  b.setLevels (if level = [] then (b.levels side).erase price
    else (b.levels side).insert price level) side

def eraseId (id : OrderId) : StlOrderBook := { b with idIndex := Function.update b.idIndex id none }

/-- The number of resting orders. -/
def size : ℕ := (b.bids.toList.map (·.2.length)).sum + (b.asks.toList.map (·.2.length)).sum

end Levels

section Ops

/-- The matching loops of `insert_limit_order` and `process_market_order`, over the levels of
`side` that `crosses` admits. -/
def matchLoop (side : Side) (crosses : ℕ → Bool) : ℕ → StlOrderBook → ℕ → Option (StlOrderBook × ℕ)
  | 0, _, _ => none
  | fuel + 1, b, qty =>
    if qty > 0 then
      match b.best side with
      | none => some (b, qty)
      | some price =>
        if crosses price then
          match b.level side price with
          | [] => none
          | resting :: rest =>
            let fill := min qty resting.qty
            if resting.qty - fill = 0 then
              matchLoop side crosses fuel ((b.eraseId resting.id).setLevel side price rest)
                (qty - fill)
            else
              matchLoop side crosses fuel
                (b.setLevel side price ({ resting with qty := resting.qty - fill } :: rest))
                (qty - fill)
        else some (b, qty)
    else some (b, qty)

/-- Every round but the last takes an order out of the book. -/
def fuel : ℕ := b.size + 2

def pushBack (id : OrderId) (side : Side) (price qty : ℕ) : StlOrderBook :=
  let b' := b.setLevel side price (b.level side price ++ [{ id, qty, it := b.nextIt }])
  { b' with
    idIndex := Function.update b'.idIndex id (some { side, price, it := b.nextIt })
    nextIt := b.nextIt + 1 }

def insertLimitOrder (id : OrderId) (side : Side) (price qty : ℕ) :
    Option (StlOrderBook × Bool) := do
  let (b, qty) ←
    match side with
    | .BUY => b.matchLoop .SELL (· ≤ price) b.fuel qty
    | .SELL => b.matchLoop .BUY (· ≥ price) b.fuel qty
  some (if qty > 0 then (b.pushBack id side price qty, true) else (b, false))

def cancelOrder (id : OrderId) : Option (StlOrderBook × Bool) :=
  match b.idIndex id with
  | none => some (b, false)
  | some e =>
    if (b.level e.side e.price).any (·.it == e.it) then
      some ((b.setLevel e.side e.price ((b.level e.side e.price).eraseP (·.it == e.it))).eraseId id,
        true)
    else none

def processMarketOrder (side : Side) (qty : ℕ) : Option StlOrderBook := do
  let (b, _) ←
    match side with
    | .BUY => b.matchLoop .SELL (fun _ => true) b.fuel qty
    | .SELL => b.matchLoop .BUY (fun _ => true) b.fuel qty
  some b

end Ops

section Runs

/-- A call of one of the operations that both books have. -/
inductive Call
  | insertLimitOrder (id : OrderId) (side : Side) (price qty : UInt32)
  | cancelOrder (id : OrderId)
  | processMarketOrder (side : Side) (qty : UInt32)

/-- The same call on the other book. -/
def Call.op : Call → OrderBook.Op
  | .insertLimitOrder id side price qty => .insertLimitOrder id side price qty
  | .cancelOrder id => .cancelOrder id
  | .processMarketOrder side qty => .processMarketOrder side qty

def Call.insertedPrice : Call → Option ℕ
  | .insertLimitOrder _ _ price _ => some price.toNat
  | _ => none

/-- One call: the book after it, and what `insert_limit_order` returned (`false` for other calls,
since the other book's `cancel_order` returns nothing). -/
def step : Call → Option (StlOrderBook × Bool)
  | .insertLimitOrder id side price qty => b.insertLimitOrder id side price.toNat qty.toNat
  | .cancelOrder id => (b.cancelOrder id).map fun r => (r.1, false)
  | .processMarketOrder side qty => (b.processMarketOrder side qty.toNat).map (·, false)

def run : StlOrderBook → List Call → Option (StlOrderBook × List Bool)
  | b, [] => some (b, [])
  | b, call :: calls => do
    let (b, r) ← b.step call
    let (b, rs) ← run b calls
    some (b, r :: rs)

/-- The base that the first insert anchors the other book's window at. -/
def windowBase (band : ℕ) (calls : List Call) : ℕ :=
  match calls.filterMap Call.insertedPrice with
  | [] => 0
  | price :: _ => OrderBook.centeredBase band price

/-- Every inserted price lies in the window that the first insert anchors. -/
def InWindow (band : ℕ) (calls : List Call) : Prop :=
  ∀ price ∈ calls.filterMap Call.insertedPrice,
    windowBase band calls ≤ price ∧ price < windowBase band calls + band

instance (band : ℕ) (calls : List Call) : Decidable (InWindow band calls) :=
  inferInstanceAs (Decidable (∀ price ∈ calls.filterMap Call.insertedPrice, _))

/-- The book never holds more than `cap` orders in a run. -/
def Fits (cap : ℕ) : StlOrderBook → List Call → Prop
  | b, [] => b.size ≤ cap
  | b, call :: calls => b.size ≤ cap ∧
    match b.step call with
    | none => True
    | some (b', _) => Fits cap b' calls

instance decidableFits (cap : ℕ) : (b : StlOrderBook) → (calls : List Call) →
    Decidable (Fits cap b calls)
  | b, [] => inferInstanceAs (Decidable (b.size ≤ cap))
  | b, call :: calls => match h : b.step call with
    | none => decidable_of_iff (b.size ≤ cap) (by simp [Fits, h])
    | some (b', _) =>
      have := decidableFits cap b' calls
      decidable_of_iff (b.size ≤ cap ∧ Fits cap b' calls) (by simp [Fits, h])

end Runs

/-- The orders at `price`, first to last. -/
def fifo (side : Side) (price : ℕ) : List RestingOrder :=
  (b.level side price).map ListNode.toRestingOrder

end StlOrderBook

namespace OrderBook

variable {M : Type} (c : OrderBook M)

/-- The orders at the absolute price `price`, first to last. -/
def fifo (side : Side) (price : ℕ) : List RestingOrder :=
  if c.base ≤ price ∧ price < c.base + (c.levels side).size then
    (c.orders side (price - c.base)).map fun o => ⟨o.id, o.qty⟩
  else []

/-- The cached best price of a side, if there is one. -/
def bestPrice : Side → Option ℕ
  | .BUY => if c.tob.bestBid = UINT32_MAX then none else some (c.base + c.tob.bestBid)
  | .SELL => if c.tob.bestAsk = UINT32_MAX then none else some (c.base + c.tob.bestAsk)

end OrderBook

/-- The two books hold the same orders and have the same best prices. -/
structure Agree {M : Type} (c : OrderBook M) (b : StlOrderBook) : Prop where
  fifo : ∀ side price, c.fifo side price = b.fifo side price
  best : ∀ side, c.bestPrice side = b.best side

end Nanomatch
