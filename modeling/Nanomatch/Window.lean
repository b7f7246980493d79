import Nanomatch.View

/-!
# The book under moves of its window

The orders by absolute price, which a move of the window leaves alone, and what `rebase_base` is to
do: the orders whose price lies in the new window stay as they are, all others leave the book.
-/

namespace Nanomatch

namespace OrderBook

variable {M : Type} (c : OrderBook M)

/-- The slots of the orders at the absolute price `price`, first to last. -/
def slotsAt (sd : Side) (price : ℕ) : List ℕ :=
  if c.base ≤ price ∧ price < c.base + c.bids.size then c.slots sd (price - c.base) else []

/-- What an order is apart from its links, with its absolute price. -/
def shown (s : ℕ) : OrderId × Side × ℕ × ℕ :=
  ((c.pool.pool.cell s).id, (c.pool.pool.cell s).side, (c.pool.pool.cell s).qty,
    c.absPrice (c.pool.pool.cell s))

/-- The number of resting orders outside the window that starts at `newBase`. -/
def outsideCount (newBase : ℕ) : ℕ :=
  ((c.resting .BUY ++ c.resting .SELL).filter fun o => ¬ c.Keeps newBase (c.absPrice o)).length

/-- No two resting orders share an id. -/
def DistinctIds : Prop := ((c.resting .BUY ++ c.resting .SELL).map Order.id).Nodup

instance : Decidable c.DistinctIds := inferInstanceAs (Decidable (List.Nodup _))

variable [IdMapOps M]

/-- `c'` is the book `c` with its window moved to `newBase`. -/
structure Rebased (band cap newBase : ℕ) (c' : OrderBook M) : Prop where
  base : c'.base = newBase
  consistent : c'.Consistent band cap
  slots : ∀ sd price, c'.slotsAt sd price =
    if newBase ≤ price ∧ price < newBase + band then c.slotsAt sd price else []
  orders : ∀ sd price, ∀ s ∈ c'.slotsAt sd price, c'.shown s = c.shown s ∧
    c'.findId (c.pool.pool.cell s).id = c.findId (c.pool.pool.cell s).id
  freed : ∀ sd price, ¬ (newBase ≤ price ∧ price < newBase + band) → ∀ s ∈ c.slotsAt sd price,
    c'.freeSlots.count s = 1 ∧ c'.findId (c.pool.pool.cell s).id = some NULL_IDX
  live : c'.liveOrderCount + c.outsideCount newBase = c.liveOrderCount

/-- `c'` has the trades, the orders and the ids of the book `c`. -/
structure SameOrders (c' : OrderBook M) : Prop where
  logger : c'.logger = c.logger
  slots : ∀ sd price, c'.slotsAt sd price = c.slotsAt sd price
  orders : ∀ sd price, ∀ s ∈ c.slotsAt sd price, c'.shown s = c.shown s
  ids : ∀ id, c'.findId id = c.findId id

end OrderBook

end Nanomatch
