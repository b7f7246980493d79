import Nanomatch.Makers

/-!
# What a book keeps a record of

The cached top of book, the count of live orders and the volumes of the levels, next to the orders
that they are about, and the calls that let them fall out of step: an insert that joins the best
level of its side, a call that takes an order out by `cancel_order`, and an insert that brings its
level to more than 32 bits can hold.
-/

namespace Nanomatch

open Greedy

namespace OrderBook

variable {M : Type} (c : OrderBook M)

section Top

/-- A cached best level is a level with orders. -/
structure TopHeld : Prop where
  bid : c.tob.bestBid = UINT32_MAX ∨ c.tob.bestBid ∈ c.occupied .BUY
  ask : c.tob.bestAsk = UINT32_MAX ∨ c.tob.bestAsk ∈ c.occupied .SELL

/-- The displayed quantities are those of the cached best levels. -/
structure QtyExact : Prop where
  bid : c.tob.bidQty =
    if c.tob.bestBid ≠ UINT32_MAX then (c.levelAt .BUY c.tob.bestBid).totalVolume else 0
  ask : c.tob.askQty =
    if c.tob.bestAsk ≠ UINT32_MAX then (c.levelAt .SELL c.tob.bestAsk).totalVolume else 0

/-- The call leaves an order at the level that is the cached best one of its side: the price is that
level's, the makers do not have the whole quantity, and there is a slot for the rest. -/
def Joins : Op → Prop
  | .insertLimitOrder _ side price qty =>
    c.inBand (c.toIdx price.toNat) ∧ c.toIdx price.toNat = c.tob.best side ∧
      total c.qtyAt (c.metMakers side.other (c.tob.best side)) < qty.toNat ∧
      (c.pool.freeHead ≠ NULL_IDX ∨ c.metMakers side.other (c.tob.best side) ≠ [])
  | _ => False

instance : (op : Op) → Decidable (c.Joins op)
  | .insertLimitOrder _ _ _ _ => inferInstanceAs (Decidable (_ ∧ _ ∧ _ ∧ _))
  | .cancelOrder _ => .isFalse id
  | .processMarketOrder _ _ => .isFalse id
  | .executeOrder _ _ => .isFalse id
  | .reduceOrderQty _ _ => .isFalse id

end Top

section Count

/-- The number of resting orders. -/
def restingCount : ℕ := (c.resting .BUY ++ c.resting .SELL).length

/-- The call takes an order out by `cancel_order`. -/
def Cancels [IdMapOps M] : Op → Prop
  | .cancelOrder id => c.findId id ≠ some NULL_IDX
  | .reduceOrderQty id cancelQty =>
    match c.findId id with
    | none => False
    | some idx => idx ≠ NULL_IDX ∧ c.qtyAt idx ≤ cancelQty.toNat
  | _ => False

instance [IdMapOps M] : (op : Op) → Decidable (c.Cancels op)
  | .insertLimitOrder _ _ _ _ => .isFalse id
  | .cancelOrder id => inferInstanceAs (Decidable (c.findId id ≠ _))
  | .processMarketOrder _ _ => .isFalse id
  | .executeOrder _ _ => .isFalse id
  | .reduceOrderQty id cancelQty => match h : c.findId id with
    | none => .isFalse (by simp [Cancels, h])
    | some idx =>
      decidable_of_iff (idx ≠ NULL_IDX ∧ c.qtyAt idx ≤ cancelQty.toNat) (by simp [Cancels, h])

end Count

section Volume

/-- Every level shows the sum of its orders, and so no less than any of them. -/
structure VolumeExact : Prop where
  sum : ∀ sd, ∀ i < (c.levels sd).size,
    (c.levelAt sd i).totalVolume = ((c.orders sd i).map Order.qty).sum
  le : ∀ sd, ∀ i < (c.levels sd).size, ∀ o ∈ c.orders sd i, o.qty ≤ (c.levelAt sd i).totalVolume

/-- If the call leaves an order, then there is room for it in the 32 bits of its level's volume. -/
def Fits : Op → Prop
  | .insertLimitOrder _ side price qty =>
    let i := (c.toIdx price.toNat).toNat
    let met := c.metMakers side.other i
    c.inBand (c.toIdx price.toNat) → total c.qtyAt met < qty.toNat →
      c.pool.freeHead ≠ NULL_IDX ∨ met ≠ [] →
      total c.qtyAt (c.slots side i) + (qty.toNat - total c.qtyAt met) < 2 ^ 32
  | _ => True

instance : (op : Op) → Decidable (c.Fits op)
  | .insertLimitOrder _ _ _ _ => inferInstanceAs (Decidable (_ → _ → _ → _))
  | .cancelOrder _ => .isTrue trivial
  | .processMarketOrder _ _ => .isTrue trivial
  | .executeOrder _ _ => .isTrue trivial
  | .reduceOrderQty _ _ => .isTrue trivial

end Volume

end OrderBook

end Nanomatch
