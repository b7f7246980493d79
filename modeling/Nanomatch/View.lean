import Mathlib.Order.Bounds.Defs
import Nanomatch.Lib.LinkedList
import Nanomatch.OrderBook

/-!
# What a book shows

The links of the pool as functions, the slots that a walk along them meets, and the orders in these
slots. Everything that is said about the orders a book holds is said with these.
-/

namespace Nanomatch

open LinkedList WordBits

namespace OrderBook

variable {M : Type} (c : OrderBook M)

section Links

def nextOf (s : ℕ) : ℕ := (c.pool.pool.cell s).nextIdx

def prevOf (s : ℕ) : ℕ := (c.pool.pool.cell s).prevIdx

def levelAt (sd : Side) (i : ℕ) : PriceLevel := (c.levels sd).cell i

end Links

section Slots

/-- The slots of level `i`, first to last. -/
def slots (sd : Side) (i : ℕ) : List ℕ :=
  follow c.nextOf NULL_IDX c.pool.capacity (c.levelAt sd i).headIdx

def freeSlots : List ℕ := follow c.nextOf NULL_IDX c.pool.capacity c.pool.freeHead

/-- The slots of one of the pool's lists: a level's, or the free list. -/
def slotsOf {band : ℕ} : Option (Side × Fin band) → List ℕ
  | none => c.freeSlots
  | some (sd, i) => c.slots sd i

/-- The orders of level `i`, first to last. -/
def orders (sd : Side) (i : ℕ) : List Order := (c.slots sd i).map c.pool.pool.cell

/-- The price of an order, which its `price` field gives relative to the base. -/
def absPrice (o : Order) : ℕ := c.base + o.price

end Slots

section Invariant

variable [IdMapOps M]

/-- A book with `band` levels a side and `cap` slots is well formed. -/
structure Consistent (band cap : ℕ) : Prop where
  capacity : c.pool.capacity = cap
  /-- Every slot is in exactly one list, once. -/
  partition : ∀ s < cap, ∃! l : Option (Side × Fin band), s ∈ c.slotsOf l
  nodup : ∀ l : Option (Side × Fin band), (c.slotsOf l).Nodup
  slot_lt : ∀ l : Option (Side × Fin band), ∀ s ∈ c.slotsOf l, s < cap
  free : Chain c.nextOf NULL_IDX c.pool.freeHead c.freeSlots
  links : ∀ sd, ∀ i < band, Dll c.nextOf c.prevOf NULL_IDX (c.levelAt sd i).headIdx (c.slots sd i)
    (c.levelAt sd i).tailIdx
  count : ∀ sd, ∀ i < band, (c.levelAt sd i).orderCount = (c.slots sd i).length
  volume : ∀ sd, ∀ i < band,
    (c.levelAt sd i).totalVolume = ((c.orders sd i).map Order.qty).sum % 2 ^ 32
  order : ∀ sd, ∀ i < band, ∀ o ∈ c.orders sd i, o.price = i ∧ o.side = sd ∧ 0 < o.qty
  bit : ∀ sd i, bitAt (c.bitmap sd) i = true ↔ i < band ∧ c.slots sd i ≠ []
  price : ∀ sd, ∀ i < band, c.slots sd i ≠ [] →
    (c.levelAt sd i).price = c.base + i ∧ c.base + i < 2 ^ 32
  /-- The id map holds resting orders only, under their ids. -/
  ids : ∀ id s, c.findId id = some s → s ≠ NULL_IDX →
    ∃ sd, ∃ i < band, s ∈ c.slots sd i ∧ (c.pool.pool.cell s).id = id

end Invariant

section Top

/-- The levels of side `sd` that hold orders. -/
def occupied (sd : Side) : Set ℕ := {i | i < (c.levels sd).size ∧ c.slots sd i ≠ []}

/-- The resting orders of side `sd`, level by level. -/
def resting (sd : Side) : List Order := (List.range (c.levels sd).size).flatMap (c.orders sd)

/-- The cached best levels are the best ones. -/
structure TopExact : Prop where
  bid : c.tob.bestBid ≠ UINT32_MAX → IsGreatest (c.occupied .BUY) c.tob.bestBid
  noBid : c.tob.bestBid = UINT32_MAX ↔ c.occupied .BUY = ∅
  ask : c.tob.bestAsk ≠ UINT32_MAX → IsLeast (c.occupied .SELL) c.tob.bestAsk
  noAsk : c.tob.bestAsk = UINT32_MAX ↔ c.occupied .SELL = ∅

/-- Every bid is below every ask. -/
def Uncrossed : Prop :=
  ∀ bid ∈ c.resting .BUY, ∀ ask ∈ c.resting .SELL, c.absPrice bid < c.absPrice ask

instance : Decidable c.Uncrossed :=
  inferInstanceAs (Decidable (∀ bid ∈ c.resting .BUY, ∀ ask ∈ c.resting .SELL, _))

/-- The price `p` lies in the window that starts at `newBase`. -/
def Keeps (newBase p : ℕ) : Prop := newBase ≤ p ∧ p < newBase + c.bids.size

/-- An insert at `price` moves the window. -/
def Moves (price : ℕ) : Prop :=
  c.baseSet = true ∧ ¬ c.inBand (c.toIdx price) ∧ c.liveOrderCount ≤ BOOTSTRAP_REBASE_LIMIT

/-- No order that stays in the window when it moves to `newBase` is ahead of its side's cached
best index, counted from the new base. -/
def SafeMove (newBase : ℕ) : Prop :=
  (∀ bid ∈ c.resting .BUY, c.Keeps newBase (c.absPrice bid) →
    c.absPrice bid ≤ newBase + c.tob.bestBid) ∧
  ∀ ask ∈ c.resting .SELL, c.Keeps newBase (c.absPrice ask) →
    newBase + c.tob.bestAsk ≤ c.absPrice ask

instance (newBase p : ℕ) : Decidable (c.Keeps newBase p) := inferInstanceAs (Decidable (_ ∧ _))

instance (price : ℕ) : Decidable (c.Moves price) := inferInstanceAs (Decidable (_ ∧ _ ∧ _))

instance (newBase : ℕ) : Decidable (c.SafeMove newBase) :=
  inferInstanceAs (Decidable ((∀ bid ∈ c.resting .BUY, _) ∧ ∀ ask ∈ c.resting .SELL, _))

/-- If the call moves the window, the move is safe. -/
def SafeStep : Op → Prop
  | .insertLimitOrder _ _ price _ => c.Moves price.toNat →
    c.SafeMove (centeredBase c.bids.size price.toNat)
  | _ => True

instance : (op : Op) → Decidable (c.SafeStep op)
  | .insertLimitOrder _ _ _ _ => inferInstanceAs (Decidable (_ → _))
  | .cancelOrder _ => .isTrue trivial
  | .processMarketOrder _ _ => .isTrue trivial
  | .executeOrder _ _ => .isTrue trivial
  | .reduceOrderQty _ _ => .isTrue trivial

end Top

section Runs

variable [IdMapOps M]

/-- `P` holds of every call of a run in the state it is made in. -/
def AlongRun (P : OrderBook M → Op → Prop) : OrderBook M → List Op → Prop
  | _, [] => True
  | c, op :: ops => P c op ∧
    match c.step op with
    | none => True
    | some (c', _) => AlongRun P c' ops

instance decidableAlongRun (P : OrderBook M → Op → Prop) [∀ c op, Decidable (P c op)] :
    (c : OrderBook M) → (ops : List Op) → Decidable (c.AlongRun P ops)
  | _, [] => .isTrue trivial
  | c, op :: ops => match h : c.step op with
    | none => decidable_of_iff (P c op) (by simp [AlongRun, h])
    | some (c', _) =>
      have := decidableAlongRun P c' ops
      decidable_of_iff (P c op ∧ AlongRun P c' ops) (by simp [AlongRun, h])

end Runs

end OrderBook

end Nanomatch
