import Nanomatch.Makers
import Nanomatch.Window

/-!
# Where orders came from

The order in which orders came is not stored anywhere in the book. Here each slot is given the
number of the insert that put the order into it, so that a level, or the makers of one match, can be
said to be in the order of these calls. Nor does an order have the absolute price that it came with:
what a trade shows for it is compared with the calls before.
-/

namespace Nanomatch

namespace OrderBook

variable {M : Type} [IdMapOps M] (c : OrderBook M)

/-- The call with number `n` was `op`, returned `r` and led to the book `c`. An insert that returned
true has put its order into the slot that the id map has for the id. -/
def bornAfter (op : Op) (r : Bool) (n : ℕ) (born : ℕ → ℕ) : ℕ → ℕ :=
  match op with
  | .insertLimitOrder id _ _ _ =>
    if r then fun s => if c.findId id = some s then n else born s else born
  | _ => born

/-- The book after the calls, which are numbered from `n` on, and the number of the insert of the
order in each slot. -/
def runBorn : OrderBook M → (ℕ → ℕ) → ℕ → List Op → Option (OrderBook M × (ℕ → ℕ))
  | c, born, _, [] => some (c, born)
  | c, born, n, op :: ops => do
    let (c', r) ← c.step op
    runBorn c' (c'.bornAfter op r n born) (n + 1) ops

/-- The orders of each level, first to last, are in the order of their inserts. -/
def LevelsInOrder (born : ℕ → ℕ) : Prop :=
  ∀ sd, ∀ i < (c.levels sd).size, ((c.slots sd i).map born).Pairwise (· < ·)

/-- The trades of one call have makers that rested in the book `c`. If two of them are at the same
price, the one inserted first is traded first and is completely filled. -/
def TradesInOrder (born : ℕ → ℕ) (trades : List Trade) : Prop :=
  ∃ makers : List ℕ, makers.Nodup ∧
    List.Forall₂ (fun s (t : Trade) =>
      (∃ sd, s ∈ c.slotsAt sd t.price) ∧ (c.pool.pool.cell s).id = t.makerId) makers trades ∧
    (makers.zip trades).Pairwise fun x y => x.2.price = y.2.price →
      born x.1 < born y.1 ∧ x.2.qty = c.qtyAt x.1

/-- The trade shows the price of the one insert of its maker, which is in slot `s`, and takes no
more than there is of it. -/
structure AtMakersPrice (ops : List Op) (s : ℕ) (t : Trade) : Prop where
  maker : (c.pool.pool.cell s).id = t.makerId
  inserted : ∃ side price qty, .insertLimitOrder t.makerId side price qty ∈ ops ∧
    price.toNat = t.price ∧ s ∈ c.slotsAt side t.price
  only : ∀ side price qty, .insertLimitOrder t.makerId side price qty ∈ ops → price.toNat = t.price
  le : t.qty ≤ c.qtyAt s

/-- The trades of one call, made after the calls `ops`, have a maker each and are at its price. -/
def TradesAtPrice (ops : List Op) (trades : List Trade) : Prop :=
  ∃ makers : List ℕ, makers.Nodup ∧ List.Forall₂ (c.AtMakersPrice ops) makers trades

/-- If the call is an insert, then the trade is not empty, and not beyond the limit. -/
def Op.Allows : Op → Trade → Prop
  | .insertLimitOrder _ .BUY price _, t => 1 ≤ t.qty ∧ t.price ≤ price.toNat
  | .insertLimitOrder _ .SELL price _, t => 1 ≤ t.qty ∧ price.toNat ≤ t.price
  | _, _ => True

end OrderBook

end Nanomatch
