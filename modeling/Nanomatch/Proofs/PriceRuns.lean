import Nanomatch.Proofs.LadderPrices
import Nanomatch.Proofs.PriorityRuns

/-!
# Every trade is at its maker's price

An order stays at the absolute price of its insert, whatever calls come after it, so this is what a
trade shows for it.
-/

namespace Nanomatch

open OrderBook Ladder

variable {c : OrderBook FinMap} {a : Ladder} {ops : List Op} {id : OrderId} {sd : Side} {price : ℕ}

section Transfer

/-- With ids that are not used again, an id has one insert. -/
theorem eq_of_insertedId (hids : (ops.filterMap Op.insertedId).Nodup) {op op' : Op}
    (h : op ∈ ops) (h' : op' ∈ ops) (hid : op.insertedId = some id)
    (hid' : op'.insertedId = some id) : op = op' := by
  by_contra hne
  have hpair := List.pairwise_filterMap.1 hids
  have hsymm : Std.Symm fun op op' : Op =>
      ∀ id, op.insertedId = some id → ∀ id', op'.insertedId = some id' → id ≠ id' :=
    ⟨fun _ _ hne id hid id' hid' he => hne id' hid' id hid he.symm⟩
  exact hpair.forall h h' hne id hid id hid' rfl

theorem price_of_inserts (hids : (ops.filterMap Op.insertedId).Nodup) {op : Op} (h : op ∈ ops)
    (hop : Inserts id sd price op) {side : Side} {p qty : UInt32}
    (h' : .insertLimitOrder id side p qty ∈ ops) : p.toNat = price := by
  obtain ⟨p', qty', rfl, hp'⟩ := hop
  have heq := eq_of_insertedId hids h h' rfl rfl
  injection heq with _ _ hp
  rw [← hp, hp']

theorem Rep.tradesAtPrice (h : Rep finLaws c a) (hw : a.Wf)
    (hids : (ops.filterMap Op.insertedId).Nodup)
    (hplaced : ∀ k sd price, a.Placed k sd price → ∃ op ∈ ops, Inserts k sd price op)
    {l : List ℕ} {new : List Trade} (hs : Sold a l new) : c.TradesAtPrice ops new := by
  refine ⟨l, hs.nodup, hs.made.imp fun s t ⟨⟨⟨sd, hsq⟩, hid⟩, hle⟩ => ?_⟩
  obtain ⟨op, hmem, hop⟩ := hplaced t.makerId sd t.price ⟨s, hsq, hid⟩
  obtain ⟨hcell, hqty⟩ := h.cell_id_at hsq
  refine ⟨hcell.trans hid, ?_, fun side p qty hp => price_of_inserts hids hmem hop hp, hqty ▸ hle⟩
  obtain ⟨p, qty, rfl, hp⟩ := hop
  exact ⟨sd, p, qty, hmem, hp, (h.slotsAt_eq hw.toSep sd _).symm ▸ hsq⟩

end Transfer

section Runs

variable {band cap : ℕ} (hband : 0 < band) (hband' : band < 2 ^ 32) (hcap : 0 < cap)
  (hcap' : cap < 2 ^ 32)

include hband hband' hcap hcap'

/-- After every run in which no id is inserted twice, the trades of a next call are at the prices of
the inserts of their makers, and those of an insert are not empty and within its limit. -/
theorem run_priced (ops : List Op) (hids : (ops.filterMap Op.insertedId).Nodup) :
    ∃ c, (fresh band cap).run ops = some c ∧ ∀ op, ∃ c' r new, c.step op = some (c', r) ∧
      c'.logger = c.logger ++ new ∧ c.TradesAtPrice ops new ∧ ∀ t ∈ new, op.Allows t := by
  obtain ⟨c, hrun, h, hw⟩ := run_fresh hband hband' hcap hcap' ops
  refine ⟨c, hrun, fun op => ?_⟩
  obtain ⟨c', hstep, hrep⟩ := h.step hw op trivial
  obtain ⟨l, new, htr, hsold, hallows⟩ := hw.step_sold op
  have hempty : ∀ k sd price, ¬ (Ladder.new band cap).Placed k sd price := by
    rintro k sd price ⟨s, hs, -⟩
    rw [queueAt_new] at hs
    exact absurd hs List.not_mem_nil
  refine ⟨c', _, new, hstep, ?_, h.tradesAtPrice hw hids ?_ hsold, hallows⟩
  · rw [hrep.logger, h.logger, htr]
  · exact fun k sd price => (new_wf hband hband' hcap').run_placed hempty ops

end Runs

section Examples

/-- The second bid moves the window, and the first one stays in it at another level. -/
def carriedBid : List Op := [.insertLimitOrder 1 .BUY 6 5, .insertLimitOrder 2 .BUY 11 3]

theorem run_priced_carriedBid : ∃ c, (fresh 10 4).run carriedBid = some c ∧
    ∃ c' r new, c.step (.insertLimitOrder 3 .SELL 6 7) = some (c', r) ∧
      c'.logger = c.logger ++ new ∧ new.map Trade.price = [11, 6] ∧
      c.TradesAtPrice carriedBid new ∧ ∀ t ∈ new, (Op.insertLimitOrder 3 .SELL 6 7).Allows t := by
  obtain ⟨c, hrun, hall⟩ := run_priced (by decide : 0 < 10) (by decide) (by decide : 0 < 4)
    (by decide) carriedBid (by decide)
  obtain ⟨c', r, new, hstep, hlogger, htrades⟩ := hall (.insertLimitOrder 3 .SELL 6 7)
  have hval : (((fresh 10 4).run carriedBid).bind fun c =>
      (c.step (.insertLimitOrder 3 .SELL 6 7)).map fun r =>
        (r.1.logger.drop c.logger.length).map Trade.price) = some [11, 6] := by
    decide +kernel
  rw [hrun, Option.bind_some, hstep, Option.map_some, hlogger, List.drop_left,
    Option.some.injEq] at hval
  exact ⟨c, hrun, c', r, new, hstep, hlogger, hval, htrades⟩

end Examples

end Nanomatch
