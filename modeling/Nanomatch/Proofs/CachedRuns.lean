import Nanomatch.Cached
import Nanomatch.Proofs.LadderCached
import Nanomatch.Proofs.LedgerRuns
import Nanomatch.Proofs.Makers

/-!
# Runs and what the book keeps a record of

No call leaves the arrays or runs for ever, and a cached best level always holds orders. Its
displayed quantity is right as long as no insert joins it, and the live count is right as long as
nothing is cancelled.
-/

namespace Nanomatch

open Greedy OrderBook Ladder

variable {M : Type} [IdMapOps M] {L : IdMapLaws M} {c : OrderBook M} {a : Ladder} {sd : Side}
  {i s : ℕ}

section Transfer

theorem Rep.topHeld (h : Rep L c a) (hw : a.Wf) : c.TopHeld := by
  have hheld : ∀ sd, c.tob.best sd = UINT32_MAX ∨ c.tob.best sd ∈ c.occupied sd := by
    intro sd
    rw [h.tob]
    exact (hw.top sd).imp_right fun hq => (h.mem_occupied hw.toSep).2 hq
  exact ⟨hheld .BUY, hheld .SELL⟩

theorem Rep.qtyExact (h : Rep L c a) (hw : a.Wf) (hq : ∀ sd, a.QtyOk sd) : c.QtyExact := by
  have hqty : ∀ sd, c.tob.qty sd =
      if c.tob.best sd ≠ UINT32_MAX then (c.levelAt sd (c.tob.best sd)).totalVolume else 0 := by
    intro sd
    rw [h.tob]
    refine (hq sd).trans ?_
    split_ifs with hb
    · exact (h.level sd _ (hw.lt_band ((hw.top sd).resolve_left hb))).volume.symm
    · rw [not_not] at hb
      have hlt := hw.band_lt
      unfold volume
      rw [hb, hw.queue_eq_nil (by simp only [UINT32_MAX]; omega)]
      rfl
  exact ⟨hqty .BUY, hqty .SELL⟩

theorem Rep.freeHead_iff (h : Rep L c a) (hw : a.Wf) :
    c.pool.freeHead ≠ NULL_IDX ↔ a.free ≠ [] := by
  have hnull : NULL_IDX ∉ a.free := fun hf => hw.ne_null (hw.free_lt _ hf) rfl
  exact not_congr (h.chain.head_eq_nil hnull)

theorem Rep.joins (h : Rep L c a) (hw : a.Wf) : ∀ op : Op, a.Joins op → c.Joins op
  | .insertLimitOrder _ sd price qty, hj => by
    obtain ⟨hin, hp, htotal, hroom⟩ := hj
    have hidx : c.toIdx price.toNat = c.tob.best sd := by
      rw [toIdx, hp, h.base, h.tob]
      omega
    refine ⟨(h.inBand_iff _).2 hin, hidx, ?_, ?_⟩
    · rw [h.tob, h.metMakers_eq hw, h.total_makers]
      exact htotal
    · rw [h.tob, h.metMakers_eq hw]
      exact hroom.imp_left (h.freeHead_iff hw).2
  | .cancelOrder _, hj => hj
  | .processMarketOrder _ _, hj => hj
  | .executeOrder _ _, hj => hj
  | .reduceOrderQty _ _, hj => hj

theorem Rep.cancels {c : OrderBook FinMap} (h : Rep finLaws c a) (hw : a.Wf) : ∀ op : Op,
    a.Cancels op → c.Cancels op
  | .insertLimitOrder _ _ _ _, hc => hc
  | .cancelOrder id, hc => by
    have hf : c.findId id = some (a.find id) := finLaws.find h.sync trivial id
    have hne : c.findId id ≠ some NULL_IDX := fun he => hc (Option.some.inj (hf.symm.trans he))
    exact hne
  | .processMarketOrder _ _, hc => hc
  | .executeOrder _ _, hc => hc
  | .reduceOrderQty id cancelQty, ⟨hid, hle⟩ => by
    have hf : c.findId id = some (a.find id) := finLaws.find h.sync trivial id
    simp only [OrderBook.Cancels, hf]
    refine ⟨hid, ?_⟩
    rw [h.qtyAt_eq (hw.ids id hid).1]
    exact hle

theorem Rep.length_resting (h : Rep L c a) (hs : a.Sep) (sd : Side) :
    (c.resting sd).length = ∑ i ∈ Finset.range a.band, (a.queue sd i).length := by
  have hlen := congrArg List.length (h.resting_map hs sd)
  rw [List.length_map, List.length_map] at hlen
  rw [hlen, slotList, List.length_flatMap]
  rfl

theorem Rep.restingCount_eq (h : Rep L c a) (hs : a.Sep) : c.restingCount = a.held := by
  rw [restingCount, List.length_append, h.length_resting hs, h.length_resting hs]
  rfl

end Transfer

section Runs

variable {band cap : ℕ} (hband : 0 < band) (hband' : band < 2 ^ 32) (hcap : 0 < cap)
  (hcap' : cap < 2 ^ 32)

/-- A run over the finite map keeps what every call under the condition keeps of the ladder. -/
theorem Rep.run_keeps {P : Ladder → Prop} {Q : OrderBook FinMap → Op → Prop}
    (hstep : ∀ {c : OrderBook FinMap} {a : Ladder}, Rep finLaws c a → a.Wf → P a → ∀ op, Q c op →
      P (a.step op).1) : ∀ (ops : List Op) {c : OrderBook FinMap} {a : Ladder}, Rep finLaws c a →
    a.Wf → P a → c.AlongRun Q ops →
    ∃ c', c.run ops = some c' ∧ Rep finLaws c' (a.run ops) ∧ (a.run ops).Wf ∧ P (a.run ops)
  | [], c, a, h, hw, hp, _ => ⟨c, rfl, h, hw, hp⟩
  | op :: ops, c, a, h, hw, hp, ⟨hq, hrest⟩ => by
    obtain ⟨c1, h1, hr1⟩ := h.step hw op trivial
    rw [h1] at hrest
    obtain ⟨c2, h2, hr2⟩ := Rep.run_keeps hstep ops hr1 (hw.step op) (hstep h hw hp op hq) hrest
    exact ⟨c2, bind_some h1 h2, hr2⟩

include hband hband' hcap hcap'

/-- No call of a run, and no call after it, leaves the arrays or goes on for ever, and a cached best
level is a level with orders before and after it. -/
theorem run_total (ops : List Op) (op : Op) : ∃ c c' r, (fresh band cap).run ops = some c ∧
    c.TopHeld ∧ c.step op = some (c', r) ∧ c'.TopHeld := by
  obtain ⟨c, hrun, hrep, hw⟩ := run_fresh hband hband' hcap hcap' ops
  obtain ⟨c', hstep, hrep'⟩ := hrep.step hw op trivial
  exact ⟨c, c', _, hrun, hrep.topHeld hw, hstep, hrep'.topHeld (hw.step op)⟩

/-- The displayed quantities of a book whose best levels no insert joins are exact. -/
theorem run_qtyExact (ops : List Op)
    (hjoin : (fresh band cap).AlongRun (fun c op => ¬ c.Joins op) ops) :
    ∃ c, (fresh band cap).run ops = some c ∧ c.QtyExact := by
  obtain ⟨c, hrun, hrep, hw, hq⟩ := Rep.run_keeps (P := fun a => ∀ sd, a.QtyOk sd)
    (fun h hw hq op hj => hw.step_qtyOk hq op fun ha => hj (h.joins hw op ha)) ops
    (rep_new hcap (L := finLaws) (m := FinMap.init) rfl) (new_wf hband hband' hcap')
    (fun sd => by cases sd <;> rfl) hjoin
  exact ⟨c, hrun, hrep.qtyExact hw hq⟩

/-- The live count of a book that nothing is cancelled in is the number of resting orders, so only a
book with more orders than the limit refuses an insert for its price. -/
theorem run_liveCount (ops : List Op)
    (hcancel : (fresh band cap).AlongRun (fun c op => ¬ c.Cancels op) ops) :
    ∃ c, (fresh band cap).run ops = some c ∧ c.liveOrderCount = c.restingCount ∧
      ∀ id side price qty c', c.step (.insertLimitOrder id side price qty) = some (c', false) →
        ¬ c'.inBand (c'.toIdx price.toNat) → BOOTSTRAP_REBASE_LIMIT < c.restingCount := by
  obtain ⟨c, hrun, hrep, hw, hcount⟩ := Rep.run_keeps (P := Ladder.Counted)
    (fun h hw hcount op hc => hw.step_counted hcount op fun ha => hc (h.cancels hw op ha)) ops
    (rep_new hcap (L := finLaws) (m := FinMap.init) rfl) (new_wf hband hband' hcap')
    (by simp [Ladder.Counted, Ladder.new]) hcancel
  have hlive : c.liveOrderCount = c.restingCount := by
    rw [hrep.live, hcount.live_eq hw.toCore, hrep.restingCount_eq hw.toSep]
  refine ⟨c, hrun, hlive, fun id side price qty c' hins hout => ?_⟩
  obtain ⟨c1, hc1, hrep1⟩ := hrep.step hw (.insertLimitOrder id side price qty) trivial
  obtain rfl : c' = c1 := congrArg Prod.fst (Option.some.inj (hins.symm.trans hc1))
  rw [← hlive, hrep.live]
  exact (hw.insert_refused (mt (hrep1.inBand_iff price.toNat).2 hout)).2.2.1

end Runs

section Examples

/-- The window moves past an ask, a bid is filled in part, and the second order rests behind it. -/
def behindBest : List Op := [.insertLimitOrder 1 .SELL 6 5, .insertLimitOrder 2 .BUY 11 7,
  .processMarketOrder .SELL 3, .insertLimitOrder 3 .BUY 9 4, .executeOrder 2 1]

/-- The second order joins the first one at the best level. -/
def joinedBid : List Op := [.insertLimitOrder 1 .BUY 6 5, .insertLimitOrder 2 .BUY 6 3]

/-- The one order is cancelled. -/
def cancelledBid : List Op := [.insertLimitOrder 1 .BUY 6 5, .cancelOrder 1]

theorem run_total_behindBest : ∃ c c' r, (fresh 10 2).run behindBest = some c ∧
    c.TopHeld ∧ c.step (.insertLimitOrder 4 .BUY 100 1) = some (c', r) ∧ c'.TopHeld :=
  run_total (by decide) (by decide) (by decide) (by decide) behindBest _

theorem run_qtyExact_behindBest : ∃ c, (fresh 10 4).run behindBest = some c ∧ c.QtyExact :=
  run_qtyExact (by decide) (by decide) (by decide) (by decide) behindBest (by decide +kernel)

theorem not_forall_run_qtyExact : ¬ ∀ band cap, 0 < band → band < 2 ^ 32 → 0 < cap → cap < 2 ^ 32 →
    ∀ ops, ∃ c, (fresh band cap).run ops = some c ∧ c.QtyExact := by
  intro h
  obtain ⟨c, hrun, hq⟩ := h 10 4 (by decide) (by decide) (by decide) (by decide) joinedBid
  have hval : ((fresh 10 4).run joinedBid).map (fun c =>
      (c.tob.bidQty, c.tob.bestBid, (c.levelAt .BUY 5).totalVolume)) = some (5, 5, 8) := by
    decide +kernel
  rw [hrun, Option.map_some, Option.some.injEq, Prod.mk.injEq, Prod.mk.injEq] at hval
  obtain ⟨hqty, hbest, hvol⟩ := hval
  have hbid := hq.bid
  rw [hqty, hbest, hvol] at hbid
  exact absurd hbid (by decide)

theorem run_liveCount_behindBest : ∃ c, (fresh 10 4).run behindBest = some c ∧
    c.liveOrderCount = c.restingCount ∧
      ∀ id side price qty c', c.step (.insertLimitOrder id side price qty) = some (c', false) →
        ¬ c'.inBand (c'.toIdx price.toNat) → BOOTSTRAP_REBASE_LIMIT < c.restingCount :=
  run_liveCount (by decide) (by decide) (by decide) (by decide) behindBest (by decide +kernel)

theorem not_forall_run_liveCount : ¬ ∀ band cap, 0 < band → band < 2 ^ 32 → 0 < cap → cap < 2 ^ 32 →
    ∀ ops, ∃ c, (fresh band cap).run ops = some c ∧ c.liveOrderCount = c.restingCount := by
  intro h
  obtain ⟨c, hrun, hlive⟩ := h 10 4 (by decide) (by decide) (by decide) (by decide) cancelledBid
  have hval : ((fresh 10 4).run cancelledBid).map (fun c => (c.liveOrderCount, c.restingCount)) =
      some (1, 0) := by
    decide +kernel
  rw [hrun, Option.map_some, Option.some.injEq, Prod.mk.injEq] at hval
  rw [hval.1, hval.2] at hlive
  exact absurd hlive (by decide)

end Examples

end Nanomatch
