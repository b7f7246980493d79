import Nanomatch.Proofs.CachedRuns
import Nanomatch.Proofs.LadderVolume

/-!
# Runs and the volumes of the levels

The volume of a level has 32 bits, and nothing keeps the orders of a level from adding up to more.
The volumes are exact after every call of a run just if every order that a call of it leaves fits
its level.
-/

namespace Nanomatch

open Greedy OrderBook Ladder

variable {M : Type} [IdMapOps M] {L : IdMapLaws M} {c : OrderBook M} {a : Ladder} {sd : Side}
  {i : ℕ}

section Transfer

theorem Rep.total_slots (h : Rep L c a) (hs : a.Sep) (sd : Side) (hi : i < a.band) :
    total c.qtyAt (c.slots sd i) = a.sumAt sd (a.base + i) := by
  unfold sumAt
  rw [queueAt_add hi, h.slots_eq hs sd hi]
  exact Greedy.total_congr fun s hsq => h.qtyAt_eq hsq

theorem Rep.volumeExact (h : Rep L c a) (hs : a.Sep) : c.VolumeExact ↔ a.Small := by
  have hsum : ∀ sd i, ((c.orders sd i).map Order.qty).sum = total c.qtyAt (c.slots sd i) :=
    fun sd i => congrArg List.sum List.map_map
  have hvolume : ∀ sd, ∀ i < a.band,
      (c.levelAt sd i).totalVolume = a.sumAt sd (a.base + i) % 2 ^ 32 := fun sd i hi => by
    rw [(h.level sd i hi).volume, ← h.sum_orders hs sd hi, hsum, h.total_slots hs sd hi]
  constructor
  · intro he sd price
    by_cases hin : a.base ≤ price ∧ price < a.base + a.band
    · have hi : price - a.base < a.band := by omega
      have hexact := he.sum sd (price - a.base) (by rw [h.levels]; exact hi)
      rw [hvolume sd _ hi, hsum, h.total_slots hs sd hi, Nat.add_sub_cancel' hin.1] at hexact
      rw [← hexact]
      exact Nat.mod_lt _ (by decide)
    · rw [sumAt_of_nil (if_neg hin)]
      decide
  · intro hsmall
    have hexact : ∀ sd, ∀ i < (c.levels sd).size,
        (c.levelAt sd i).totalVolume = ((c.orders sd i).map Order.qty).sum := fun sd i hi => by
      rw [h.levels] at hi
      rw [hvolume sd i hi, hsum, h.total_slots hs sd hi, Nat.mod_eq_of_lt (hsmall sd _)]
    refine ⟨hexact, fun sd i hi o ho => ?_⟩
    rw [hexact sd i hi]
    exact List.le_sum_of_mem (List.mem_map_of_mem ho)

theorem Rep.fits (h : Rep L c a) (hw : a.Wf) : ∀ op : Op, c.Fits op ↔ a.Fits op
  | .insertLimitOrder _ sd price qty => by
    have hidx : (c.toIdx price.toNat).toNat = price.toNat - a.base := by
      rw [toIdx, h.base, Int.toNat_sub]
    simp only [OrderBook.Fits, Ladder.Fits]
    rw [hidx, h.metMakers_eq hw, h.total_makers, h.freeHead_iff hw, h.inBand_iff]
    refine forall_congr' fun hin => ?_
    obtain ⟨h1, h2⟩ := hin
    rw [h.total_slots hw.toSep sd (by omega), Nat.add_sub_cancel' h1]
  | .cancelOrder _ => Iff.rfl
  | .processMarketOrder _ _ => Iff.rfl
  | .executeOrder _ _ => Iff.rfl
  | .reduceOrderQty _ _ => Iff.rfl

end Transfer

section Runs

/-- From a book whose volumes are exact: all of them stay exact just if every order fits. -/
theorem Rep.volumeExact_run : ∀ (ops : List Op) {c : OrderBook FinMap} {a : Ladder},
    Rep finLaws c a → a.Wf → a.Small → (c.AlongRun (fun c op => c.Fits op) ops ↔
      ∀ done, done <+: ops → ∃ c', c.run done = some c' ∧ c'.VolumeExact)
  | [], c, a, h, hw, hsmall => by
    refine iff_of_true trivial fun done hdone => ?_
    rw [List.prefix_nil.1 hdone]
    exact ⟨c, rfl, (h.volumeExact hw.toSep).2 hsmall⟩
  | op :: ops, c, a, h, hw, hsmall => by
    obtain ⟨c1, hstep, hrep⟩ := h.step hw op trivial
    have hw1 := hw.step op
    have hrun : ∀ done, c.run (op :: done) = c1.run done := fun done => bind_some hstep rfl
    have hfits : c.Fits op ↔ c1.VolumeExact := by
      rw [h.fits hw, hrep.volumeExact hw1.toSep, hw.step_small hsmall]
    have halong : c.AlongRun (fun c op => c.Fits op) (op :: ops) ↔
        c.Fits op ∧ c1.AlongRun (fun c op => c.Fits op) ops := by
      simp only [AlongRun, hstep]
    rw [halong]
    constructor
    · rintro ⟨hop, hops⟩ done hdone
      have hsmall1 := (hw.step_small hsmall op).2 ((h.fits hw op).1 hop)
      rcases List.prefix_cons_iff.1 hdone with rfl | ⟨done, rfl, hdone'⟩
      · exact ⟨c, rfl, (h.volumeExact hw.toSep).2 hsmall⟩
      · rw [hrun]
        exact (Rep.volumeExact_run ops hrep hw1 hsmall1).1 hops done hdone'
    · intro hall
      have hafter : ∀ done, done <+: ops → ∃ c', c1.run done = some c' ∧ c'.VolumeExact :=
        fun done hdone => hrun done ▸ hall (op :: done) (List.cons_prefix_cons.2 ⟨rfl, hdone⟩)
      obtain ⟨c', hc', hexact⟩ := hafter [] List.nil_prefix
      obtain rfl : c1 = c' := Option.some.inj hc'
      have hsmall1 := (hrep.volumeExact hw1.toSep).1 hexact
      exact ⟨hfits.2 hexact, (Rep.volumeExact_run ops hrep hw1 hsmall1).2 hafter⟩

variable {band cap : ℕ} (hband : 0 < band) (hband' : band < 2 ^ 32) (hcap : 0 < cap)
  (hcap' : cap < 2 ^ 32)

include hband hband' hcap hcap'

/-- The volumes of a fresh book are exact after every call of a run just if no call leaves an order
that its level has no room for. -/
theorem run_volumeExact (ops : List Op) :
    (fresh band cap).AlongRun (fun c op => c.Fits op) ops ↔
      ∀ done, done <+: ops → ∃ c, (fresh band cap).run done = some c ∧ c.VolumeExact := by
  refine Rep.volumeExact_run ops (rep_new hcap (L := finLaws) (m := FinMap.init) rfl)
    (new_wf hband hband' hcap') fun sd price => ?_
  rw [sumAt_of_nil (queueAt_new band cap sd price)]
  decide

end Runs

section Examples

/-- Two bids that share a level, an ask that fills the first, and a third bid behind them. -/
def sharedLevel : List Op := [.insertLimitOrder 1 .BUY 6 0x80000000,
  .insertLimitOrder 2 .BUY 6 0x7fffffff, .insertLimitOrder 3 .SELL 6 0x80000001,
  .insertLimitOrder 4 .BUY 6 0x80000001]

/-- Two bids of one level that add up to `2 ^ 32`. -/
def overfull : List Op :=
  [.insertLimitOrder 1 .BUY 6 0x80000000, .insertLimitOrder 2 .BUY 6 0x80000000]

theorem run_volumeExact_sharedLevel : (fresh 10 4).AlongRun (fun c op => c.Fits op) sharedLevel ∧
    ∃ c, (fresh 10 4).run sharedLevel = some c ∧ c.VolumeExact := by
  have hfits : (fresh 10 4).AlongRun (fun c op => c.Fits op) sharedLevel := by decide +kernel
  have hexact :=
    (run_volumeExact (by decide) (by decide) (by decide) (by decide) sharedLevel).1 hfits
  exact ⟨hfits, hexact sharedLevel List.prefix_rfl⟩

theorem not_forall_run_volumeExact : ¬ ∀ band cap, 0 < band → band < 2 ^ 32 → 0 < cap →
    cap < 2 ^ 32 → ∀ ops, ∃ c, (fresh band cap).run ops = some c ∧ c.VolumeExact := by
  intro h
  obtain ⟨c, hrun, hexact⟩ := h 10 4 (by decide) (by decide) (by decide) (by decide) overfull
  have hval : ((fresh 10 4).run overfull).map (fun c => ((c.levels .BUY).size,
      (c.levelAt .BUY 5).totalVolume, ((c.orders .BUY 5).map Order.qty).sum)) =
      some (10, 0, 2 ^ 32) := by
    decide +kernel
  rw [hrun, Option.map_some, Option.some.injEq, Prod.mk.injEq, Prod.mk.injEq] at hval
  obtain ⟨hsize, hvol, hsum⟩ := hval
  have hlevel := hexact.sum .BUY 5 (by rw [hsize]; decide)
  rw [hvol, hsum] at hlevel
  exact absurd hlevel (by decide)

end Examples

end Nanomatch
