import Nanomatch.Proofs.Exact
import Nanomatch.Proofs.View

/-!
# Runs whose moves of the window are safe

Carries `Sound` over to the book: in a run in which every move of the window is safe, the cached
top of book is exact and the book is never crossed. Without the condition both fail, because
`rebase_base` starts its search at an index of the old window.
-/

namespace Nanomatch

open OrderBook Ladder

variable {M : Type} [IdMapOps M] {L : IdMapLaws M} {c : OrderBook M} {a : Ladder} {sd : Side}
  {i : ℕ}

section Transfer

theorem Rep.size (h : Rep L c a) : c.bids.size = a.band := h.levels .BUY

theorem Rep.mem_occupied (h : Rep L c a) (hs : a.Sep) :
    i ∈ c.occupied sd ↔ a.queue sd i ≠ [] := by
  simp only [OrderBook.occupied, Set.mem_ofPred_eq, h.levels]
  constructor
  · rintro ⟨hi, hne⟩
    rwa [h.slots_eq hs sd hi] at hne
  · intro hne
    have hi := hs.lt_band hne
    exact ⟨hi, (h.slots_eq hs sd hi).symm ▸ hne⟩

/-- Where the orders of a book are. -/
theorem Rep.resting_queue (h : Rep L c a) (hs : a.Sep) {o : Order} (ho : o ∈ c.resting sd) :
    ∃ i, a.queue sd i ≠ [] ∧ c.absPrice o = a.base + i := by
  obtain ⟨i, hi, ho⟩ := List.mem_flatMap.1 ho
  rw [List.mem_range, h.levels] at hi
  obtain ⟨s, hsq, he⟩ := h.mem_orders hs hi ho
  have hp := hs.price_eq hsq
  rw [← he] at hp
  exact ⟨i, List.ne_nil_of_mem hsq, by rw [absPrice, h.base]; exact congrArg _ hp⟩

theorem Rep.exists_resting (h : Rep L c a) (hs : a.Sep) (hne : a.queue sd i ≠ []) :
    ∃ o ∈ c.resting sd, c.absPrice o = a.base + i := by
  obtain ⟨s, hsq⟩ := List.exists_mem_of_ne_nil _ hne
  have hi := hs.lt_band hne
  have hp := (congrArg Resting.price (h.data sd i s hsq)).trans (hs.price_eq hsq)
  refine ⟨c.pool.pool.cell s, List.mem_flatMap.2 ⟨i, ?_, ?_⟩, ?_⟩
  · exact List.mem_range.2 ((h.levels sd).symm ▸ hi)
  · exact List.mem_map_of_mem ((h.slots_eq hs sd hi).symm ▸ hsq)
  · rw [absPrice, h.base]
    exact congrArg _ hp

theorem Rep.moves_iff (h : Rep L c a) (price : ℕ) : c.Moves price ↔ a.Moves price := by
  rw [OrderBook.Moves, Ladder.Moves, h.baseSet, h.inBand_iff, h.live]

theorem Rep.safeMove (h : Rep L c a) (hs : a.Sep) {newBase : ℕ} (hsafe : c.SafeMove newBase) :
    a.SafeMove newBase := by
  obtain ⟨hbid, hask⟩ := hsafe
  refine ⟨fun i hi hk => ?_, fun i hi hk => ?_⟩
  · obtain ⟨o, ho, hp⟩ := h.exists_resting hs hi
    have := hbid o ho ⟨hp ▸ hk.1, by rw [hp, h.size]; exact hk.2⟩
    rwa [hp, h.tob] at this
  · obtain ⟨o, ho, hp⟩ := h.exists_resting hs hi
    have := hask o ho ⟨hp ▸ hk.1, by rw [hp, h.size]; exact hk.2⟩
    rwa [hp, h.tob] at this

theorem Rep.safeStep (h : Rep L c a) (hs : a.Sep) : ∀ op : Op, c.SafeStep op → a.SafeStep op
  | .insertLimitOrder _ _ price _, hsafe => fun hm => by
    have := h.safeMove hs (hsafe ((h.moves_iff price.toNat).2 hm))
    rwa [h.size] at this
  | .cancelOrder _, _ => trivial
  | .processMarketOrder _ _, _ => trivial
  | .executeOrder _ _, _ => trivial
  | .reduceOrderQty _ _, _ => trivial

/-- An exact ladder with nothing cached has no orders, and its cached level is otherwise the best. -/
theorem Rep.topExact (h : Rep L c a) (hw : a.Wf) (hs : ∀ sd, a.Exact sd) : c.TopExact := by
  have hempty : ∀ sd, a.tob.best sd = UINT32_MAX ↔ c.occupied sd = ∅ := by
    intro sd
    rw [Set.eq_empty_iff_forall_notMem]
    constructor
    · intro hb i hi
      exact (exact_iff.1 (hs sd) i ((h.mem_occupied hw.toSep).1 hi)).1 hb
    · intro hno
      by_contra hb
      exact hno _ ((h.mem_occupied hw.toSep).2 ((hw.top sd).resolve_left hb))
  refine ⟨fun hb => ?_, h.tob ▸ hempty .BUY, fun hb => ?_, h.tob ▸ hempty .SELL⟩
  · rw [h.tob] at hb ⊢
    refine ⟨(h.mem_occupied hw.toSep).2 ((hw.top .BUY).resolve_left hb), fun i hi => ?_⟩
    have hi' := (h.mem_occupied hw.toSep).1 hi
    exact mem_outward_buy.1 (exact_iff.1 (hs .BUY) i hi').2
  · rw [h.tob] at hb ⊢
    refine ⟨(h.mem_occupied hw.toSep).2 ((hw.top .SELL).resolve_left hb), fun i hi => ?_⟩
    have hi' := (h.mem_occupied hw.toSep).1 hi
    exact (mem_outward_sell.1 (exact_iff.1 (hs .SELL) i hi').2).1

theorem Rep.uncrossed (h : Rep L c a) (hw : a.Wf) (hs : a.Sound) : c.Uncrossed := by
  intro bid hbid ask hask
  obtain ⟨i, hi, hpi⟩ := h.resting_queue hw.toSep hbid
  obtain ⟨j, hj, hpj⟩ := h.resting_queue hw.toSep hask
  have := hs.uncrossed i j hi hj
  omega

end Transfer

section Runs

/-- A run over the finite map with safe moves only ends in a book that represents a sound ladder. -/
theorem Rep.run_sound : ∀ (ops : List Op) {c : OrderBook FinMap} {a : Ladder}, Rep finLaws c a →
    a.Wf → a.Sound → c.AlongRun OrderBook.SafeStep ops →
    ∃ c', c.run ops = some c' ∧ Rep finLaws c' (a.run ops) ∧ (a.run ops).Wf ∧ (a.run ops).Sound
  | [], c, _, h, hw, hs, _ => ⟨c, rfl, h, hw, hs⟩
  | op :: ops, c, a, h, hw, hs, ⟨hsafe, hrest⟩ => by
    obtain ⟨c1, h1, hr1⟩ := h.step hw op trivial
    rw [h1] at hrest
    obtain ⟨c2, h2, hr2⟩ := Rep.run_sound ops hr1 (hw.step op)
      (hs.step hw op (h.safeStep hw.toSep op hsafe)) hrest
    exact ⟨c2, bind_some h1 h2, hr2⟩

variable {band cap : ℕ} (hband : 0 < band) (hband' : band < 2 ^ 32) (hcap : 0 < cap)
  (hcap' : cap < 2 ^ 32)

include hband hband' hcap hcap'

/-- A book whose window moves safely is never crossed. -/
theorem run_uncrossed (ops : List Op) (hsafe : (fresh band cap).AlongRun OrderBook.SafeStep ops) :
    ∃ c, (fresh band cap).run ops = some c ∧ c.Uncrossed := by
  obtain ⟨c, hrun, hrep, hw, hs⟩ := Rep.run_sound ops
    (rep_new hcap (L := finLaws) (m := FinMap.init) rfl) (new_wf hband hband' hcap')
    (new_sound band cap) hsafe
  exact ⟨c, hrun, hrep.uncrossed hw hs⟩

/-- The cached best levels of a book whose window moves safely are the best ones. -/
theorem run_topExact (ops : List Op) (hsafe : (fresh band cap).AlongRun OrderBook.SafeStep ops) :
    ∃ c, (fresh band cap).run ops = some c ∧ c.TopExact := by
  obtain ⟨c, hrun, hrep, hw, hs⟩ := Rep.run_sound ops
    (rep_new hcap (L := finLaws) (m := FinMap.init) rfl) (new_wf hband hband' hcap')
    (new_sound band cap) hsafe
  exact ⟨c, hrun, hrep.topExact hw hs.exact⟩

end Runs

section Examples

/-- The window moves up from under the bid, which stays the best one. -/
def keptBid : List Op := [.insertLimitOrder 1 .BUY 6 5, .insertLimitOrder 2 .BUY 11 7,
  .insertLimitOrder 3 .SELL 6 8]

/-- The window moves up and takes the ask with it, to an index below the one it was cached at. -/
def lostAsk : List Op := [.insertLimitOrder 1 .SELL 6 5, .insertLimitOrder 2 .BUY 11 7]

theorem run_uncrossed_keptBid : ∃ c, (fresh 10 4).run keptBid = some c ∧ c.Uncrossed :=
  run_uncrossed (by decide) (by decide) (by decide) (by decide) keptBid (by decide +kernel)

theorem run_topExact_keptBid : ∃ c, (fresh 10 4).run keptBid = some c ∧ c.TopExact :=
  run_topExact (by decide) (by decide) (by decide) (by decide) keptBid (by decide +kernel)

theorem not_forall_run_uncrossed : ¬ ∀ band cap, 0 < band → band < 2 ^ 32 → 0 < cap → cap < 2 ^ 32 →
    ∀ ops, ∃ c, (fresh band cap).run ops = some c ∧ c.Uncrossed := by
  intro h
  obtain ⟨c, hrun, hun⟩ := h 10 4 (by decide) (by decide) (by decide) (by decide) lostAsk
  have hval : ((fresh 10 4).run lostAsk).map (fun c => decide c.Uncrossed) = some false := by
    decide +kernel
  rw [hrun, Option.map_some, Option.some.injEq, decide_eq_false_iff_not] at hval
  exact hval hun

theorem not_forall_run_topExact : ¬ ∀ band cap, 0 < band → band < 2 ^ 32 → 0 < cap → cap < 2 ^ 32 →
    ∀ ops, ∃ c, (fresh band cap).run ops = some c ∧ c.TopExact := by
  intro h
  obtain ⟨c, hrun, htop⟩ := h 10 4 (by decide) (by decide) (by decide) (by decide) lostAsk
  have hval : ((fresh 10 4).run lostAsk).map (fun c => (c.tob.bestAsk, c.asks.size, c.slots .SELL 0))
      = some (UINT32_MAX, 10, [0]) := by
    decide +kernel
  rw [hrun, Option.map_some, Option.some.injEq, Prod.mk.injEq, Prod.mk.injEq] at hval
  obtain ⟨hbest, hsize, hslots⟩ := hval
  have hmem : 0 ∈ c.occupied .SELL := ⟨hsize.symm ▸ by decide, by simp [hslots]⟩
  rw [htop.noAsk.1 hbest] at hmem
  exact hmem

end Examples

end Nanomatch
