import Nanomatch.Makers
import Nanomatch.Proofs.ExactRuns
import Nanomatch.Proofs.LadderGreedy

/-!
# The makers of a book and of its ladder

A taker's limit cuts off the levels that are furthest from the other side, so the levels it goes
through are the first ones from the cached best level. The makers that a book shows are those of the
ladder it represents.
-/

namespace Nanomatch

open Greedy OrderBook Ladder

variable {M : Type} [IdMapOps M] {L : IdMapLaws M} {c : OrderBook M} {a : Ladder} {sd : Side}
  {i s start limit : ℕ}

section Lists

/-- What satisfies `p` comes first in the list. -/
theorem takeWhile_eq_filter {α : Type} {p : α → Bool} : ∀ {l : List α},
    l.Pairwise (fun x y => p y = true → p x = true) → l.takeWhile p = l.filter p
  | [], _ => rfl
  | x :: l, h => by
    obtain ⟨hx, hl⟩ := List.pairwise_cons.1 h
    by_cases hp : p x = true
    · rw [List.takeWhile_cons_of_pos hp, List.filter_cons_of_pos hp, takeWhile_eq_filter hl]
    · rw [List.takeWhile_cons_of_neg hp, List.filter_cons_of_neg hp]
      exact (List.filter_eq_nil_iff.2 fun y hy hpy => hp (hx y hy hpy)).symm

/-- Levels without orders add nothing. -/
theorem flatMap_filter_ne_nil {α β : Type} [DecidableEq β] (f : α → List β) : ∀ l : List α,
    (l.filter (f · ≠ [])).flatMap f = l.flatMap f
  | [] => rfl
  | x :: l => by
    by_cases hx : f x = []
    · simp [hx, ← flatMap_filter_ne_nil f l]
    · simp [hx, ← flatMap_filter_ne_nil f l]

end Lists

section Makers

theorem Ladder.outward_crosses (a : Ladder) (start limit : ℕ) : ∀ sd : Side,
    (a.outward sd start).Pairwise fun i j => sd.Crosses limit j → sd.Crosses limit i
  | .BUY => by
    simp only [outward, List.pairwise_reverse]
    exact List.pairwise_lt_range.imp fun {i j} hij hi => hi.trans hij.le
  | .SELL => by
    simp only [outward]
    have hlt : (List.range' start (a.band - start)).Pairwise (· < ·) := List.pairwise_lt_range'
    exact hlt.imp fun {i j} hij hj => hij.le.trans hj

/-- The makers of a ladder, level by level. -/
theorem Ladder.makers_eq (a : Ladder) (sd : Side) (limit : ℕ) : a.makers sd limit =
    if a.tob.best sd = UINT32_MAX then [] else
      ((a.outward sd (a.tob.best sd)).filter (sd.Crosses limit ·)).flatMap (a.queue sd) := by
  unfold Ladder.makers candidates
  split_ifs with hb
  · rfl
  · have hsub : (a.occupied sd (a.tob.best sd)).Sublist (a.outward sd (a.tob.best sd)) :=
      List.filter_sublist
    have hpair : (a.occupied sd (a.tob.best sd)).Pairwise fun i j =>
        decide (sd.Crosses limit j) = true → decide (sd.Crosses limit i) = true := by
      refine (a.outward_crosses _ limit sd).sublist hsub |>.imp fun {i j} h hj => ?_
      exact decide_eq_true (h (of_decide_eq_true hj))
    rw [takeWhile_eq_filter hpair, Ladder.occupied, List.filter_filter]
    simp only [Bool.and_comm (decide (sd.Crosses limit _))]
    rw [← List.filter_filter, flatMap_filter_ne_nil]

theorem Rep.levelsFrom_eq (h : Rep L c a) (sd : Side) (start : ℕ) :
    c.levelsFrom sd start = a.outward sd start := by
  have hsize : c.asks.size = a.band := h.levels .SELL
  cases sd
  · rfl
  · simp only [levelsFrom, outward, hsize]

theorem Rep.makersFrom_eq (h : Rep L c a) (hs : a.Sep) (hstart : start < a.band) :
    c.makersFrom sd start limit =
      ((a.outward sd start).filter (sd.Crosses limit ·)).flatMap (a.queue sd) := by
  unfold makersFrom
  rw [h.levelsFrom_eq]
  refine congrArg List.flatten (List.map_congr_left fun i hi => h.slots_eq hs sd ?_)
  have hmem := List.mem_of_mem_filter hi
  cases sd
  · exact (mem_outward_buy.1 hmem).trans_lt hstart
  · exact (mem_outward_sell.1 hmem).2

/-- A taker meets the makers of the ladder. -/
theorem Rep.metMakers_eq (h : Rep L c a) (hw : a.Wf) (sd : Side) (limit : ℕ) :
    c.metMakers sd limit = a.makers sd limit := by
  unfold metMakers
  rw [a.makers_eq, h.tob]
  split_ifs with hb
  · rfl
  · exact h.makersFrom_eq hw.toSep (hw.toSep.lt_band ((hw.top sd).resolve_left hb))

theorem Ladder.mem_makers_queue (hs : s ∈ a.makers sd limit) : ∃ i, s ∈ a.queue sd i := by
  obtain ⟨i, -, hi⟩ := List.mem_flatMap.1 hs
  exact ⟨i, hi⟩

theorem Rep.qtyAt_eq (h : Rep L c a) (hs : s ∈ a.queue sd i) : c.qtyAt s = a.qtyAt s :=
  congrArg Resting.qty (h.data sd i s hs)

theorem Rep.total_makers (h : Rep L c a) (sd : Side) (limit : ℕ) :
    total c.qtyAt (a.makers sd limit) = total a.qtyAt (a.makers sd limit) :=
  total_congr fun s hs => by
    obtain ⟨i, hi⟩ := mem_makers_queue hs
    exact h.qtyAt_eq hi

end Makers

end Nanomatch
