import Mathlib.Algebra.BigOperators.Group.Finset.Basic
import Nanomatch.Proofs.LadderMatch

/-!
# Counting the slots of the ladder

A slot rests in one queue or is free, so the resting orders and the free slots make up the pool.
-/

namespace Nanomatch

namespace Ladder

variable {a : Ladder} {sd : Side} {s : ℕ}

/-- The slots of the resting orders of side `sd`. -/
def slotSet (a : Ladder) (sd : Side) : Finset ℕ :=
  (Finset.range a.band).biUnion fun i => (a.queue sd i).toFinset

/-- The number of resting orders. -/
def held (a : Ladder) : ℕ :=
  (∑ i ∈ Finset.range a.band, (a.queue .BUY i).length) +
    ∑ i ∈ Finset.range a.band, (a.queue .SELL i).length

theorem Sep.mem_slotSet (h : a.Sep) : s ∈ a.slotSet sd ↔ ∃ i, s ∈ a.queue sd i := by
  simp only [slotSet, Finset.mem_biUnion, Finset.mem_range, List.mem_toFinset]
  exact ⟨fun ⟨i, _, hs⟩ => ⟨i, hs⟩, fun ⟨i, hs⟩ => ⟨i, h.level_lt hs, hs⟩⟩

theorem Sep.card_slotSet (h : a.Sep) (sd : Side) :
    (a.slotSet sd).card = ∑ i ∈ Finset.range a.band, (a.queue sd i).length := by
  rw [slotSet, Finset.card_biUnion]
  · exact Finset.sum_congr rfl fun i _ => List.toFinset_card_of_nodup (h.nodup sd i)
  · intro i _ j _ hij
    refine Finset.disjoint_left.2 fun s hi hj => ?_
    exact hij (h.unique (List.mem_toFinset.1 hj) (List.mem_toFinset.1 hi)).2

/-- The resting orders and the free slots make up the pool. -/
theorem Core.held_add_free (h : a.Core) : a.held + a.free.length = a.cap := by
  have hsides : Disjoint (a.slotSet .BUY) (a.slotSet .SELL) := by
    rw [Finset.disjoint_left]
    intro s hb hs
    obtain ⟨i, hi⟩ := h.mem_slotSet.1 hb
    obtain ⟨j, hj⟩ := h.mem_slotSet.1 hs
    exact Side.noConfusion (h.unique hi hj).1
  have hfree : Disjoint (a.slotSet .BUY ∪ a.slotSet .SELL) a.free.toFinset := by
    rw [Finset.disjoint_left]
    intro s hs hf
    rcases Finset.mem_union.1 hs with hs | hs <;> obtain ⟨i, hi⟩ := h.mem_slotSet.1 hs <;>
      exact h.not_free hi (List.mem_toFinset.1 hf)
  have hall : a.slotSet .BUY ∪ a.slotSet .SELL ∪ a.free.toFinset = Finset.range a.cap := by
    ext s
    simp only [Finset.mem_union, List.mem_toFinset, Finset.mem_range, h.mem_slotSet]
    constructor
    · rintro ((⟨i, hi⟩ | ⟨i, hi⟩) | hf)
      · exact h.slot_lt hi
      · exact h.slot_lt hi
      · exact h.free_lt s hf
    · intro hs
      rcases h.cover s hs with hf | hr
      · exact .inr hf
      · have hsq : s ∈ a.queue (a.info s).side (a.info s).price := hr
        left
        rcases hsd : (a.info s).side
        · exact .inl ⟨_, hsd ▸ hsq⟩
        · exact .inr ⟨_, hsd ▸ hsq⟩
  calc a.held + a.free.length
      = (a.slotSet .BUY).card + (a.slotSet .SELL).card + a.free.toFinset.card := by
        rw [held, h.card_slotSet, h.card_slotSet, List.toFinset_card_of_nodup h.free_nodup]
    _ = (a.slotSet .BUY ∪ a.slotSet .SELL ∪ a.free.toFinset).card := by
        rw [Finset.card_union_of_disjoint hfree, Finset.card_union_of_disjoint hsides]
    _ = a.cap := by rw [hall, Finset.card_range]

end Ladder

end Nanomatch
