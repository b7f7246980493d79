import Mathlib.Algebra.BigOperators.Group.Finset.Basic
import Mathlib.Algebra.BigOperators.Group.Finset.Piecewise
import Nanomatch.StlOrderBook

/-!
# Levels of the plain book

A level of the plain book after a change, its best level, and its size as a sum over the prices of
a window.
-/

namespace Nanomatch

namespace StlOrderBook

variable {b : StlOrderBook} {sd sd' : Side} {p q : ℕ} {l : List ListNode}

section Levels

theorem levels_setLevels (m : PriceMap) : (b.setLevels m sd).levels sd' =
    if sd' = sd then m else b.levels sd' := by
  cases sd <;> cases sd' <;> rfl

theorem level_setLevel : (b.setLevel sd p l).level sd' q =
    if sd' = sd ∧ q = p then l else b.level sd' q := by
  rw [setLevel, level, levels_setLevels]
  by_cases hsd : sd' = sd
  · subst hsd
    rw [if_pos rfl]
    split_ifs with hl hq hq
    · obtain ⟨-, rfl⟩ := hq
      rw [Std.TreeMap.getD_erase_self, hl]
    · have hne : compare p q ≠ .eq := fun he => hq ⟨rfl, (Nat.compare_eq_eq.1 he).symm⟩
      rw [Std.TreeMap.getD_erase, if_neg hne, level]
    · obtain ⟨-, rfl⟩ := hq
      rw [Std.TreeMap.getD_insert_self]
    · have hne : compare p q ≠ .eq := fun he => hq ⟨rfl, (Nat.compare_eq_eq.1 he).symm⟩
      rw [Std.TreeMap.getD_insert, if_neg hne, level]
  · rw [if_neg hsd, if_neg fun h => hsd h.1, level]

theorem mem_setLevel : q ∈ (b.setLevel sd p l).levels sd' ↔
    if sd' = sd ∧ q = p then l ≠ [] else q ∈ b.levels sd' := by
  rw [setLevel, levels_setLevels]
  by_cases hsd : sd' = sd
  · subst hsd
    rw [if_pos rfl]
    rcases eq_or_ne p q with rfl | hq
    · by_cases hl : l = [] <;> simp [hl]
    · by_cases hl : l = [] <;> simp [hl, hq, hq.symm]
  · simp [hsd]

theorem level_eq_nil (h : q ∉ b.levels sd) : b.level sd q = [] :=
  Std.TreeMap.getD_eq_fallback h

@[simp] theorem level_eraseId (id : OrderId) : (b.eraseId id).level = b.level := by
  funext sd p
  cases sd <;> rfl

@[simp] theorem levels_eraseId (id : OrderId) : (b.eraseId id).levels = b.levels := by
  funext sd
  cases sd <;> rfl

@[simp] theorem idIndex_setLevel : (b.setLevel sd p l).idIndex = b.idIndex := by
  cases sd <;> rfl

@[simp] theorem idIndex_eraseId (id : OrderId) :
    (b.eraseId id).idIndex = Function.update b.idIndex id none := rfl

@[simp] theorem nextIt_setLevel : (b.setLevel sd p l).nextIt = b.nextIt := by
  cases sd <;> rfl

section PushBack

variable {id : OrderId} {qty : ℕ}

theorem level_pushBack : (b.pushBack id sd p qty).level sd' q =
    if sd' = sd ∧ q = p then b.level sd p ++ [{ id, qty, it := b.nextIt }] else b.level sd' q := by
  have he : (b.pushBack id sd p qty).level sd' q =
      (b.setLevel sd p (b.level sd p ++ [{ id, qty, it := b.nextIt }])).level sd' q := by
    cases sd' <;> rfl
  rw [he, level_setLevel]

theorem mem_pushBack (h : q ∈ (b.pushBack id sd p qty).levels sd') :
    (sd' = sd ∧ q = p) ∨ q ∈ b.levels sd' := by
  have he : (b.pushBack id sd p qty).levels sd' =
      (b.setLevel sd p (b.level sd p ++ [{ id, qty, it := b.nextIt }])).levels sd' := by
    cases sd' <;> rfl
  rw [he, mem_setLevel] at h
  split_ifs at h with hc
  · exact .inl hc
  · exact .inr h

theorem idIndex_pushBack : (b.pushBack id sd p qty).idIndex =
    Function.update b.idIndex id (some ⟨sd, p, b.nextIt⟩) := by
  cases sd <;> rfl

end PushBack

/-- No level in the maps is empty. -/
def Tidy (b : StlOrderBook) : Prop := ∀ sd p, p ∈ b.levels sd → b.level sd p ≠ []

theorem Tidy.mem_iff (h : b.Tidy) : q ∈ b.levels sd ↔ b.level sd q ≠ [] :=
  ⟨h sd q, fun hne => by_contra fun hq => hne (level_eq_nil hq)⟩

theorem Tidy.setLevel (h : b.Tidy) (sd : Side) (p : ℕ) (l : List ListNode) :
    (b.setLevel sd p l).Tidy := by
  intro sd' q hq
  rw [mem_setLevel] at hq
  rw [level_setLevel]
  split_ifs at hq ⊢
  · exact hq
  · exact h sd' q hq

end Levels

section Best

theorem best_sell : b.best .SELL = some p ↔ p ∈ b.asks ∧ ∀ q ∈ b.asks, p ≤ q := by
  rw [best, ← Std.TreeMap.minKey?_eq_head?_keys, Std.TreeMap.minKey?_eq_some_iff_mem_and_forall]
  simp only [Nat.isLE_compare]

theorem best_buy : b.best .BUY = some p ↔ p ∈ b.bids ∧ ∀ q ∈ b.bids, q ≤ p := by
  rw [best, ← Std.TreeMap.maxKey?_eq_getLast?_keys, Std.TreeMap.maxKey?_eq_some_iff_mem_and_forall]
  simp only [Nat.isLE_compare]

theorem best_eq_none (h : ∀ p, p ∉ b.levels sd) : b.best sd = none := by
  rcases hb : b.best sd with _ | p
  · rfl
  · cases sd
    · exact absurd (best_buy.1 hb).1 (h p)
    · exact absurd (best_sell.1 hb).1 (h p)

end Best

section Size

variable {base band : ℕ}

/-- The orders of a map whose prices lie in a window, counted level by level. -/
theorem sum_toList {m : PriceMap} (h : ∀ p ∈ m, base ≤ p ∧ p < base + band) :
    (m.toList.map (·.2.length)).sum = ∑ i ∈ Finset.range band, (m.getD (base + i) []).length := by
  have hval : ∀ e ∈ m.toList, e.2.length = (m.getD e.1 []).length := by
    rintro ⟨k, v⟩ he
    rw [Std.TreeMap.mem_toList_iff_getElem?_eq_some] at he
    rw [Std.TreeMap.getD_eq_getD_getElem?, he, Option.getD_some]
  have hnd : m.keys.Nodup :=
    (Std.TreeMap.distinct_keys (t := m)).imp fun hab he => hab (Nat.compare_eq_eq.2 he)
  calc (m.toList.map (·.2.length)).sum
      = (m.toList.map fun e => (m.getD e.1 []).length).sum := by rw [List.map_congr_left hval]
    _ = (m.keys.map fun k => (m.getD k []).length).sum := by
        rw [← Std.TreeMap.map_fst_toList_eq_keys, List.map_map]
        rfl
    _ = ∑ k ∈ m.keys.toFinset, (m.getD k []).length := (List.sum_toFinset _ hnd).symm
    _ = ∑ k ∈ (Finset.range band).image (base + ·), (m.getD k []).length := by
        refine Finset.sum_subset (fun k hk => ?_) fun k _ hk => ?_
        · obtain ⟨h1, h2⟩ := h k (Std.TreeMap.mem_keys.1 (List.mem_toFinset.1 hk))
          exact Finset.mem_image.2 ⟨k - base, Finset.mem_range.2 (by omega), by omega⟩
        · have hk' : k ∉ m := fun hm => hk (List.mem_toFinset.2 (Std.TreeMap.mem_keys.2 hm))
          rw [Std.TreeMap.getD_eq_fallback hk', List.length_nil]
    _ = ∑ i ∈ Finset.range band, (m.getD (base + i) []).length :=
        Finset.sum_image fun i _ j _ hij => by simpa using hij

theorem size_eq (h : ∀ sd, ∀ p ∈ b.levels sd, base ≤ p ∧ p < base + band) :
    b.size = (∑ i ∈ Finset.range band, (b.level .BUY (base + i)).length) +
      ∑ i ∈ Finset.range band, (b.level .SELL (base + i)).length := by
  have hbids := sum_toList (m := b.bids) (h .BUY)
  have hasks := sum_toList (m := b.asks) (h .SELL)
  rw [size, hbids, hasks]
  rfl

end Size

end StlOrderBook

end Nanomatch
