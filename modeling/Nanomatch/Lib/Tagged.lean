import Mathlib.Algebra.BigOperators.Group.List.Basic
import Mathlib.Algebra.BigOperators.Ring.Finset
import Mathlib.Algebra.Order.BigOperators.Group.Finset
import Mathlib.Data.Nat.Notation

/-!
# A list of tagged items

Several lists that are written into one, each item with the tag of its list. The list of a tag is read
off by a filter, and what is said of the lists of all tags adds up to what is said of the whole list.
-/

namespace Tagged

variable {ι α β : Type*} [DecidableEq ι] {i j : ι} {l l' : List (ι × α)}

section Select

/-- The items with the tag `i`, in order. -/
def ofTag (i : ι) (l : List (ι × α)) : List α := (l.filter (·.1 = i)).map Prod.snd

theorem ofTag_append (i : ι) (l l' : List (ι × α)) :
    ofTag i (l ++ l') = ofTag i l ++ ofTag i l' := by
  rw [ofTag, List.filter_append, List.map_append]
  rfl

theorem ofTag_same (i : ι) (xs : List α) : ofTag i (xs.map (i, ·)) = xs := by
  have hall : ∀ x ∈ xs.map (Prod.mk i), decide (x.1 = i) = true := by
    intro x hx
    obtain ⟨y, -, rfl⟩ := List.mem_map.1 hx
    exact decide_eq_true rfl
  rw [ofTag, List.filter_eq_self.2 hall, List.map_map]
  exact List.map_id xs

theorem ofTag_other (h : i ≠ j) (xs : List α) : ofTag i (xs.map (j, ·)) = [] := by
  have hnone : ∀ x ∈ xs.map (Prod.mk j), ¬ decide (x.1 = i) = true := by
    intro x hx
    obtain ⟨y, -, rfl⟩ := List.mem_map.1 hx
    rw [decide_eq_true_iff]
    exact h.symm
  rw [ofTag, List.filter_eq_nil_iff.2 hnone]
  rfl

theorem ofTag_cons (i : ι) (x : ι × α) (l : List (ι × α)) :
    ofTag i (x :: l) = if x.1 = i then x.2 :: ofTag i l else ofTag i l := by
  unfold ofTag
  split_ifs with h <;> simp [h]

end Select

section Total

/-- The weights of the items of each tag add up to those of all items. -/
theorem sum_ofTag (w : α → ℕ) {s : Finset ι} : ∀ {l : List (ι × α)}, (∀ x ∈ l, x.1 ∈ s) →
    ∑ i ∈ s, ((ofTag i l).map w).sum = (l.map (w ·.2)).sum
  | [], _ => Finset.sum_const_zero
  | x :: l, h => by
    have hone : ∀ i ∈ s, ((ofTag i (x :: l)).map w).sum =
        (if x.1 = i then w x.2 else 0) + ((ofTag i l).map w).sum := by
      intro i _
      rw [ofTag_cons]
      split_ifs
      · rw [List.map_cons, List.sum_cons]
      · rw [Nat.zero_add]
    rw [Finset.sum_congr rfl hone, Finset.sum_add_distrib, Finset.sum_ite_eq,
      if_pos (h x List.mem_cons_self), sum_ofTag w fun y hy => h y (List.mem_cons_of_mem x hy),
      List.map_cons, List.sum_cons]

/-- A list is no longer than another one weighs, if this is so for the items of each tag. -/
theorem length_le_of_ofTag {m : List (ι × β)} (w : β → ℕ)
    (h : ∀ i, (ofTag i l).length ≤ ((ofTag i m).map w).sum) : l.length ≤ (m.map (w ·.2)).sum := by
  set s : Finset ι := (l.map Prod.fst).toFinset ∪ (m.map Prod.fst).toFinset
  have hl : ∀ x ∈ l, x.1 ∈ s := fun x hx =>
    Finset.mem_union_left _ (List.mem_toFinset.2 (List.mem_map_of_mem hx))
  have hm : ∀ x ∈ m, x.1 ∈ s := fun x hx =>
    Finset.mem_union_right _ (List.mem_toFinset.2 (List.mem_map_of_mem hx))
  calc l.length = (l.map fun _ => 1).sum := by simp
    _ = ∑ i ∈ s, ((ofTag i l).map fun _ => 1).sum := (sum_ofTag (fun _ => 1) hl).symm
    _ ≤ ∑ i ∈ s, ((ofTag i m).map w).sum := Finset.sum_le_sum fun i _ => by simpa using h i
    _ = (m.map (w ·.2)).sum := sum_ofTag w hm

end Total

end Tagged
