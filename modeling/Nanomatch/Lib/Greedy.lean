import Mathlib.Algebra.BigOperators.Group.List.Basic
import Mathlib.Algebra.Order.BigOperators.Group.List
import Mathlib.Algebra.Order.Ring.Nat
import Mathlib.Data.List.Infix
import Mathlib.Data.Nat.Notation

/-!
# Taking a quantity from a list, front first

A list of items, each with a weight, gives up a wanted quantity from its front: some items are taken
whole, and at most one after them is cut. Together they are the shortest prefix whose weight
reaches the quantity, or the whole list if none does.
-/

namespace Greedy

variable {α : Type*} {w w' : α → ℕ} {want : ℕ} {x : α} {l m : List α}

section Taking

variable (w)

def total (l : List α) : ℕ := (l.map w).sum

/-- The items that are taken whole. -/
def filled : ℕ → List α → List α
  | _, [] => []
  | want, x :: l => if w x ≤ want then x :: filled (want - w x) l else []

/-- The item that is cut, if any is. -/
def cut : ℕ → List α → Option α
  | _, [] => none
  | want, x :: l => if w x ≤ want then cut (want - w x) l else if want = 0 then none else some x

/-- What the items taken whole leave to be taken from the one that is cut. -/
def owed (want : ℕ) (l : List α) : ℕ := want - total w (filled w want l)

/-- The items that something is taken from. -/
def taken (want : ℕ) (l : List α) : List α := filled w want l ++ (cut w want l).toList

end Taking

@[simp] theorem total_nil : total w [] = 0 := rfl

@[simp] theorem total_cons : total w (x :: l) = w x + total w l := by simp [total]

@[simp] theorem total_append : total w (l ++ m) = total w l + total w m := by simp [total]

theorem total_congr (h : ∀ x ∈ l, w' x = w x) : total w' l = total w l :=
  congrArg List.sum (List.map_congr_left h)

section Whole

theorem filled_cons_of_le (h : w x ≤ want) :
    filled w want (x :: l) = x :: filled w (want - w x) l := if_pos h

theorem cut_cons_of_le (h : w x ≤ want) : cut w want (x :: l) = cut w (want - w x) l := if_pos h

theorem filled_cons_of_lt (h : want < w x) : filled w want (x :: l) = [] :=
  if_neg (Nat.not_le_of_lt h)

theorem cut_cons_of_lt (h : want < w x) (h0 : want ≠ 0) : cut w want (x :: l) = some x := by
  unfold cut
  rw [if_neg (Nat.not_le_of_lt h), if_neg h0]

/-- Items of positive weight give nothing up to a taker that wants nothing. -/
theorem filled_zero (h : ∀ x ∈ l, 0 < w x) : filled w 0 l = [] := by
  rcases l with _ | ⟨x, l⟩
  · rfl
  · exact filled_cons_of_lt (h x List.mem_cons_self)

theorem cut_zero (h : ∀ x ∈ l, 0 < w x) : cut w 0 l = none := by
  rcases l with _ | ⟨x, l⟩
  · rfl
  · unfold cut
    rw [if_neg (Nat.not_le_of_lt (h x List.mem_cons_self)), if_pos rfl]

theorem filled_congr : ∀ {l : List α} {want : ℕ}, (∀ x ∈ l, w' x = w x) →
    filled w' want l = filled w want l
  | [], _, _ => rfl
  | x :: l, want, h => by
    unfold filled
    rw [h x List.mem_cons_self, filled_congr fun y hy => h y (List.mem_cons_of_mem x hy)]

theorem cut_congr : ∀ {l : List α} {want : ℕ}, (∀ x ∈ l, w' x = w x) →
    cut w' want l = cut w want l
  | [], _, _ => rfl
  | x :: l, want, h => by
    unfold cut
    rw [h x List.mem_cons_self, cut_congr fun y hy => h y (List.mem_cons_of_mem x hy)]

section Map

variable {β : Type*} (g : β → α)

theorem total_map (l : List β) : total w (l.map g) = total (w ∘ g) l := by
  unfold total
  rw [List.map_map]

theorem filled_map : ∀ (want : ℕ) (l : List β),
    filled w want (l.map g) = (filled (w ∘ g) want l).map g
  | _, [] => rfl
  | want, x :: l => by
    rw [List.map_cons]
    unfold filled
    rw [Function.comp_apply, filled_map (want - w (g x)) l]
    split_ifs <;> rfl

theorem cut_map : ∀ (want : ℕ) (l : List β), cut w want (l.map g) = (cut (w ∘ g) want l).map g
  | _, [] => rfl
  | want, x :: l => by
    rw [List.map_cons]
    unfold cut
    rw [Function.comp_apply, cut_map (want - w (g x)) l]
    split_ifs <;> rfl

theorem owed_map (want : ℕ) (l : List β) : owed w want (l.map g) = owed (w ∘ g) want l := by
  unfold owed
  rw [filled_map, total_map]

end Map

/-- Items go, and others get lighter. -/
theorem total_le_of_sublist (h : l.Sublist m) (hw : ∀ x ∈ l, w' x ≤ w x) : total w' l ≤ total w m :=
  (List.sum_le_sum hw).trans ((h.map w).sum_le_sum fun _ _ => Nat.zero_le _)

/-- A taker that wants at least the whole list cuts nothing. -/
theorem taken_all : ∀ {l : List α} {want : ℕ}, total w l ≤ want →
    filled w want l = l ∧ cut w want l = none
  | [], _, _ => ⟨rfl, rfl⟩
  | x :: l, want, h => by
    rw [total_cons] at h
    obtain ⟨h1, h2⟩ : filled w (want - w x) l = l ∧ cut w (want - w x) l = none :=
      taken_all (by omega)
    rw [filled_cons_of_le (by omega), cut_cons_of_le (by omega), h1, h2]
    exact ⟨rfl, rfl⟩

/-- A taker goes on to a second list when the first one is used up. -/
theorem taken_append : ∀ {l : List α} {want : ℕ}, total w l ≤ want →
    filled w want (l ++ m) = l ++ filled w (want - total w l) m ∧
      cut w want (l ++ m) = cut w (want - total w l) m
  | [], _, _ => ⟨rfl, rfl⟩
  | x :: l, want, h => by
    rw [total_cons] at h ⊢
    have hl : total w l ≤ want - w x := by omega
    obtain ⟨h1, h2⟩ := taken_append hl
    rw [List.cons_append, filled_cons_of_le (by omega), cut_cons_of_le (by omega), h1, h2,
      Nat.sub_sub]
    exact ⟨rfl, rfl⟩

/-- A taker that the first list satisfies does not get to the second one. -/
theorem taken_append_of_lt : ∀ {l : List α} {want : ℕ}, want < total w l →
    filled w want (l ++ m) = filled w want l ∧ cut w want (l ++ m) = cut w want l
  | [], _, h => absurd h (Nat.not_lt_zero _)
  | x :: l, want, h => by
    rw [total_cons] at h
    rw [List.cons_append]
    by_cases hx : w x ≤ want
    · have hl : want - w x < total w l := by omega
      obtain ⟨h1, h2⟩ := taken_append_of_lt hl
      rw [filled_cons_of_le hx, filled_cons_of_le hx, cut_cons_of_le hx, cut_cons_of_le hx, h1, h2]
      exact ⟨rfl, rfl⟩
    · unfold filled cut
      rw [if_neg hx, if_neg hx, if_neg hx, if_neg hx]
      exact ⟨rfl, rfl⟩

end Whole

section Prefix

theorem total_filled_le : ∀ {l : List α} {want : ℕ}, total w (filled w want l) ≤ want
  | [], _ => Nat.zero_le _
  | x :: l, want => by
    by_cases hx : w x ≤ want
    · have : total w (filled w (want - w x) l) ≤ want - w x := total_filled_le
      rw [filled_cons_of_le hx, total_cons]
      omega
    · rw [filled_cons_of_lt (Nat.lt_of_not_le hx)]
      exact Nat.zero_le _

theorem taken_isPrefix : ∀ {l : List α} {want : ℕ}, taken w want l <+: l
  | [], _ => List.prefix_rfl
  | x :: l, want => by
    unfold taken
    by_cases hx : w x ≤ want
    · rw [filled_cons_of_le hx, cut_cons_of_le hx, List.cons_append]
      exact List.prefix_cons_inj x |>.2 taken_isPrefix
    · rw [filled_cons_of_lt (Nat.lt_of_not_le hx)]
      by_cases h0 : want = 0
      · unfold cut
        rw [if_neg hx, if_pos h0]
        exact List.nil_prefix
      · rw [cut_cons_of_lt (Nat.lt_of_not_le hx) h0]
        exact ⟨l, rfl⟩

/-- The item that is cut gives something up, but not all of its weight. -/
theorem owed_of_cut : ∀ {l : List α} {want : ℕ}, cut w want l = some x →
    0 < owed w want l ∧ owed w want l < w x
  | [], _, h => by simp [cut] at h
  | y :: l, want, h => by
    unfold owed
    by_cases hy : w y ≤ want
    · rw [cut_cons_of_le hy] at h
      have := owed_of_cut h
      unfold owed at this
      rw [filled_cons_of_le hy, total_cons]
      omega
    · unfold cut at h
      rw [if_neg hy] at h
      split_ifs at h with h0
      obtain rfl := Option.some.inj h
      rw [filled_cons_of_lt (Nat.lt_of_not_le hy), total_nil]
      omega

/-- The items that something is taken from reach the wanted quantity, or are all there are. -/
theorem taken_reach : ∀ {l : List α} {want : ℕ},
    want ≤ total w (taken w want l) ∨ taken w want l = l
  | [], _ => .inr rfl
  | x :: l, want => by
    unfold taken
    by_cases hx : w x ≤ want
    · rw [filled_cons_of_le hx, cut_cons_of_le hx, List.cons_append, total_cons]
      have ih : want - w x ≤ total w (taken w (want - w x) l) ∨ taken w (want - w x) l = l :=
        taken_reach
      unfold taken at ih
      rcases ih with h | h
      · exact .inl (by omega)
      · exact .inr (congrArg (x :: ·) h)
    · left
      rw [filled_cons_of_lt (Nat.lt_of_not_le hx)]
      by_cases h0 : want = 0
      · exact h0 ▸ Nat.zero_le _
      · rw [cut_cons_of_lt (Nat.lt_of_not_le hx) h0]
        simp only [List.nil_append, Option.toList_some, total_cons, total_nil]
        omega

/-- No shorter prefix reaches the wanted quantity. -/
theorem taken_shortest : ∀ {l : List α} {want : ℕ}, (∀ x ∈ l, 0 < w x) →
    ∀ {q : List α}, q <+: taken w want l → q ≠ taken w want l → total w q < want
  | [], _, _, q, hq, hne => absurd (List.prefix_nil.1 hq) hne
  | x :: l, want, hpos, q, hq, hne => by
    have hx0 := hpos x List.mem_cons_self
    unfold taken at hq hne
    by_cases hx : w x ≤ want
    · rw [filled_cons_of_le hx, cut_cons_of_le hx, List.cons_append] at hq hne
      rcases q with _ | ⟨y, q⟩
      · rw [total_nil]
        omega
      · obtain ⟨rfl, hq'⟩ := List.cons_prefix_cons.1 hq
        have := taken_shortest (fun z hz => hpos z (List.mem_cons_of_mem y hz)) hq'
          fun he => hne (congrArg (y :: ·) he)
        rw [total_cons]
        omega
    · rw [filled_cons_of_lt (Nat.lt_of_not_le hx)] at hq hne
      by_cases h0 : want = 0
      · subst h0
        rw [cut_zero hpos] at hq hne
        exact absurd (List.prefix_nil.1 hq) hne
      · rw [cut_cons_of_lt (Nat.lt_of_not_le hx) h0] at hq hne
        simp only [List.nil_append, Option.toList_some] at hq hne
        rcases q with _ | ⟨y, q⟩
        · rw [total_nil]
          omega
        · obtain ⟨rfl, hq'⟩ := List.cons_prefix_cons.1 hq
          exact absurd (by rw [List.prefix_nil.1 hq']) hne

theorem filled_isPrefix : filled w want l <+: l := (List.prefix_append _ _).trans taken_isPrefix

/-- What is left to want and what was taken make up what was wanted. -/
theorem left_add_given : want - total w l + ((filled w want l).map w).sum +
    ((cut w want l).toList.map fun _ => owed w want l).sum = want := by
  have hle : total w (filled w want l) ≤ want := total_filled_le
  have hreach : want ≤ total w (taken w want l) ∨ taken w want l = l := taken_reach
  have htaken : total w (taken w want l) ≤ total w l := by
    obtain ⟨m, hm⟩ : taken w want l <+: l := taken_isPrefix
    have hsplit : total w (taken w want l ++ m) = total w l := congrArg (total w) hm
    rw [total_append] at hsplit
    omega
  unfold taken at hreach htaken
  change want - total w l + total w (filled w want l) + _ = want
  rcases hcut : cut w want l with _ | x
  · rw [hcut, Option.toList_none, List.append_nil] at hreach htaken
    rw [Option.toList_none, List.map_nil, List.sum_nil]
    rcases hreach with hreach | hreach
    · omega
    · rw [hreach] at hle ⊢
      omega
  · have hgiven := owed_of_cut hcut
    rw [hcut, Option.toList_some, total_append, total_cons, total_nil] at htaken
    rw [Option.toList_some, List.map_singleton, List.sum_singleton]
    unfold owed at hgiven ⊢
    omega

end Prefix

end Greedy
