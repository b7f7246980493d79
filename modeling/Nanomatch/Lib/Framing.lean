import Mathlib.Data.List.Basic
import Mathlib.Data.Nat.Notation
import Mathlib.Data.Set.Defs

/-!
# Splitting a stream into words

A stream is cut into words of a prefix-free set from its front. At most one word can be cut off at
each point, so a split that cannot go on is the longest one, and every other split is a beginning of
it.
-/

namespace Framing

variable {α : Type*} {S : Set (List α)} {fs gs : List (List α)} {f l rest rest' : List α}

/-- No word of `S` is a proper beginning of another. -/
def PrefixFree (S : Set (List α)) : Prop := ∀ f ∈ S, ∀ g ∈ S, f <+: g → f = g

/-- The stream `l` begins with the words `fs` of `S`, after which `rest` is left. -/
structure Splits (S : Set (List α)) (fs : List (List α)) (rest l : List α) : Prop where
  mem : ∀ f ∈ fs, f ∈ S
  eq : l = fs.flatten ++ rest

/-- No word of `S` can be cut off `rest`. -/
def Stuck (S : Set (List α)) (rest : List α) : Prop := ∀ f ∈ S, ¬ f <+: rest

namespace Splits

theorem nil (l : List α) : Splits S [] l l := ⟨by simp, rfl⟩

theorem cons (hf : f ∈ S) (h : Splits S fs rest l) : Splits S (f :: fs) rest (f ++ l) where
  mem := List.forall_mem_cons.2 ⟨hf, h.mem⟩
  eq := by rw [h.eq, List.flatten_cons, List.append_assoc]

/-- A split goes on where another one left off. -/
theorem append (h : Splits S fs rest l) (h' : Splits S gs rest' rest) :
    Splits S (fs ++ gs) rest' l where
  mem f hf := (List.mem_append.1 hf).elim (h.mem f) (h'.mem f)
  eq := by rw [h.eq, h'.eq, List.flatten_append, List.append_assoc]

/-- There are no more words than letters. -/
theorem length_le (h : Splits S fs rest l) (hS : [] ∉ S) : fs.length ≤ l.length := by
  induction fs generalizing l with
  | nil => exact Nat.zero_le _
  | cons f fs ih =>
    obtain ⟨hf, hfs⟩ := List.forall_mem_cons.1 h.mem
    have hpos : 0 < f.length := List.length_pos_of_ne_nil fun he => hS (he ▸ hf)
    have htail := ih ⟨hfs, rfl⟩
    rw [h.eq, List.flatten_cons, List.append_assoc, List.length_append, List.length_cons]
    omega

theorem flatten_isPrefix (h : Splits S fs rest l) : fs.flatten <+: l := ⟨rest, h.eq.symm⟩

end Splits

/-- Every stream has a split that cannot go on. -/
theorem exists_stuck (hS : [] ∉ S) (l : List α) : ∃ fs rest, Splits S fs rest l ∧ Stuck S rest := by
  induction h : l.length using Nat.strongRecOn generalizing l with
  | ind n ih =>
    by_cases hstuck : Stuck S l
    · exact ⟨[], l, .nil l, hstuck⟩
    · unfold Stuck at hstuck
      push Not at hstuck
      obtain ⟨f, hf, rest, rfl⟩ := hstuck
      have hpos : 0 < f.length := List.length_pos_of_ne_nil fun he => hS (he ▸ hf)
      rw [List.length_append] at h
      obtain ⟨fs, rest', hsplit, hend⟩ := ih rest.length (by omega) rest rfl
      exact ⟨f :: fs, rest', hsplit.cons hf, hend⟩

namespace PrefixFree

/-- Two words that a stream begins with are the same. -/
theorem eq_of_isPrefix (h : PrefixFree S) {g : List α} (hf : f ∈ S) (hg : g ∈ S) (hfl : f <+: l)
    (hgl : g <+: l) : f = g := by
  rcases List.prefix_or_prefix_of_prefix hfl hgl with hp | hp
  · exact h f hf g hg hp
  · exact (h g hg f hf hp).symm

/-- Every split is a beginning of one that cannot go on. -/
theorem isPrefix_of_stuck (h : PrefixFree S) (hstuck : Stuck S rest) :
    ∀ {gs fs : List (List α)} {l : List α}, (∀ g ∈ gs, g ∈ S) → gs.flatten <+: l →
      Splits S fs rest l → gs <+: fs
  | [], _, _, _, _, _ => List.nil_prefix
  | g :: gs, [], l, hg, hgl, hfs => by
    have hl : l = rest := hfs.eq
    rw [List.flatten_cons] at hgl
    exact absurd (hl ▸ (List.prefix_append g gs.flatten).trans hgl) (hstuck g (hg g (by simp)))
  | g :: gs, f :: fs, l, hg, hgl, hfs => by
    have hgS := List.forall_mem_cons.1 hg
    have hfS := List.forall_mem_cons.1 hfs.mem
    have hl := hfs.eq
    rw [List.flatten_cons, List.append_assoc] at hl
    rw [List.flatten_cons, hl] at hgl
    obtain rfl : g = f := h.eq_of_isPrefix hgS.1 hfS.1
      ((List.prefix_append g gs.flatten).trans hgl) (List.prefix_append f _)
    rw [List.prefix_append_right_inj] at hgl
    exact List.cons_prefix_cons.2
      ⟨rfl, isPrefix_of_stuck h hstuck hgS.2 hgl ⟨hfS.2, rfl⟩⟩

end PrefixFree

end Framing
