import Mathlib.Data.List.Basic
import Mathlib.Logic.Function.Basic

/-!
# Interleavings of threads over atomic objects

A system of threads takes labelled steps, in any order; `Trace` is what it has done so far. An
atomic object keeps every value that was ever stored to it, in modification order: a load may return
an old one, but none older than what its thread has seen already.
-/

section Trace

variable {S E : Type*} {Step : S → E → S → Prop} {s₀ s s' : S} {tr : List E} {e : E}

/-- The system went from `s₀` to a state, with these labels on its steps, first to last. -/
inductive Trace (Step : S → E → S → Prop) (s₀ : S) : List E → S → Prop
  | start : Trace Step s₀ [] s₀
  | step {tr : List E} {s s' : S} {e : E} : Trace Step s₀ tr s → Step s e s' →
      Trace Step s₀ (tr ++ [e]) s'

namespace Trace

/-- What holds at the start and is kept by every step holds after every trace. -/
theorem invariant {I : List E → S → Prop} (h : Trace Step s₀ tr s) (h0 : I [] s₀)
    (hstep : ∀ {tr s e s'}, I tr s → Step s e s' → I (tr ++ [e]) s') : I tr s := by
  induction h with
  | start => exact h0
  | step _ hs ih => exact hstep ih hs

theorem snoc_iff : Trace Step s₀ (tr ++ [e]) s' ↔ ∃ s, Trace Step s₀ tr s ∧ Step s e s' := by
  constructor
  · intro h
    generalize htr : tr ++ [e] = tr' at h
    rcases h with _ | ⟨h, hs⟩
    · simp at htr
    · obtain ⟨rfl, he⟩ := List.append_inj' htr rfl
      obtain rfl := List.singleton_inj.1 he
      exact ⟨_, h, hs⟩
  · rintro ⟨s, h, hs⟩
    exact h.step hs

theorem trans {tr' : List E} (h : Trace Step s₀ tr s) (h' : Trace Step s tr' s') :
    Trace Step s₀ (tr ++ tr') s' := by
  induction h' with
  | start => rwa [List.append_nil]
  | step _ hs ih =>
    rw [← List.append_assoc]
    exact ih.step hs

end Trace

end Trace

/-- The values stored to an atomic object: `value 0` is the initial one, `value last` the latest. -/
structure Atomic (α : Type*) where
  last : ℕ
  value : ℕ → α

namespace Atomic

variable {α : Type*} {x : Atomic α} {a : α} {i : ℕ}

def init (a : α) : Atomic α := ⟨0, fun _ => a⟩

def store (x : Atomic α) (a : α) : Atomic α :=
  ⟨x.last + 1, Function.update x.value (x.last + 1) a⟩

/-- A thread that has seen the value at `seen` may load the one at `i`. -/
def Loads (x : Atomic α) (seen i : ℕ) : Prop := seen ≤ i ∧ i ≤ x.last

instance (x : Atomic α) (seen i : ℕ) : Decidable (x.Loads seen i) :=
  inferInstanceAs (Decidable (_ ∧ _))

@[simp] theorem store_last : (x.store a).last = x.last + 1 := rfl

@[simp] theorem store_value_last : (x.store a).value (x.last + 1) = a := Function.update_self ..

theorem store_value_of_le (h : i ≤ x.last) : (x.store a).value i = x.value i :=
  Function.update_of_ne (by omega) ..

end Atomic
