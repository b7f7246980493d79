import Mathlib.Logic.Basic

/-!
# Machines that are run on calls

A machine takes a call in a state and, unless it fails, goes to a state and returns a value. Two
machines simulate each other if a call on one and its image on the other return the same and lead to
related states; what is said of one call then holds of a run.
-/

namespace Machine

variable {S T A B R : Type*} {step : S → A → Option (S × R)} {step' : T → B → Option (T × R)}
  {P : S → A → Prop} {f : A → B} {rel : S → T → Prop}

/-- The state after a list of calls, and what they returned. -/
def results (step : S → A → Option (S × R)) : S → List A → Option (S × List R)
  | s, [] => some (s, [])
  | s, a :: as => do
    let (s, r) ← step s a
    let (s, rs) ← results step s as
    some (s, r :: rs)

/-- `P` holds of every call of a run in the state it is made in. -/
def Along (step : S → A → Option (S × R)) (P : S → A → Prop) : S → List A → Prop
  | _, [] => True
  | s, a :: as => P s a ∧ ∀ s' r, step s a = some (s', r) → Along step P s' as

/-- Calls that meet `P` and their images under `f` return the same and keep `rel`. -/
def Simulates (step : S → A → Option (S × R)) (step' : T → B → Option (T × R)) (P : S → A → Prop)
    (f : A → B) (rel : S → T → Prop) : Prop :=
  ∀ s t a, rel s t → P s a →
    ∃ s' t' r, step s a = some (s', r) ∧ step' t (f a) = some (t', r) ∧ rel s' t'

theorem Simulates.run (h : Simulates step step' P f rel) : ∀ (as : List A) {s : S} {t : T},
    rel s t → Along step P s as → ∃ s' t' rs, results step s as = some (s', rs) ∧
      results step' t (as.map f) = some (t', rs) ∧ rel s' t'
  | [], s, t, hrel, _ => ⟨s, t, [], rfl, rfl, hrel⟩
  | a :: as, s, t, hrel, ⟨ha, has⟩ => by
    obtain ⟨s1, t1, r, h1, h1', hrel1⟩ := h s t a hrel ha
    obtain ⟨s2, t2, rs, h2, h2', hrel2⟩ := Simulates.run h as hrel1 (has s1 r h1)
    refine ⟨s2, t2, r :: rs, ?_, ?_, hrel2⟩
    · simp [results, h1, h2]
    · simp [results, h1', h2']

end Machine
