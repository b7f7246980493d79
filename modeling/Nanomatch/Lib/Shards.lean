import Mathlib.Data.List.Basic
import Mathlib.Tactic.TypeStar

/-!
# Machines that fall into shards

An input has a key, and the state has a part for each key. If an input works on the part of its key
alone, by what it finds there, then the part of a key is what the inputs of this key have made of it:
how the inputs of the other keys are mixed in between does not matter.
-/

section Shards

variable {S I K : Type*}

/-- From states that satisfy `Ok`, the inputs that satisfy `Valid` return, and change nothing but the
part of their key. `Same k` says that two states have the same part for the key `k`. -/
structure Sharded (step : S → I → Option S) (key : I → K) (Same : K → S → S → Prop) (Ok : S → Prop)
    (Valid : I → Prop) : Prop where
  refl : ∀ k s, Same k s s
  symm : ∀ k s t, Same k s t → Same k t s
  trans : ∀ k s t u, Same k s t → Same k t u → Same k s u
  step_ok : ∀ s x, Ok s → Valid x → ∃ s', step s x = some s' ∧ Ok s'
  other : ∀ s s' x k, Ok s → Valid x → step s x = some s' → key x ≠ k → Same k s' s
  own : ∀ s s' t t' x, Ok s → Ok t → Valid x → Same (key x) s t → step s x = some s' →
    step t x = some t' → Same (key x) s' t'

namespace Sharded

variable [DecidableEq K] {step : S → I → Option S} {key : I → K} {Same : K → S → S → Prop}
  {Ok : S → Prop} {Valid : I → Prop} {s t : S}

omit [DecidableEq K] in
theorem run_ok (h : Sharded step key Same Ok Valid) : ∀ {xs : List I} {s : S},
    (∀ x ∈ xs, Valid x) → Ok s → ∃ s', xs.foldlM step s = some s' ∧ Ok s'
  | [], s, _, hs => ⟨s, rfl, hs⟩
  | x :: xs, s, hvalid, hs => by
    obtain ⟨hx, hvalid⟩ := List.forall_mem_cons.1 hvalid
    obtain ⟨s1, hs1, hok⟩ := h.step_ok s x hs hx
    rw [List.foldlM_cons, hs1]
    exact h.run_ok hvalid hok

/-- A part is made by the inputs of its key. -/
theorem run_filter (h : Sharded step key Same Ok Valid) (k : K) : ∀ {xs : List I} {s t : S},
    (∀ x ∈ xs, Valid x) → Ok s → Ok t → Same k s t → ∃ s' t', xs.foldlM step s = some s' ∧
      (xs.filter (key · = k)).foldlM step t = some t' ∧ Ok s' ∧ Ok t' ∧ Same k s' t'
  | [], s, t, _, hs, ht, hsame => ⟨s, t, rfl, rfl, hs, ht, hsame⟩
  | x :: xs, s, t, hvalid, hs, ht, hsame => by
    obtain ⟨hx, hvalid⟩ := List.forall_mem_cons.1 hvalid
    obtain ⟨s1, hs1, hok⟩ := h.step_ok s x hs hx
    rw [List.foldlM_cons, hs1]
    by_cases hk : key x = k
    · subst hk
      obtain ⟨t1, ht1, hok'⟩ := h.step_ok t x ht hx
      have hfilter : (x :: xs).filter (key · = key x) = x :: xs.filter (key · = key x) :=
        List.filter_cons_of_pos (by simp)
      rw [hfilter, List.foldlM_cons, ht1]
      exact h.run_filter _ hvalid hok hok' (h.own s s1 t t1 x hs ht hx hsame hs1 ht1)
    · have hfilter : (x :: xs).filter (key · = k) = xs.filter (key · = k) :=
        List.filter_cons_of_neg (by simpa using hk)
      rw [hfilter]
      exact h.run_filter k hvalid hok ht (h.trans k s1 s t (h.other s s1 x k hs hx hs1 hk) hsame)

/-- Runs with the same inputs for each key end in states with the same parts. -/
theorem run_interleaved (h : Sharded step key Same Ok Valid) {xs ys : List I}
    (hxs : ∀ x ∈ xs, Valid x) (hys : ∀ y ∈ ys, Valid y)
    (heq : ∀ k, xs.filter (key · = k) = ys.filter (key · = k)) (hs : Ok s) :
    ∃ s' t', xs.foldlM step s = some s' ∧ ys.foldlM step s = some t' ∧ Ok s' ∧ Ok t' ∧
      ∀ k, Same k s' t' := by
  obtain ⟨u, hu, hok⟩ := h.run_ok hxs hs
  obtain ⟨u', hu', hok'⟩ := h.run_ok hys hs
  refine ⟨u, u', hu, hu', hok, hok', fun k => ?_⟩
  obtain ⟨v, w, hv, hw, -, -, hsame⟩ := h.run_filter k hxs hs hs (h.refl k s)
  obtain ⟨v', w', hv', hw', -, -, hsame'⟩ := h.run_filter k hys hs hs (h.refl k s)
  obtain rfl := Option.some.inj (hv.symm.trans hu)
  obtain rfl := Option.some.inj (hv'.symm.trans hu')
  rw [heq k, hw'] at hw
  obtain rfl := Option.some.inj hw
  exact h.trans k _ _ _ hsame (h.symm k _ _ hsame')

end Sharded

end Shards
