import Mathlib.Data.ZMod.Basic
import Mathlib.Tactic.Ring

/-!
# Linear probing on a circular table

A table of `n` slots, each empty or holding a key and a value. A key is looked for from its home
slot onward, up to the first slot that is empty or holds it (`FirstStop`). That finds every key
held (`FirstStop.holds`) as long as no empty slot lies between a key's home and its slot
(`Table.Reach`).

Deleting with a shift back moves the run of displaced entries after the hole one slot back and
leaves the hole at its end (`shifted`). The run ends at an empty slot or at an entry in its home
slot. What is left is still searchable exactly when no entry's way from home to slot crosses the
new hole (`shifted_reach`, `shifted_unreachable`).
-/

namespace LinearProbing

variable {n : ℕ} {K V : Type*}

/-- The number of steps from slot `a` forward to slot `b`. -/
def dist (a b : ZMod n) : ℕ := (b - a).val

abbrev Table (n : ℕ) (K V : Type*) := ZMod n → Option (K × V)

/-- The searches can be trusted: a key is held once, and its way from home is occupied. -/
structure Table.Reach (home : K → ZMod n) (T : Table n K V) : Prop where
  unique : ∀ {a b k v w}, T a = some (k, v) → T b = some (k, w) → a = b
  path : ∀ {z k v}, T z = some (k, v) → ∀ j < dist (home k) z, T (home k + j) ≠ none

/-- The search for `k` ends at `z`. -/
def Stops (T : Table n K V) (k : K) (z : ZMod n) : Prop := T z = none ∨ ∃ v, T z = some (k, v)

/-- The search for `k` ends `j` steps from its home. -/
def FirstStop (home : K → ZMod n) (T : Table n K V) (k : K) (j : ℕ) : Prop :=
  Stops T k (home k + j) ∧ ∀ i < j, ¬ Stops T k (home k + i)

/-- An entry away from its home slot. -/
def Displaced (home : K → ZMod n) (T : Table n K V) (z : ZMod n) : Prop :=
  ∃ k v, T z = some (k, v) ∧ home k ≠ z

/-- The table after the `m` entries after `cur` moved one slot back, which overwrites the one at
`cur`. -/
def shifted (T : Table n K V) (cur : ZMod n) (m : ℕ) : Table n K V := fun z =>
  if dist cur z < m then T (z + 1) else if dist cur z = m then none else T z

theorem shifted_of_lt {T : Table n K V} {cur z : ZMod n} {m : ℕ} (h : dist cur z < m) :
    shifted T cur m z = T (z + 1) := if_pos h

theorem shifted_hole {T : Table n K V} {cur z : ZMod n} {m : ℕ} (h : dist cur z = m) :
    shifted T cur m z = none := by
  rw [shifted, if_neg (by omega), if_pos h]

theorem shifted_of_gt {T : Table n K V} {cur z : ZMod n} {m : ℕ} (h : m < dist cur z) :
    shifted T cur m z = T z := by
  rw [shifted, if_neg (by omega), if_neg (by omega)]

theorem dist_add_of_lt (a : ZMod n) {j : ℕ} (h : j < n) : dist a (a + j) = j := by
  rw [dist, add_sub_cancel_left, ZMod.val_natCast_of_lt h]

theorem dist_self (a : ZMod n) : dist a a = 0 := by simp [dist]

theorem dist_eq_zero {a b : ZMod n} : dist a b = 0 ↔ a = b := by
  rw [dist, ZMod.val_eq_zero, sub_eq_zero, eq_comm]

variable [NeZero n]

theorem dist_lt (a b : ZMod n) : dist a b < n := ZMod.val_lt _

theorem add_dist (a b : ZMod n) : a + (dist a b : ZMod n) = b := by
  rw [dist, ZMod.natCast_zmod_val]
  ring

theorem eq_of_dist_eq {a b c : ZMod n} (h : dist a b = dist a c) : b = c := by
  rw [← add_dist a b, ← add_dist a c, h]

/-- Seen from `a`, slot `c` is past slot `b`. -/
theorem dist_of_le {a b c : ZMod n} (h : dist a b ≤ dist a c) : dist b c = dist a c - dist a b := by
  have hlt : dist a c - dist a b < n := lt_of_le_of_lt (Nat.sub_le _ _) (dist_lt a c)
  rw [← dist_add_of_lt b hlt]
  congr 1
  rw [Nat.cast_sub h, ← add_sub_assoc, eq_sub_iff_add_eq]
  nth_rewrite 1 [← add_dist a c]
  nth_rewrite 2 [← add_dist a b]
  ring

/-- Seen from `a`, slot `c` is before slot `b`, so the way from `b` to `c` goes round past `a`. -/
theorem dist_of_lt {a b c : ZMod n} (h : dist a c < dist a b) :
    dist b c = n + dist a c - dist a b := by
  have hb := dist_lt a b
  have hlt : n + dist a c - dist a b < n := by omega
  rw [← dist_add_of_lt b hlt]
  congr 1
  rw [Nat.cast_sub (by omega), Nat.cast_add, ZMod.natCast_self, zero_add, ← add_sub_assoc,
    eq_sub_iff_add_eq]
  nth_rewrite 1 [← add_dist a c]
  nth_rewrite 2 [← add_dist a b]
  ring

theorem dist_succ {a z : ZMod n} (h : dist a z + 1 < n) : dist a (z + 1) = dist a z + 1 := by
  have := dist_add_of_lt a h
  rwa [Nat.cast_add, Nat.cast_one, ← add_assoc, add_dist] at this

theorem dist_succ_of_ne {a z : ZMod n} (h : a ≠ z + 1) : dist a (z + 1) = dist a z + 1 := by
  refine dist_succ (lt_of_le_of_ne (dist_lt a z) fun hn => h ?_)
  have hz := add_dist a z
  rw [show dist a z = n - 1 by omega, Nat.cast_sub (by omega), ZMod.natCast_self, Nat.cast_one,
    zero_sub] at hz
  rw [← hz]
  ring

theorem dist_add_le {a z : ZMod n} {j : ℕ} (h : j ≤ dist a z) :
    dist (a + (j : ZMod n)) z = dist a z - j := by
  have hj : dist a (a + (j : ZMod n)) = j := dist_add_of_lt a (lt_of_le_of_lt h (dist_lt a z))
  rw [dist_of_le (a := a) (by omega), hj]

variable {home : K → ZMod n} {T : Table n K V}

/-- With an empty slot somewhere every search ends. -/
theorem exists_firstStop {e : ZMod n} (he : T e = none) (k : K) :
    ∃ j < n, FirstStop home T k j := by
  classical
  have hex : ∃ j : ℕ, Stops T k (home k + (j : ZMod n)) := ⟨dist (home k) e, by
    rw [add_dist]
    exact .inl he⟩
  refine ⟨Nat.find hex, ?_, Nat.find_spec hex, fun i hi => Nat.find_min hex hi⟩
  exact lt_of_le_of_lt (Nat.find_min' hex (by rw [add_dist]; exact .inl he)) (dist_lt (home k) e)

/-- A key that is held is where the search for it ends. -/
theorem FirstStop.holds (hT : T.Reach home) {k : K} {j : ℕ} (h : FirstStop home T k j)
    {z : ZMod n} {v : V} (hz : T z = some (k, v)) : home k + j = z := by
  have hle : j ≤ dist (home k) z := by
    by_contra hlt
    refine h.2 (dist (home k) z) (by omega) (.inr ⟨v, ?_⟩)
    rw [add_dist, hz]
  rcases h.1 with hnone | ⟨w, hw⟩
  · rcases Nat.lt_or_ge j (dist (home k) z) with hlt | hge
    · exact absurd hnone (hT.path hz j hlt)
    · have : j = dist (home k) z := by omega
      rw [this, add_dist]
  · exact hT.unique hw hz

/-- A search that an empty slot cuts off before the key's own slot misses the key. -/
theorem firstStop_none_of_cut {k : K} {z : ZMod n} (hT : ∀ {a w}, T a = some (k, w) → a = z)
    {i : ℕ} (hi : i < dist (home k) z) (hcut : T (home k + i) = none) :
    ∃ j < n, FirstStop home T k j ∧ T (home k + j) = none := by
  obtain ⟨j, hjn, hj⟩ : ∃ j < n, FirstStop home T k j := exists_firstStop hcut k
  refine ⟨j, hjn, hj, ?_⟩
  rcases hj.1 with hnone | ⟨w, hw⟩
  · exact hnone
  · have hle : j ≤ i := by
      by_contra hlt
      exact hj.2 i (by omega) (.inl hcut)
    have hdist : dist (home k) (home k + j) = j := dist_add_of_lt _ hjn
    rw [hT hw] at hdist
    omega

section Insert

/-- The table with `(k, v)` put where the search for `k` ends. -/
def insertAt [DecidableEq (ZMod n)] (T : Table n K V) (z : ZMod n) (k : K) (v : V) : Table n K V :=
  Function.update T z (some (k, v))

variable [DecidableEq (ZMod n)]

omit [NeZero n] in
theorem insertAt_self (T : Table n K V) (z : ZMod n) (k : K) (v : V) :
    insertAt T z k v z = some (k, v) := Function.update_self ..

omit [NeZero n] in
theorem insertAt_of_ne {z y : ZMod n} (h : y ≠ z) (k : K) (v : V) : insertAt T z k v y = T y :=
  Function.update_of_ne h ..

theorem insertAt_reach (hT : T.Reach home) {k : K} {j : ℕ} (hj : FirstStop home T k j)
    (hjn : j < n) (v : V) : (insertAt T (home k + j) k v).Reach home where
  unique := by
    intro a b k' v' w' ha hb
    by_cases hae : a = home k + j <;> by_cases hbe : b = home k + j
    · rw [hae, hbe]
    · subst hae
      rw [insertAt_self, Option.some.injEq, Prod.mk.injEq] at ha
      rw [insertAt_of_ne hbe, ← ha.1] at hb
      exact absurd (hj.holds hT hb).symm hbe
    · subst hbe
      rw [insertAt_self, Option.some.injEq, Prod.mk.injEq] at hb
      rw [insertAt_of_ne hae, ← hb.1] at ha
      exact absurd (hj.holds hT ha).symm hae
    · rw [insertAt_of_ne hae] at ha
      rw [insertAt_of_ne hbe] at hb
      exact hT.unique ha hb
  path := by
    intro z k' v' hz i hi
    by_cases hy : home k' + (i : ZMod n) = home k + j
    · rw [hy, insertAt_self]
      simp
    rw [insertAt_of_ne hy]
    by_cases hze : z = home k + j
    · subst hze
      rw [insertAt_self, Option.some.injEq, Prod.mk.injEq] at hz
      rw [← hz.1] at hi ⊢
      rw [dist_add_of_lt _ hjn] at hi
      intro hnone
      exact hj.2 i hi (.inl hnone)
    · rw [insertAt_of_ne hze] at hz
      exact hT.path hz i hi

end Insert

section Shift

variable {cur : ZMod n} {m : ℕ} {k : K} {v : V}

/-- `m` entries after `cur` are displaced, and the one after them is not. -/
structure ShiftRun (home : K → ZMod n) (T : Table n K V) (cur : ZMod n) (m : ℕ) : Prop where
  displaced : ∀ j < m, Displaced home T (cur + (j + 1 : ℕ))
  stop : ¬ Displaced home T (cur + (m + 1 : ℕ))
  lt : m < n

theorem exists_shiftRun {e : ZMod n} (he : T e = none) (hcur : T cur = some (k, v)) :
    ∃ m, ShiftRun home T cur m := by
  classical
  have hne : e ≠ cur := by
    rintro rfl
    simp [he] at hcur
  have hpos : 0 < dist cur e := Nat.pos_of_ne_zero fun h => hne (dist_eq_zero.1 h).symm
  have hnd : ¬ Displaced home T (cur + ((dist cur e - 1 + 1 : ℕ) : ZMod n)) := by
    rw [Nat.sub_add_cancel hpos, add_dist]
    rintro ⟨k', v', h, -⟩
    simp [he] at h
  have hex : ∃ j : ℕ, ¬ Displaced home T (cur + ((j + 1 : ℕ) : ZMod n)) := ⟨_, hnd⟩
  refine ⟨Nat.find hex, fun j hj => ?_, Nat.find_spec hex, ?_⟩
  · exact not_not.1 (Nat.find_min hex hj)
  · have := Nat.find_min' hex hnd
    have := dist_lt cur e
    omega

/-- An empty slot lies past the run, seen from `cur`. -/
theorem ShiftRun.lt_dist (h : ShiftRun home T cur m) (hcur : T cur = some (k, v)) {e : ZMod n}
    (he : T e = none) : m < dist cur e := by
  by_contra hle
  rcases Nat.eq_zero_or_pos (dist cur e) with h0 | hpos
  · rw [← dist_eq_zero.1 h0, hcur] at he
    simp at he
  · obtain ⟨k', v', hk, -⟩ := h.displaced (dist cur e - 1) (by omega)
    rw [Nat.sub_add_cancel hpos, add_dist, he] at hk
    simp at hk

/-- Every entry after the shift was an entry before it, of another key than the one at `cur`. -/
theorem shifted_origin (hT : T.Reach home) (hrun : ShiftRun home T cur m)
    (hcur : T cur = some (k, v)) {z : ZMod n} {k' : K} {v' : V}
    (hz : shifted T cur m z = some (k', v')) :
    k' ≠ k ∧ ∃ y, T y = some (k', v') ∧ (dist cur z < m ∧ y = z + 1 ∨ m < dist cur z ∧ y = z) := by
  have hn := hrun.lt
  rcases lt_trichotomy (dist cur z) m with hlt | heq | hgt
  · rw [shifted_of_lt hlt] at hz
    refine ⟨?_, z + 1, hz, .inl ⟨hlt, rfl⟩⟩
    rintro rfl
    have h1 := dist_succ (a := cur) (z := z) (by omega)
    rw [hT.unique hz hcur, dist_self] at h1
    omega
  · simp [shifted_hole heq] at hz
  · rw [shifted_of_gt hgt] at hz
    refine ⟨?_, z, hz, .inr ⟨hgt, rfl⟩⟩
    rintro rfl
    rw [hT.unique hz hcur, dist_self] at hgt
    omega

/-- Every entry before the shift, of another key than the one at `cur`, is an entry after it. -/
theorem shifted_image (hrun : ShiftRun home T cur m) (hcur : T cur = some (k, v)) {y : ZMod n}
    {k' : K} {v' : V} (hy : T y = some (k', v')) (hk : k' ≠ k) :
    ∃ z, shifted T cur m z = some (k', v') := by
  have hn := hrun.lt
  rcases Nat.lt_or_ge m (dist cur y) with hgt | hle
  · exact ⟨y, by rw [shifted_of_gt hgt, hy]⟩
  · have hpos : dist cur y ≠ 0 := by
      intro h0
      rw [← dist_eq_zero.1 h0, hcur] at hy
      simp only [Option.some.injEq, Prod.mk.injEq] at hy
      exact hk hy.1.symm
    refine ⟨cur + (dist cur y - 1 : ℕ), ?_⟩
    have hd : dist cur (cur + (dist cur y - 1 : ℕ)) = dist cur y - 1 :=
      dist_add_of_lt _ (by omega)
    rw [shifted_of_lt (by omega), add_assoc, ← Nat.cast_succ, Nat.succ_eq_add_one,
      Nat.sub_add_cancel (by omega), add_dist, hy]

theorem shifted_unique (hT : T.Reach home) (hrun : ShiftRun home T cur m)
    (hcur : T cur = some (k, v)) {a b : ZMod n} {k' : K} {v' w' : V}
    (ha : shifted T cur m a = some (k', v')) (hb : shifted T cur m b = some (k', w')) : a = b := by
  have hn := hrun.lt
  obtain ⟨-, y, hy, hya⟩ := shifted_origin hT hrun hcur ha
  obtain ⟨-, z, hz, hzb⟩ := shifted_origin hT hrun hcur hb
  have hyz := hT.unique hy hz
  subst hyz
  rcases hya with ⟨h1, rfl⟩ | ⟨h1, rfl⟩ <;> rcases hzb with ⟨h2, h3⟩ | ⟨h2, h3⟩
  · exact add_right_cancel h3
  · have := dist_succ (a := cur) (z := a) (by omega)
    rw [h3] at this
    omega
  · have := dist_succ (a := cur) (z := b) (by omega)
    rw [← h3] at this
    omega
  · exact h3

/-- No entry past the run has its way from home to slot crossing the run's last slot. -/
def NoneCrosses (home : K → ZMod n) (T : Table n K V) (cur : ZMod n) (m : ℕ) : Prop :=
  ∀ z k v, T z = some (k, v) → m < dist cur z → dist (home k) z < dist (cur + (m : ZMod n)) z

theorem ShiftRun.dist_home (hrun : ShiftRun home T cur m) {z : ZMod n} (hz : dist cur z < m)
    {k' : K} {v' : V} (h : T (z + 1) = some (k', v')) :
    dist (home k') (z + 1) = dist (home k') z + 1 := by
  refine dist_succ_of_ne fun hne => ?_
  obtain ⟨k₂, v₂, h₂, hd⟩ := hrun.displaced (dist cur z) hz
  rw [Nat.cast_add, Nat.cast_one, ← add_assoc, add_dist] at h₂ hd
  rw [h, Option.some.injEq, Prod.mk.injEq] at h₂
  exact hd (h₂.1 ▸ hne)

/-- The shift keeps every search good if no entry past the run is reached across its last slot. -/
theorem shifted_reach (hT : T.Reach home) {e : ZMod n} (he : T e = none)
    (hrun : ShiftRun home T cur m) (hcur : T cur = some (k, v))
    (hsafe : NoneCrosses home T cur m) : (shifted T cur m).Reach home where
  unique := shifted_unique hT hrun hcur
  path := by
    intro z k' v' hz j hj
    have hce := hrun.lt_dist hcur he
    have hen := dist_lt cur e
    obtain ⟨-, y, hy, hyz⟩ := shifted_origin hT hrun hcur hz
    -- the way to the old slot is as long, or one longer
    have hjy : j < dist (home k') y := by
      rcases hyz with ⟨h1, rfl⟩ | ⟨-, rfl⟩
      · rw [hrun.dist_home h1 hy]
        omega
      · exact hj
    set x := home k' + (j : ZMod n) with hx
    have hxz : dist x z = dist (home k') z - j := dist_add_le hj.le
    have hnext : T (x + 1) ≠ none := by
      by_cases hlast : j + 1 < dist (home k') y
      · have hpath := hT.path hy (j + 1) hlast
        rwa [Nat.cast_add, Nat.cast_one, ← add_assoc] at hpath
      · have hxy : x + 1 = y := by
          rw [hx, add_assoc, ← Nat.cast_succ, Nat.succ_eq_add_one,
            show j + 1 = dist (home k') y by omega, add_dist]
        rw [hxy, hy]
        simp
    rcases lt_trichotomy (dist cur x) m with hlt | heq | hgt
    · rw [shifted_of_lt hlt]
      exact hnext
    · exfalso
      rcases hyz with ⟨h1, rfl⟩ | ⟨h1, rfl⟩
      · -- the way would go round past the empty slot
        have hxe : dist x e = dist cur e - dist cur x := dist_of_le (by omega)
        have hxz' : dist x z = n + dist cur z - dist cur x := dist_of_lt (by omega)
        have hpe := hT.path hy (j + dist x e) (by rw [hrun.dist_home h1 hy]; omega)
        rw [Nat.cast_add, ← add_assoc, ← hx, add_dist] at hpe
        exact hpe he
      · have hxm : x = cur + m := by rw [← heq, add_dist]
        have hcross := hsafe _ _ _ hy h1
        rw [← hxm] at hcross
        omega
    · rw [shifted_of_gt hgt]
      exact hT.path hy j hjy

/-- An entry past the run that is reached across its last slot is lost by the shift. -/
theorem shifted_unreachable (hT : T.Reach home) (hrun : ShiftRun home T cur m)
    (hcur : T cur = some (k, v)) (hbad : ¬ NoneCrosses home T cur m) :
    ∃ z k' v', T z = some (k', v') ∧ k' ≠ k ∧ ∃ j < n, FirstStop home (shifted T cur m) k' j
      ∧ shifted T cur m (home k' + j) = none := by
  simp only [NoneCrosses, not_forall, not_lt] at hbad
  obtain ⟨z, k', v', hz, hgt, hcross⟩ := hbad
  have hn := hrun.lt
  have hz' : shifted T cur m z = some (k', v') := by rw [shifted_of_gt hgt, hz]
  have hcm : dist cur (cur + (m : ZMod n)) = m := dist_add_of_lt _ hn
  have hpos : 0 < dist (cur + (m : ZMod n)) z := by
    rw [dist_of_le (a := cur) (by omega)]
    omega
  refine ⟨z, k', v', hz, (shifted_origin hT hrun hcur hz').1, ?_⟩
  set i := dist (home k') z - dist (cur + (m : ZMod n)) z with hi
  have hhole : home k' + (i : ZMod n) = cur + m := by
    have h1 := add_dist (home k') z
    have h2 := add_dist (cur + (m : ZMod n)) z
    rw [hi, Nat.cast_sub hcross, ← add_sub_assoc, h1, sub_eq_iff_eq_add, h2]
  refine firstStop_none_of_cut (fun h => shifted_unique hT hrun hcur h hz') (i := i)
    (by omega) ?_
  rw [hhole]
  exact shifted_hole hcm

end Shift

end LinearProbing
