import Mathlib.Data.BitVec
import Mathlib.Tactic.Ring
import Nanomatch.Lib.Cells

/-!
# Sets of naturals kept in 64-bit words

Position `p` is bit `p % 64` of word `p / 64`. Setting or clearing one bit of one word adds or
removes one position; the highest and lowest set bits of a word are where `clz` and `ctz` say.
-/

namespace WordBits

def bitAt (bm : Cells (BitVec 64)) (p : ℕ) : Bool := (bm.cell (p / 64)).getLsbD (p % 64)

theorem shiftRight_six (p : ℕ) : p >>> 6 = p / 64 := by simp [Nat.shiftRight_eq_div_pow]

theorem and_63 (p : ℕ) : p &&& 63 = p % 64 := Nat.and_two_pow_sub_one_eq_mod p 6

theorem word_or {w k : ℕ} (hk : k < 64) : (w <<< 6) ||| k = w * 64 + k := by
  have := Nat.shiftLeft_add_eq_or_of_lt (i := 6) (b := k) (by simpa using hk) w
  rw [← this, Nat.shiftLeft_eq]

theorem getLsbD_one_shiftLeft (k j : ℕ) (hk : k < 64) :
    (1#64 <<< k).getLsbD j = decide (j = k) := by
  by_cases hj : j = k
  · subst hj
    simp [hk]
  · simp only [BitVec.getLsbD_shiftLeft, hj, decide_false, Bool.and_eq_false_iff,
      BitVec.getLsbD_one]
    by_cases hlt : j < k
    · simp [hlt]
    · right
      simp
      omega

theorem bitAt_put (bm : Cells (BitVec 64)) (w : ℕ) (v : BitVec 64) (q : ℕ) :
    bitAt (bm.put w v) q = if q / 64 = w then v.getLsbD (q % 64) else bitAt bm q := by
  simp only [bitAt, Cells.put_cell]
  split_ifs <;> rfl

theorem bitAt_or (bm : Cells (BitVec 64)) (p q : ℕ) :
    bitAt (bm.put (p / 64) (bm.cell (p / 64) ||| (1#64 <<< (p % 64)))) q
      = (bitAt bm q || decide (q = p)) := by
  have hp : p % 64 < 64 := Nat.mod_lt _ (by decide)
  rw [bitAt_put]
  split_ifs with h
  · rw [BitVec.getLsbD_or, getLsbD_one_shiftLeft _ _ hp, ← h]
    congr 1
    exact decide_eq_decide.2 (by omega)
  · have : q ≠ p := fun hq => h (by rw [hq])
    simp [this]

theorem bitAt_andNot (bm : Cells (BitVec 64)) (p q : ℕ) :
    bitAt (bm.put (p / 64) (bm.cell (p / 64) &&& ~~~(1#64 <<< (p % 64)))) q
      = (bitAt bm q && decide (q ≠ p)) := by
  have hp : p % 64 < 64 := Nat.mod_lt _ (by decide)
  have hq : q % 64 < 64 := Nat.mod_lt _ (by decide)
  rw [bitAt_put]
  split_ifs with h
  · rw [BitVec.getLsbD_and, BitVec.getLsbD_not, getLsbD_one_shiftLeft _ _ hp, ← h]
    simp only [hq, decide_true, Bool.true_and, bitAt]
    congr 1
    by_cases hm : q % 64 = p % 64
    · simp [show q = p by omega]
    · simp [hm, show q ≠ p by rintro rfl; exact hm rfl]
  · have : q ≠ p := fun hq => h (by rw [hq])
    simp [this]

/-- The highest set bit of a word is at `63 - clz`. -/
theorem highest_bit {x : BitVec 64} (h : x ≠ 0#64) :
    63 - x.clz.toNat < 64 ∧ x.getLsbD (63 - x.clz.toNat) = true
      ∧ ∀ j, 63 - x.clz.toNat < j → x.getLsbD j = false := by
  have hlt : x.clz.toNat < 64 := by
    have := BitVec.clz_lt_iff_ne_zero.2 h
    simpa [BitVec.lt_def] using this
  refine ⟨by omega, ?_, fun j hj => ?_⟩
  · have := BitVec.getLsbD_true_clz_of_ne_zero (x := x) (by decide) h
    simpa [show 64 - 1 - x.clz.toNat = 63 - x.clz.toNat by omega] using this
  · have hx : x.toNat < 2 ^ (64 - x.clz.toNat) := BitVec.toNat_lt_two_pow_sub_clz
    refine Nat.testBit_lt_two_pow (lt_of_lt_of_le hx ?_)
    exact Nat.pow_le_pow_right (by decide) (by omega)

/-- The lowest set bit of a word is at `ctz`. -/
theorem lowest_bit {x : BitVec 64} (h : x ≠ 0#64) :
    x.ctz.toNat < 64 ∧ x.getLsbD x.ctz.toNat = true
      ∧ ∀ j, j < x.ctz.toNat → x.getLsbD j = false := by
  refine ⟨?_, BitVec.getLsbD_true_ctz_of_ne_zero h, fun j hj => BitVec.getLsbD_false_of_lt_ctz hj⟩
  have := BitVec.ctz_lt_iff_ne_zero.2 h
  simpa [BitVec.lt_def] using this

end WordBits
