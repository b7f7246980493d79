import Nanomatch.Bitmap

/-!
# The scans find the nearest set bit

`findPrevSetBit` and `findNextSetBit`, started inside the bitmap, stay inside it and return the
nearest set position at or before, at or after, the start.
-/

namespace Nanomatch

open WordBits

namespace Bitmap

variable {bm : Bitmap} {p : ℕ}

theorem setBit_of_lt (h : p / 64 < bm.size) :
    ∃ bm', bm.setBit p = some bm' ∧ bm'.size = bm.size
      ∧ ∀ q, bitAt bm' q = (bitAt bm q || decide (q = p)) := by
  refine ⟨_, ?_, ?_, fun q => bitAt_or bm p q⟩
  · rw [setBit, shiftRight_six, and_63, Cells.modify_of_lt h]
  · simp

theorem clearBit_of_lt (h : p / 64 < bm.size) :
    ∃ bm', bm.clearBit p = some bm' ∧ bm'.size = bm.size
      ∧ ∀ q, bitAt bm' q = (bitAt bm q && decide (q ≠ p)) := by
  refine ⟨_, ?_, ?_, fun q => bitAt_andNot bm p q⟩
  · rw [clearBit, shiftRight_six, and_63, Cells.modify_of_lt h]
  · simp

theorem bitAt_init (band q : ℕ) : bitAt (init band) q = false := by
  simp [bitAt, init]

end Bitmap

/-- `r` is the greatest position up to `start` whose bit `P` sets, or `UINT32_MAX` if none is. -/
def IsPrev (P : ℕ → Prop) (start r : ℕ) : Prop :=
  (r = UINT32_MAX ∧ ∀ q ≤ start, ¬ P q) ∨ (r ≤ start ∧ P r ∧ ∀ q, r < q → q ≤ start → ¬ P q)

/-- `r` is the least position from `start` whose bit `P` sets, or `UINT32_MAX` if none is. -/
def IsNext (P : ℕ → Prop) (start r : ℕ) : Prop :=
  (r = UINT32_MAX ∧ ∀ q, start ≤ q → ¬ P q) ∨ (start ≤ r ∧ P r ∧ ∀ q, start ≤ q → q < r → ¬ P q)

section Prev

variable (bm : Bitmap)

/-- The loop at `word` finds the greatest position among the bits it holds of that word and all
the words before. -/
theorem prevSetBitFrom_spec : ∀ (word : ℕ) (bits : BitVec 64), word < bm.size →
    ∃ r, prevSetBitFrom bm word bits = some r ∧
      IsPrev (fun q => if q / 64 = word then bits.getLsbD (q % 64) else bitAt bm q)
        (word * 64 + 63) r
  | word, bits, h => by
    by_cases hb : bits = 0#64
    · have hz : ∀ q, q / 64 = word → ¬ bits.getLsbD (q % 64) = true := by
        intro q _
        simp [hb]
      cases word with
      | zero =>
        refine ⟨UINT32_MAX, by simp [prevSetBitFrom, hb], .inl ⟨rfl, fun q hq => ?_⟩⟩
        have hq0 : q / 64 = 0 := by omega
        simpa [hq0] using hz q hq0
      | succ w =>
        obtain ⟨r, hr, hspec⟩ := prevSetBitFrom_spec w (bm.cell w) (by omega)
        refine ⟨r, by simp [prevSetBitFrom, hb, Cells.read_of_lt (show w < bm.size by omega), hr],
          ?_⟩
        have hcell : ∀ q, (if q / 64 = w then (bm.cell w).getLsbD (q % 64) else bitAt bm q)
            = bitAt bm q := by
          intro q
          split_ifs with hq
          · rw [bitAt, hq]
          · rfl
        simp only [hcell] at hspec
        rcases hspec with ⟨hmax, hnone⟩ | ⟨hle, hset, hgt⟩
        · refine .inl ⟨hmax, fun q hq => ?_⟩
          beta_reduce
          split_ifs with hqw
          · exact hz q hqw
          · exact hnone q (by omega)
        · refine .inr ⟨by omega, ?_, fun q hlt hq => ?_⟩
          · beta_reduce
            rw [if_neg (by omega)]
            exact hset
          · beta_reduce
            split_ifs with hqw
            · exact hz q hqw
            · exact hgt q hlt (by omega)
    · obtain ⟨hlt, hset, habove⟩ := highest_bit hb
      refine ⟨word * 64 + (63 - bits.clz.toNat), ?_, .inr ⟨by omega, ?_, fun q hq hle => ?_⟩⟩
      · cases word with
        | zero => simp only [prevSetBitFrom, hb, ne_eq, not_false_eq_true, if_true, word_or hlt]
        | succ w => simp only [prevSetBitFrom, hb, ne_eq, not_false_eq_true, if_true, word_or hlt]
      · beta_reduce
        rw [if_pos (by omega), show (word * 64 + (63 - bits.clz.toNat)) % 64
          = 63 - bits.clz.toNat by omega]
        exact hset
      · beta_reduce
        rw [if_pos (by omega), habove _ (by omega)]
        decide

theorem getLsbD_allOnes_shiftRight {k j : ℕ} (hk : k < 64) :
    (BitVec.allOnes 64 >>> (63 - k)).getLsbD j = decide (j ≤ k) := by
  simp only [BitVec.getLsbD_ushiftRight, BitVec.getLsbD_allOnes]
  exact decide_eq_decide.2 (by omega)

theorem findPrevSetBit_spec {start : ℕ} (h : start / 64 < bm.size) :
    ∃ r, findPrevSetBit bm start = some r ∧ IsPrev (fun q => bitAt bm q = true) start r := by
  set bits := bm.cell (start / 64) &&& (BitVec.allOnes 64 >>> (63 - start % 64)) with hbits
  obtain ⟨r, hr, hspec⟩ := prevSetBitFrom_spec bm (start / 64) bits h
  refine ⟨r, ?_, ?_⟩
  · simp only [findPrevSetBit, shiftRight_six, and_63, Cells.read_of_lt h, Option.bind_eq_bind,
      Option.bind_some, ← hbits, hr]
  have hmask : ∀ q, q / 64 ≤ start / 64 →
      ((if q / 64 = start / 64 then bits.getLsbD (q % 64) else bitAt bm q) = true
        ↔ bitAt bm q = true ∧ q ≤ start) := by
    intro q hq
    split_ifs with heq
    · rw [hbits, BitVec.getLsbD_and, getLsbD_allOnes_shiftRight (Nat.mod_lt _ (by decide)),
        bitAt, heq]
      simp only [Bool.and_eq_true, decide_eq_true_eq]
      exact and_congr_right fun _ => by omega
    · exact ⟨fun hb => ⟨hb, by omega⟩, fun hb => hb.1⟩
  rcases hspec with ⟨hmax, hnone⟩ | ⟨hle, hset, hgt⟩
  · exact .inl ⟨hmax, fun q hq hb => hnone q (by omega) ((hmask q (by omega)).2 ⟨hb, hq⟩)⟩
  · obtain ⟨hb, hle'⟩ := (hmask r (by omega)).1 hset
    exact .inr ⟨hle', hb, fun q hlt hq hbq =>
      hgt q hlt (by omega) ((hmask q (by omega)).2 ⟨hbq, hq⟩)⟩

end Prev

section Next

variable (bm : Bitmap)

/-- The loop at `word` finds the least position among the bits it holds of that word and all the
words after. -/
theorem nextSetBitFrom_spec : ∀ (fuel word : ℕ) (bits : BitVec 64), word < bm.size →
    bm.size ≤ word + fuel →
    ∃ r, nextSetBitFrom bm (bm.size - 1) fuel word bits = some r ∧
      ((r = UINT32_MAX ∧ ∀ q, word * 64 ≤ q → q / 64 < bm.size →
          ¬ (if q / 64 = word then bits.getLsbD (q % 64) else bitAt bm q) = true)
        ∨ (word * 64 ≤ r ∧ r / 64 < bm.size
          ∧ (if r / 64 = word then bits.getLsbD (r % 64) else bitAt bm r) = true
          ∧ ∀ q, word * 64 ≤ q → q < r →
            ¬ (if q / 64 = word then bits.getLsbD (q % 64) else bitAt bm q) = true))
  | 0, word, bits, h, hf => by omega
  | fuel + 1, word, bits, h, hf => by
    by_cases hb : bits = 0#64
    · have hz : ∀ q, q / 64 = word → ¬ bits.getLsbD (q % 64) = true := by
        intro q _
        simp [hb]
      by_cases hlast : word = bm.size - 1
      · refine ⟨UINT32_MAX, by simp [nextSetBitFrom, hb, hlast], .inl ⟨rfl, fun q hq hs => ?_⟩⟩
        have hqw : q / 64 = word := by omega
        rw [if_pos hqw]
        exact hz q hqw
      · have hw : word + 1 < bm.size := by omega
        obtain ⟨r, hr, hspec⟩ := nextSetBitFrom_spec fuel (word + 1) (bm.cell (word + 1)) hw
          (by omega)
        refine ⟨r, by simp [nextSetBitFrom, hb, hlast, Cells.read_of_lt hw, hr], ?_⟩
        have hcell : ∀ q, (if q / 64 = word + 1 then (bm.cell (word + 1)).getLsbD (q % 64)
            else bitAt bm q) = bitAt bm q := by
          intro q
          split_ifs with hq
          · rw [bitAt, hq]
          · rfl
        simp only [hcell] at hspec
        rcases hspec with ⟨hmax, hnone⟩ | ⟨hle, hsz, hset, hlt⟩
        · refine .inl ⟨hmax, fun q hq hs => ?_⟩
          split_ifs with hqw
          · exact hz q hqw
          · exact hnone q (by omega) hs
        · refine .inr ⟨by omega, hsz, ?_, fun q hq hqr => ?_⟩
          · rw [if_neg (by omega)]
            exact hset
          · split_ifs with hqw
            · exact hz q hqw
            · exact hlt q (by omega) hqr
    · obtain ⟨hlt, hset, hbelow⟩ := lowest_bit hb
      refine ⟨word * 64 + bits.ctz.toNat, ?_, .inr ⟨by omega, by omega, ?_, fun q hq hqr => ?_⟩⟩
      · simp only [nextSetBitFrom, hb, ne_eq, not_false_eq_true, if_true, word_or hlt]
      · rw [if_pos (by omega), show (word * 64 + bits.ctz.toNat) % 64 = bits.ctz.toNat by omega]
        exact hset
      · rw [if_pos (by omega), hbelow _ (by omega)]
        decide

theorem getLsbD_allOnes_shiftLeft {k j : ℕ} (hj : j < 64) :
    (BitVec.allOnes 64 <<< k).getLsbD j = decide (k ≤ j) := by
  simp only [BitVec.getLsbD_shiftLeft, BitVec.getLsbD_allOnes, hj, decide_true, Bool.true_and]
  by_cases hk : j < k
  · simp [hk, show ¬ k ≤ j by omega]
  · simp [hk, show k ≤ j by omega, show j - k < 64 by omega]

/-- Beyond the bitmap no bit counts as set. -/
theorem findNextSetBit_spec {start : ℕ} (h : start / 64 < bm.size) :
    ∃ r, findNextSetBit bm start = some r ∧
      IsNext (fun q => q / 64 < bm.size ∧ bitAt bm q = true) start r := by
  set bits := bm.cell (start / 64) &&& (BitVec.allOnes 64 <<< (start % 64)) with hbits
  obtain ⟨r, hr, hspec⟩ := nextSetBitFrom_spec bm bm.size (start / 64) bits h (by omega)
  refine ⟨r, ?_, ?_⟩
  · simp only [findNextSetBit, shiftRight_six, and_63, Cells.read_of_lt h, Option.bind_eq_bind,
      Option.bind_some, ← hbits, hr]
  have hmask : ∀ q, start / 64 ≤ q / 64 →
      ((if q / 64 = start / 64 then bits.getLsbD (q % 64) else bitAt bm q) = true
        ↔ bitAt bm q = true ∧ start ≤ q) := by
    intro q hq
    have hq' : q % 64 < 64 := Nat.mod_lt _ (by decide)
    split_ifs with heq
    · rw [hbits, BitVec.getLsbD_and, getLsbD_allOnes_shiftLeft hq', bitAt, heq]
      simp only [Bool.and_eq_true, decide_eq_true_eq]
      exact and_congr_right fun _ => by omega
    · exact ⟨fun hb => ⟨hb, by omega⟩, fun hb => hb.1⟩
  rcases hspec with ⟨hmax, hnone⟩ | ⟨hle, hsz, hset, hlt⟩
  · exact .inl ⟨hmax, fun q hq hb =>
      hnone q (by omega) hb.1 ((hmask q (by omega)).2 ⟨hb.2, hq⟩)⟩
  · obtain ⟨hb, hle'⟩ := (hmask r (by omega)).1 hset
    exact .inr ⟨hle', ⟨hsz, hb⟩, fun q hq hqr hbq =>
      hlt q (by omega) hqr ((hmask q (by omega)).2 ⟨hbq.2, hq⟩)⟩

end Next

end Nanomatch
