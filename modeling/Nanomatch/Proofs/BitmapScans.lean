import Mathlib.Order.Bounds.Basic
import Nanomatch.Proofs.Bitmap

/-!
# The scans against a scan position by position

`scanPrev` and `scanNext` look at one position after the other. The scans by words return what these
return.
-/

namespace Nanomatch

open WordBits

section Scans

variable (bm : Bitmap)

/-- The positions from `start` down to 0, one by one. -/
def scanPrev : ℕ → ℕ
  | 0 => if bitAt bm 0 then 0 else UINT32_MAX
  | q + 1 => if bitAt bm (q + 1) then q + 1 else scanPrev q

/-- The next `n` positions from `start` on, one by one. -/
def scanNext : ℕ → ℕ → ℕ
  | 0, _ => UINT32_MAX
  | n + 1, q => if bitAt bm q then q else scanNext n (q + 1)

theorem isPrev_scanPrev : ∀ start, IsPrev (fun q => bitAt bm q = true) start (scanPrev bm start)
  | 0 => by
    unfold scanPrev
    split_ifs with hb
    · exact .inr ⟨le_rfl, hb, fun q h1 h2 => by omega⟩
    · refine .inl ⟨rfl, fun q hq => ?_⟩
      rwa [Nat.le_zero.1 hq]
  | start + 1 => by
    unfold scanPrev
    split_ifs with hb
    · exact .inr ⟨le_rfl, hb, fun q h1 h2 => by omega⟩
    · rcases isPrev_scanPrev start with ⟨hmax, hnone⟩ | ⟨hle, hset, hgt⟩
      · refine .inl ⟨hmax, fun q hq => ?_⟩
        rcases Nat.le_succ_iff.1 hq with hq | rfl
        · exact hnone q hq
        · exact hb
      · refine .inr ⟨Nat.le_succ_of_le hle, hset, fun q hlt hq => ?_⟩
        rcases Nat.le_succ_iff.1 hq with hq | rfl
        · exact hgt q hlt hq
        · exact hb

theorem isNext_scanNext : ∀ n start, start + n = 64 * bm.size →
    IsNext (fun q => q / 64 < bm.size ∧ bitAt bm q = true) start (scanNext bm n start)
  | 0, start, h => .inl ⟨rfl, fun q hq hb => by omega⟩
  | n + 1, start, h => by
    unfold scanNext
    split_ifs with hb
    · exact .inr ⟨le_rfl, ⟨by omega, hb⟩, fun q h1 h2 => by omega⟩
    · have hfirst : ∀ q, start ≤ q → (q / 64 < bm.size ∧ bitAt bm q = true) → start + 1 ≤ q := by
        intro q hq hq'
        rcases Nat.eq_or_lt_of_le hq with rfl | hlt
        · exact absurd hq'.2 hb
        · exact hlt
      rcases isNext_scanNext n (start + 1) (by omega) with ⟨hmax, hnone⟩ | ⟨hle, hset, hlt⟩
      · exact .inl ⟨hmax, fun q hq hq' => hnone q (hfirst q hq hq') hq'⟩
      · exact .inr ⟨by omega, hset, fun q hq hqr hq' => hlt q (hfirst q hq hq') hqr hq'⟩

end Scans

section Unique

variable {P : ℕ → Prop} {start r r' : ℕ}

theorem IsPrev.unique (h : IsPrev P start r) (h' : IsPrev P start r') : r = r' := by
  rcases h with ⟨rfl, hnone⟩ | ⟨hle, hset, hgt⟩
  · rcases h' with ⟨rfl, -⟩ | ⟨hle', hset', -⟩
    · rfl
    · exact absurd hset' (hnone r' hle')
  · rcases h' with ⟨rfl, hnone'⟩ | ⟨hle', hset', hgt'⟩
    · exact absurd hset (hnone' r hle)
    · rcases Nat.lt_trichotomy r r' with hlt | rfl | hlt
      · exact absurd hset' (hgt r' hlt hle')
      · rfl
      · exact absurd hset (hgt' r hlt hle)

theorem IsNext.unique (h : IsNext P start r) (h' : IsNext P start r') : r = r' := by
  rcases h with ⟨rfl, hnone⟩ | ⟨hle, hset, hlt⟩
  · rcases h' with ⟨rfl, -⟩ | ⟨hle', hset', -⟩
    · rfl
    · exact absurd hset' (hnone r' hle')
  · rcases h' with ⟨rfl, hnone'⟩ | ⟨hle', hset', hlt'⟩
    · exact absurd hset (hnone' r hle)
    · rcases Nat.lt_trichotomy r r' with hr | rfl | hr
      · exact absurd hset (hlt' r hle hr)
      · rfl
      · exact absurd hset' (hlt r' hle' hr)

theorem IsPrev.max_iff (h : IsPrev P start r) (hmax : start < UINT32_MAX) :
    r = UINT32_MAX ↔ ∀ q ≤ start, ¬ P q := by
  rcases h with ⟨rfl, hnone⟩ | ⟨hle, hset, -⟩
  · exact ⟨fun _ => hnone, fun _ => rfl⟩
  · exact ⟨fun hr => by omega, fun hnone => absurd hset (hnone r hle)⟩

theorem IsPrev.isGreatest (h : IsPrev P start r) (hr : r ≠ UINT32_MAX) :
    IsGreatest {q | q ≤ start ∧ P q} r := by
  rcases h with ⟨hmax, -⟩ | ⟨hle, hset, hgt⟩
  · exact absurd hmax hr
  · refine ⟨⟨hle, hset⟩, fun q hq => ?_⟩
    by_contra hlt
    exact hgt q (Nat.lt_of_not_le hlt) hq.1 hq.2

theorem IsNext.max_iff (h : IsNext P start r) (hmax : ∀ q, P q → q < UINT32_MAX) :
    r = UINT32_MAX ↔ ∀ q, start ≤ q → ¬ P q := by
  rcases h with ⟨rfl, hnone⟩ | ⟨hle, hset, -⟩
  · exact ⟨fun _ => hnone, fun _ => rfl⟩
  · exact ⟨fun hr => absurd (hmax r hset) (by omega), fun hnone => absurd hset (hnone r hle)⟩

theorem IsNext.isLeast (h : IsNext P start r) (hr : r ≠ UINT32_MAX) :
    IsLeast {q | start ≤ q ∧ P q} r := by
  rcases h with ⟨hmax, -⟩ | ⟨hle, hset, hlt⟩
  · exact absurd hmax hr
  · refine ⟨⟨hle, hset⟩, fun q hq => ?_⟩
    by_contra hgt
    exact hlt q hq.1 (Nat.lt_of_not_le hgt) hq.2

end Unique

section Equal

variable {bm : Bitmap} {start : ℕ}

/-- The scans of a bitmap from a start inside it stay inside it, and return what a scan position by
position returns: the nearest set bit, or `UINT32_MAX` if there is none. -/
theorem findSetBit_eq_scan (hsize : 64 * bm.size ≤ 2 ^ 32 - 64) (h : start < 64 * bm.size) :
    (∃ r, findPrevSetBit bm start = some r ∧ r = scanPrev bm start ∧
      (r = UINT32_MAX ↔ ∀ q ≤ start, bitAt bm q = false) ∧
      (r ≠ UINT32_MAX → IsGreatest {q | q ≤ start ∧ bitAt bm q = true} r)) ∧
    ∃ r, findNextSetBit bm start = some r ∧ r = scanNext bm (64 * bm.size - start) start ∧
      (r = UINT32_MAX ↔ ∀ q, start ≤ q → q < 64 * bm.size → bitAt bm q = false) ∧
      (r ≠ UINT32_MAX → IsLeast {q | start ≤ q ∧ q < 64 * bm.size ∧ bitAt bm q = true} r) := by
  have hword : start / 64 < bm.size := by omega
  have hlt : ∀ q, q / 64 < bm.size ↔ q < 64 * bm.size := fun q => by omega
  have hmax : 64 * bm.size < UINT32_MAX := by
    simp only [UINT32_MAX]
    omega
  constructor
  · obtain ⟨r, hr, hprev⟩ := findPrevSetBit_spec bm hword
    refine ⟨r, hr, hprev.unique (isPrev_scanPrev bm start), ?_, hprev.isGreatest⟩
    rw [hprev.max_iff (by omega)]
    simp only [Bool.not_eq_true]
  · obtain ⟨r, hr, hnext⟩ := findNextSetBit_spec bm hword
    have hscan := isNext_scanNext bm (64 * bm.size - start) start (by omega)
    simp only [hlt] at hnext hscan
    refine ⟨r, hr, hnext.unique hscan, ?_, hnext.isLeast⟩
    rw [hnext.max_iff fun q hq => by omega]
    simp only [not_and, Bool.not_eq_true]

/-- Four words, in which the bits 63 and 192 are set. -/
def twoBits : Bitmap :=
  ⟨4, fun w => if w = 0 then 1#64 <<< 63 else if w = 3 then 1#64 else 0#64⟩

theorem findSetBit_eq_scan_twoBits :
    findPrevSetBit twoBits 127 = some 63 ∧ findNextSetBit twoBits 127 = some 192 := by
  obtain ⟨⟨r, hr, hprev, -⟩, r', hr', hnext, -⟩ :=
    findSetBit_eq_scan (by decide : 64 * twoBits.size ≤ 2 ^ 32 - 64)
      (by decide : 127 < 64 * twoBits.size)
  have h1 : scanPrev twoBits 127 = 63 := by decide +kernel
  have h2 : scanNext twoBits (64 * twoBits.size - 127) 127 = 192 := by decide +kernel
  exact ⟨hr.trans (congrArg some (hprev.trans h1)), hr'.trans (congrArg some (hnext.trans h2))⟩

end Equal

end Nanomatch
