import Mathlib.Tactic.Choose
import Nanomatch.ItchProtocols

/-!
# Reading the wire format

A read in the file succeeds, and what it gives depends on the bytes it reads only. So a struct that
lies in the file is read, and read the same whatever stands before or after it.
-/

namespace Nanomatch

variable {file pre q : List UInt8} {off payload n : ℕ} {t : MessageType} {f : ItchField}

section Bytes

theorem readBE_of_le (h : off + n ≤ file.length) : ∃ v, readBE file off n = some v := by
  induction n with
  | zero => exact ⟨0, rfl⟩
  | succ n ih =>
    obtain ⟨v, hv⟩ := ih (by omega)
    have hlt : off + n < file.length := by omega
    simp [readBE, hv, List.getElem?_eq_getElem hlt]

/-- What stands after the bytes that are read does not matter. -/
theorem readBE_append (h : off + n ≤ file.length) : readBE (file ++ q) off n = readBE file off n := by
  induction n with
  | zero => rfl
  | succ n ih =>
    have hlt : off + n < file.length := by omega
    simp only [readBE, ih (by omega), List.getElem?_append_left hlt]

/-- What stands before the bytes that are read does not matter. -/
theorem readBE_drop (off n : ℕ) : readBE (pre ++ file) (pre.length + off) n = readBE file off n := by
  induction n with
  | zero => rfl
  | succ n ih =>
    have hge : pre.length ≤ pre.length + off + n := by omega
    have hsub : pre.length + off + n - pre.length = off + n := by omega
    simp only [readBE, ih, List.getElem?_append_right hge, hsub]

end Bytes

namespace MessageType

section Structs

/-- A field of a struct lies in the struct. -/
theorem offset_add_width_le (hf : f ∈ t.fields) : t.offset f + f.width ≤ t.size := by
  cases t <;> revert f <;> decide

theorem size_pos (t : MessageType) : 0 < t.size := by
  cases t <;> decide

theorem readField_of_le (h : payload + t.size ≤ file.length) (hf : f ∈ t.fields) :
    ∃ v, t.readField file payload f = some v := by
  have := offset_add_width_le hf
  exact readBE_of_le (by omega)

theorem readField_append (h : payload + t.size ≤ file.length) (hf : f ∈ t.fields) :
    t.readField (file ++ q) payload f = t.readField file payload f := by
  have := offset_add_width_le hf
  exact readBE_append (by omega)

theorem readField_drop (payload : ℕ) (f : ItchField) :
    t.readField (pre ++ file) (pre.length + payload) f = t.readField file payload f := by
  unfold readField
  rw [Nat.add_assoc]
  exact readBE_drop _ _

/-- The fields that are read determine the message. -/
theorem read_congr {file' : List UInt8} {payload' : ℕ}
    (h : ∀ f ∈ t.fields, t.readField file payload f = t.readField file' payload' f) :
    t.read file payload = t.read file' payload' := by
  unfold MessageType.read
  cases t <;> simp only [fields, List.forall_mem_cons] at h <;> simp only [h]

theorem read_of_le (h : payload + t.size ≤ file.length) : ∃ m, t.read file payload = some m := by
  have hread : ∀ f ∈ t.fields, ∃ v, t.readField file payload f = some v := fun f hf =>
    readField_of_le h hf
  choose! v hv using hread
  unfold MessageType.read
  cases t <;> simp only [fields, List.forall_mem_cons] at hv <;> simp [hv]

end Structs

end MessageType

end Nanomatch
