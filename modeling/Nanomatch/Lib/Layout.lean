import Mathlib.Algebra.BigOperators.Group.List.Basic
import Mathlib.Algebra.Order.Ring.Nat
import Mathlib.Data.List.TakeDrop
import Mathlib.Data.Nat.Notation
import Mathlib.Tactic.Ring

/-!
# Packed layouts

A word codec writes a number into a given number of bytes. A packed struct is the words of its fields
one after the other, so a field is read at the sum of the widths before it, and the fields that are
read make up the bytes. An array of structs is cut into blocks of one size.
-/

section Words

/-- A way to write numbers with a given number of bytes. -/
structure WordCodec where
  encode : ℕ → ℕ → List UInt8
  decode : List UInt8 → ℕ
  length_encode : ∀ n v, (encode n v).length = n
  decode_encode : ∀ {n v}, v < 256 ^ n → decode (encode n v) = v
  decode_lt : ∀ bytes, decode bytes < 256 ^ bytes.length
  encode_decode : ∀ bytes, encode bytes.length (decode bytes) = bytes

namespace WordCodec

/-- The low byte comes first. -/
def leBytes : ℕ → ℕ → List UInt8
  | 0, _ => []
  | n + 1, v => UInt8.ofNat v :: leBytes n (v / 256)

def ofLE : List UInt8 → ℕ
  | [] => 0
  | b :: bytes => b.toNat + 256 * ofLE bytes

theorem length_leBytes : ∀ n v, (leBytes n v).length = n
  | 0, _ => rfl
  | n + 1, v => congrArg (· + 1) (length_leBytes n (v / 256))

theorem ofLE_leBytes : ∀ {n v : ℕ}, v < 256 ^ n → ofLE (leBytes n v) = v
  | 0, v, h => by
    rw [pow_zero, Nat.lt_one_iff] at h
    rw [h]
    rfl
  | n + 1, v, h => by
    have hrest : v / 256 < 256 ^ n := Nat.div_lt_of_lt_mul (by rwa [pow_succ, mul_comm] at h)
    rw [leBytes, ofLE, ofLE_leBytes hrest, UInt8.toNat_ofNat']
    exact Nat.mod_add_div v 256

theorem ofLE_lt : ∀ bytes, ofLE bytes < 256 ^ bytes.length
  | [] => Nat.one_pos
  | b :: bytes => by
    have hb : b.toNat < 256 := b.toNat_lt
    have ih := ofLE_lt bytes
    rw [ofLE, List.length_cons, pow_succ]
    omega

theorem leBytes_ofLE : ∀ bytes, leBytes bytes.length (ofLE bytes) = bytes
  | [] => rfl
  | b :: bytes => by
    have hb : b.toNat < 256 := b.toNat_lt
    have hdiv : (b.toNat + 256 * ofLE bytes) / 256 = ofLE bytes := by omega
    have hlow : UInt8.ofNat (b.toNat + 256 * ofLE bytes) = b := by
      rw [← UInt8.toNat_inj, UInt8.toNat_ofNat']
      omega
    rw [ofLE, List.length_cons, leBytes, hdiv, hlow, leBytes_ofLE bytes]

def littleEndian : WordCodec where
  encode := leBytes
  decode := ofLE
  length_encode := length_leBytes
  decode_encode := ofLE_leBytes
  decode_lt := ofLE_lt
  encode_decode := leBytes_ofLE

/-- The high byte comes first. -/
def bigEndian : WordCodec where
  encode n v := (leBytes n v).reverse
  decode bytes := ofLE bytes.reverse
  length_encode n v := by rw [List.length_reverse, length_leBytes]
  decode_encode h := by rw [List.reverse_reverse, ofLE_leBytes h]
  decode_lt bytes := by
    have h := ofLE_lt bytes.reverse
    rwa [List.length_reverse] at h
  encode_decode bytes := by
    have h := leBytes_ofLE bytes.reverse
    rw [List.length_reverse] at h
    rw [h, List.reverse_reverse]

end WordCodec

end Words

section Structs

/-- The fields of a packed struct, in the order of their declaration. -/
structure Layout (F : Type*) where
  fields : List F
  width : F → ℕ

namespace Layout

variable {F : Type*} (l : Layout F) (c : WordCodec) {v w : F → ℕ} {f : F}
  {pre bytes q : List UInt8}

def size : ℕ := (l.fields.map l.width).sum

/-- The struct whose fields hold `v`. -/
def encode (v : F → ℕ) : List UInt8 := l.fields.flatMap fun f => c.encode (l.width f) (v f)

theorem length_encode (v : F → ℕ) : (l.encode c v).length = l.size := by
  simp [encode, size, List.length_flatMap, c.length_encode]

theorem encode_congr (h : ∀ f ∈ l.fields, v f = w f) : l.encode c v = l.encode c w :=
  List.flatMap_congr fun f hf => by rw [h f hf]

variable [DecidableEq F]

/-- Where the field begins. -/
def offset (f : F) : ℕ := ((l.fields.takeWhile (· ≠ f)).map l.width).sum

/-- The bytes of the field `f` of the struct at `off`. -/
def bytesOf (bytes : List UInt8) (off : ℕ) (f : F) : List UInt8 :=
  (bytes.drop (off + l.offset f)).take (l.width f)

/-- What the field `f` of the struct at `off` holds. -/
def read (bytes : List UInt8) (off : ℕ) (f : F) : ℕ := c.decode (l.bytesOf bytes off f)

/-- The fields before `f`, which the offset is the width of. -/
theorem fields_split (hf : f ∈ l.fields) : ∃ before after, l.fields = before ++ f :: after ∧
    l.offset f = (before.map l.width).sum := by
  obtain ⟨before, after, h, hnot⟩ := List.eq_append_cons_of_mem hf
  have hbefore : ∀ g ∈ before, decide (g ≠ f) = true := fun g hg =>
    decide_eq_true fun he => hnot (he ▸ hg)
  refine ⟨before, after, h, ?_⟩
  rw [offset, h, List.takeWhile_append_of_pos hbefore, List.takeWhile_cons_of_neg (by simp),
    List.append_nil]

theorem offset_add_width_le (hf : f ∈ l.fields) : l.offset f + l.width f ≤ l.size := by
  obtain ⟨before, after, h, hoff⟩ := l.fields_split hf
  rw [size, h, hoff, List.map_append, List.sum_append, List.map_cons, List.sum_cons]
  omega

theorem bytesOf_encode (hf : f ∈ l.fields) (v : F → ℕ) :
    l.bytesOf (pre ++ (l.encode c v ++ q)) pre.length f = c.encode (l.width f) (v f) := by
  obtain ⟨before, after, h, hoff⟩ := l.fields_split hf
  have hlen : (before.flatMap fun f => c.encode (l.width f) (v f)).length = l.offset f := by
    simp [hoff, List.length_flatMap, c.length_encode]
  rw [bytesOf, ← List.drop_drop, List.drop_left, encode, h, List.flatMap_append, List.flatMap_cons,
    List.append_assoc, List.drop_left' hlen, List.append_assoc]
  exact List.take_left' (c.length_encode _ _)

/-- A field that is written is read back. -/
theorem read_encode (hf : f ∈ l.fields) (hv : v f < 256 ^ l.width f) :
    l.read c (pre ++ (l.encode c v ++ q)) pre.length f = v f := by
  rw [read, l.bytesOf_encode c hf, c.decode_encode hv]

theorem read_lt (hf : f ∈ l.fields) (h : bytes.length = l.size) :
    l.read c bytes 0 f < 256 ^ l.width f := by
  have hlt := c.decode_lt (l.bytesOf bytes 0 f)
  have hle := l.offset_add_width_le hf
  rwa [bytesOf, List.length_take, List.length_drop, Nat.min_eq_left (by omega)] at hlt

/-- The fields that are read make up the bytes. -/
theorem encode_read : ∀ {l : Layout F} {bytes : List UInt8}, l.fields.Nodup →
    bytes.length = l.size → l.encode c (l.read c bytes 0) = bytes
  | ⟨[], width⟩, bytes, _, h => (List.length_eq_zero_iff.1 h).symm
  | ⟨f :: fields, width⟩, bytes, hnodup, h => by
    obtain ⟨hf, hnodup⟩ := List.nodup_cons.1 hnodup
    set rest : Layout F := ⟨fields, width⟩ with hrest
    have hsize : bytes.length = width f + rest.size := h
    have hfirst : c.encode (width f) (Layout.read ⟨f :: fields, width⟩ c bytes 0 f) =
        bytes.take (width f) := by
      have hlen : (bytes.take (width f)).length = width f := by
        rw [List.length_take]
        omega
      have hoff : Layout.offset ⟨f :: fields, width⟩ f = 0 := by simp [offset]
      rw [read, bytesOf, hoff]
      conv_rhs => rw [← c.encode_decode (bytes.take (width f)), hlen]
      rfl
    have hothers : ∀ g ∈ fields, Layout.read ⟨f :: fields, width⟩ c bytes 0 g =
        rest.read c (bytes.drop (width f)) 0 g := by
      intro g hg
      have hne : f ≠ g := fun he => hf (he ▸ hg)
      have hoff : Layout.offset ⟨f :: fields, width⟩ g = width f + rest.offset g := by
        simp [offset, hne, hrest]
      rw [read, read, bytesOf, bytesOf, hoff, List.drop_drop, Nat.zero_add, Nat.zero_add]
    have ih : rest.encode c (rest.read c (bytes.drop (width f)) 0) = bytes.drop (width f) :=
      encode_read hnodup (by rw [List.length_drop]; omega)
    rw [← rest.encode_congr c hothers] at ih
    have hcons : Layout.encode ⟨f :: fields, width⟩ c (Layout.read ⟨f :: fields, width⟩ c bytes 0) =
        c.encode (width f) (Layout.read ⟨f :: fields, width⟩ c bytes 0 f) ++
          rest.encode c (Layout.read ⟨f :: fields, width⟩ c bytes 0) := rfl
    rw [hcons, hfirst, ih, List.take_append_drop]

section Arrays

/-- An array of structs is read struct by struct. -/
theorem read_array {vs : List (F → ℕ)} {i : ℕ} (hi : i < vs.length) (hf : f ∈ l.fields)
    (hv : vs[i] f < 256 ^ l.width f) :
    l.read c (vs.flatMap (l.encode c)) (i * l.size) f = vs[i] f := by
  have hlen : ((vs.take i).flatMap (l.encode c)).length = i * l.size := by
    simp [List.length_flatMap, l.length_encode, Nat.min_eq_left hi.le]
  have hsplit : vs.flatMap (l.encode c) = (vs.take i).flatMap (l.encode c) ++
      (l.encode c vs[i] ++ (vs.drop (i + 1)).flatMap (l.encode c)) := by
    rw [← List.flatMap_cons, ← List.drop_eq_getElem_cons hi, ← List.flatMap_append,
      List.take_append_drop]
  rw [hsplit, ← hlen]
  exact l.read_encode c hf hv

/-- Bytes that structs fit into are an array of structs. -/
theorem exists_array (hnodup : l.fields.Nodup) : ∀ {n : ℕ} {bytes : List UInt8},
    bytes.length = n * l.size → ∃ vs : List (F → ℕ), vs.length = n ∧
      (∀ v ∈ vs, ∀ f ∈ l.fields, v f < 256 ^ l.width f) ∧ bytes = vs.flatMap (l.encode c)
  | 0, bytes, h => by
    rw [Nat.zero_mul, List.length_eq_zero_iff] at h
    exact ⟨[], rfl, fun v hv => absurd hv List.not_mem_nil, h⟩
  | n + 1, bytes, h => by
    rw [Nat.succ_mul] at h
    have hfirst : (bytes.take l.size).length = l.size := by
      rw [List.length_take]
      omega
    have hrest : (bytes.drop l.size).length = n * l.size := by
      rw [List.length_drop]
      omega
    obtain ⟨vs, hn, hlt, hvs⟩ := exists_array hnodup hrest
    refine ⟨l.read c (bytes.take l.size) 0 :: vs, congrArg (· + 1) hn, ?_, ?_⟩
    · rintro v hv f hf
      rcases List.mem_cons.1 hv with rfl | hv
      · exact l.read_lt c hf hfirst
      · exact hlt v hv f hf
    · rw [List.flatMap_cons, encode_read c hnodup hfirst, ← hvs, List.take_append_drop]

end Arrays

end Layout

end Structs
