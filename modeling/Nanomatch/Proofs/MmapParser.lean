import Nanomatch.MmapParser

/-!
# The record file is read as it was written

A file is accepted if it is an array of records, and not empty. There is one list of records that it
is the array of, and these are the records that are read. A constructor that throws holds no more of
the system than before, and one that returns is undone by its destructor.
-/

namespace Nanomatch

variable {file : List UInt8} {off n i : ℕ} {records : List OrderRecord}

section Bytes

theorem readLE_eq : ∀ {n off : ℕ}, off + n ≤ file.length →
    readLE file off n = some (WordCodec.ofLE ((file.drop off).take n))
  | 0, _, _ => rfl
  | n + 1, off, h => by
    have hlt : off < file.length := by omega
    rw [readLE, List.getElem?_eq_getElem hlt, readLE_eq (by omega), List.drop_eq_getElem_cons hlt]
    rfl

theorem readLE_none (hn : 0 < n) (h : file.length ≤ off) : readLE file off n = none := by
  obtain ⟨n, rfl⟩ := Nat.exists_eq_add_one.2 hn
  rw [readLE, List.getElem?_eq_none h]
  rfl

end Bytes

namespace OrderRecord

section Fields

/-- The record whose fields hold `v`. -/
def ofValues (v : RecordField → ℕ) : OrderRecord where
  orderId := UInt64.ofNat (v .orderId)
  price := UInt32.ofNat (v .price)
  qty := UInt32.ofNat (v .qty)
  side := UInt8.ofNat (v .side)
  type := UInt8.ofNat (v .type)

theorem mem_fields (f : RecordField) : f ∈ layout.fields := by
  cases f <;> decide

theorem value_lt (r : OrderRecord) : ∀ f, r.value f < 256 ^ layout.width f
  | .orderId => r.orderId.toNat_lt
  | .price => r.price.toNat_lt
  | .qty => r.qty.toNat_lt
  | .side => r.side.toNat_lt
  | .type => r.type.toNat_lt

@[simp] theorem ofValues_value (r : OrderRecord) : ofValues r.value = r := by
  simp [ofValues, value]

theorem value_ofValues {v : RecordField → ℕ} (h : ∀ f, v f < 256 ^ layout.width f) :
    (ofValues v).value = v := by
  funext f
  have hf := h f
  cases f <;> simp only [value, ofValues, UInt64.toNat_ofNat', UInt32.toNat_ofNat',
    UInt8.toNat_ofNat'] <;> exact Nat.mod_eq_of_lt hf

/-- Records as the values of their fields. -/
theorem pack_array (records : List OrderRecord) :
    records.flatMap pack = (records.map value).flatMap (layout.encode .littleEndian) := by
  rw [List.flatMap_map]
  rfl

theorem length_array (records : List OrderRecord) :
    (records.flatMap pack).length = records.length * size := by
  have hlen : ∀ r : OrderRecord, r.pack.length = size := fun r => layout.length_encode _ _
  simp [List.length_flatMap, hlen]

theorem size_pos : 0 < size := by decide

end Fields

section Read

/-- A record that lies in the file is read field by field. -/
theorem read_eq (h : i * size + size ≤ file.length) :
    read file i = some (ofValues (layout.read .littleEndian file (i * size))) := by
  have hfield : ∀ f : RecordField, readLE file (i * size + layout.offset f) f.width =
      some (layout.read .littleEndian file (i * size) f) := by
    intro f
    have hle : layout.offset f + f.width ≤ size := layout.offset_add_width_le (mem_fields f)
    exact readLE_eq (by omega)
  simp only [read, hfield]
  rfl

theorem read_array (hi : i < records.length) :
    read (records.flatMap pack) i = some records[i] := by
  have hle : i * size + size ≤ (records.flatMap pack).length := by
    rw [length_array, ← Nat.succ_mul]
    exact Nat.mul_le_mul_right size hi
  have hlt : i < (records.map value).length := by rwa [List.length_map]
  rw [read_eq hle, pack_array]
  have hvalue : layout.read .littleEndian ((records.map value).flatMap
      (layout.encode .littleEndian)) (i * size) = records[i].value := by
    funext f
    have hv : (records.map value)[i] f < 256 ^ layout.width f := by
      rw [List.getElem_map]
      exact value_lt _ f
    rw [size, layout.read_array .littleEndian hlt (mem_fields f) hv, List.getElem_map]
  rw [hvalue, ofValues_value]

theorem read_getElem? (records : List OrderRecord) (i : ℕ) :
    read (records.flatMap pack) i = records[i]? := by
  rcases Nat.lt_or_ge i records.length with hi | hi
  · rw [read_array hi, List.getElem?_eq_getElem hi]
  · have hle : (records.flatMap pack).length ≤ i * size + layout.offset .orderId := by
      rw [length_array]
      exact Nat.le_add_right_of_le (Nat.mul_le_mul_right size hi)
    simp only [read]
    rw [readLE_none (by decide) hle, List.getElem?_eq_none hi]
    rfl

theorem exists_records (h : file.length = n * size) :
    ∃ records : List OrderRecord, records.length = n ∧ file = records.flatMap pack := by
  obtain ⟨vs, hn, hlt, rfl⟩ := layout.exists_array .littleEndian (by decide) h
  have hvalue : (vs.map ofValues).map value = vs := by
    rw [List.map_map]
    exact (List.map_congr_left fun v hv =>
      value_ofValues fun f => hlt v hv f (mem_fields f)).trans (List.map_id vs)
  exact ⟨vs.map ofValues, by rw [List.length_map, hn], by rw [pack_array, hvalue]⟩

end Read

end OrderRecord

/-- The calls of the constructor find a file of these bytes. -/
def Kernel.Serves (k : Kernel) (path : String) (bytes : List UInt8) : Prop :=
  ∃ fd, k.openFile path = some fd ∧ k.fstat fd = some bytes.length ∧
    k.mmap fd bytes.length = some bytes

/-- A call of the constructor fails, or the size of the file is wrong, and the error says so. -/
inductive Kernel.Refuses (k : Kernel) (path : String) : String → Prop
  | openFile : k.openFile path = none →
      Refuses k path ("MmapParser: failed to open '" ++ path ++ "'")
  | fstat {fd : ℕ} : k.openFile path = some fd → k.fstat fd = none →
      Refuses k path ("MmapParser: fstat failed for '" ++ path ++ "'")
  | size {fd size : ℕ} : k.openFile path = some fd → k.fstat fd = some size →
      size = 0 ∨ size % OrderRecord.size ≠ 0 →
      Refuses k path ("MmapParser: '" ++ path ++ "' size (" ++ toString size ++
        " bytes) is not a non-zero multiple of record size (" ++ toString OrderRecord.size ++ ")")
  | mmap {fd size : ℕ} : k.openFile path = some fd → k.fstat fd = some size →
      ¬ (size = 0 ∨ size % OrderRecord.size ≠ 0) → k.mmap fd size = none →
      Refuses k path ("MmapParser: mmap failed for '" ++ path ++ "'")

/-- The parser holds what the calls of the constructor return. -/
structure Kernel.Maps (k : Kernel) (path : String) (p : MmapParser) : Prop where
  openFile : k.openFile path = some p.fd
  fstat : k.fstat p.fd = some p.size
  whole : ¬ (p.size = 0 ∨ p.size % OrderRecord.size ≠ 0)
  mmap : k.mmap p.fd p.size = some p.data
  count : p.count = p.size / OrderRecord.size

namespace MmapParser

section Calls

variable {k : Kernel} {path error : String} {p : MmapParser}

theorem closed_opened (h : Held) (fd : ℕ) : (h.opened fd).closed fd = h := by
  simp [Held.opened, Held.closed]

theorem new_refuses (h : Held) (hr : k.Refuses path error) :
    new k h path = (h, .error error) := by
  unfold MmapParser.new
  cases hr with
  | openFile hopen => simp only [hopen]
  | fstat hopen hstat => simp only [hopen, hstat, closed_opened]
  | size hopen hstat hbad => simp only [hopen, hstat, if_pos hbad, closed_opened]
  | mmap hopen hstat hgood hmap => simp only [hopen, hstat, if_neg hgood, hmap, closed_opened]

theorem new_maps (h : Held) (hp : k.Maps path p) :
    new k h path = ((h.opened p.fd).mapped, .ok p) := by
  unfold MmapParser.new
  simp only [hp.openFile, hp.fstat, if_neg hp.whole, hp.mmap, ← hp.count]

theorem refuses_or_maps (k : Kernel) (path : String) :
    (∃ error, k.Refuses path error) ∨ ∃ p, k.Maps path p := by
  rcases hopen : k.openFile path with _ | fd
  · exact .inl ⟨_, .openFile hopen⟩
  rcases hstat : k.fstat fd with _ | size
  · exact .inl ⟨_, .fstat hopen hstat⟩
  by_cases hbad : size = 0 ∨ size % OrderRecord.size ≠ 0
  · exact .inl ⟨_, .size hopen hstat hbad⟩
  rcases hmap : k.mmap fd size with _ | data
  · exact .inl ⟨_, .mmap hopen hstat hbad hmap⟩
  · exact .inr ⟨⟨fd, size, size / OrderRecord.size, data⟩, hopen, hstat, hbad, hmap, rfl⟩

theorem new_error_iff (h h' : Held) :
    new k h path = (h', .error error) ↔ h' = h ∧ k.Refuses path error := by
  constructor
  · intro hnew
    rcases refuses_or_maps k path with ⟨error', hr⟩ | ⟨p, hp⟩
    · obtain ⟨rfl, herror⟩ := Prod.mk.inj ((new_refuses h hr).symm.trans hnew)
      exact ⟨rfl, Except.error.inj herror ▸ hr⟩
    · exact absurd (congrArg Prod.snd ((new_maps h hp).symm.trans hnew)) (by simp)
  · rintro ⟨rfl, hr⟩
    exact new_refuses h' hr

theorem new_ok_iff (h h' : Held) :
    new k h path = (h', .ok p) ↔ h' = (h.opened p.fd).mapped ∧ k.Maps path p := by
  constructor
  · intro hnew
    rcases refuses_or_maps k path with ⟨error, hr⟩ | ⟨p', hp⟩
    · exact absurd (congrArg Prod.snd ((new_refuses h hr).symm.trans hnew)) (by simp)
    · obtain ⟨hheld, hp'⟩ := Prod.mk.inj ((new_maps h hp).symm.trans hnew)
      obtain rfl : p' = p := Except.ok.inj hp'
      exact ⟨hheld.symm, hp⟩
  · rintro ⟨rfl, hp⟩
    exact new_maps h hp

end Calls

section Records

/-- The parser of a file that holds `records`. -/
structure Parses (p : MmapParser) (records : List OrderRecord) : Prop where
  ne_nil : records ≠ []
  data : p.data = records.flatMap OrderRecord.pack
  count : p.count = records.length

theorem Parses.getRecord {p : MmapParser} (hp : p.Parses records) (i : ℕ) :
    p.getRecord i = records[i]? := by
  rw [MmapParser.getRecord, hp.data, OrderRecord.read_getElem?]

variable {k : Kernel} {path : String} (h : Held)

theorem destroy_mapped (p : MmapParser) : p.destroy (h.opened p.fd).mapped = h := by
  simp [destroy, Held.opened, Held.mapped, Held.unmapped, Held.closed]

/-- The bytes of a mapping are an array of records. -/
theorem maps_records {p : MmapParser} (hp : k.Maps path p)
    (hmmap : ∀ fd size data, k.mmap fd size = some data → data.length = size) :
    ∃ records, p.Parses records := by
  have hlen := hmmap p.fd p.size p.data hp.mmap
  obtain ⟨hsize, hmod⟩ := not_or.1 hp.whole
  rw [not_not] at hmod
  have hcount : p.data.length = p.count * OrderRecord.size := by
    rw [hlen, hp.count, Nat.div_mul_cancel (Nat.dvd_of_mod_eq_zero hmod)]
  obtain ⟨records, hrecords, hdata⟩ := OrderRecord.exists_records hcount
  refine ⟨records, ?_, hdata, hrecords.symm⟩
  rintro rfl
  rw [hdata] at hlen
  exact hsize hlen.symm

/-- The constructor throws an error just where a call fails or the size is wrong, and then holds
nothing. Else it returns a parser of what was mapped, which is the array of one list of records, and
the destructor releases what it holds. -/
theorem new_spec (k : Kernel) (path : String)
    (hmmap : ∀ fd size data, k.mmap fd size = some data → data.length = size) :
    (∀ h' error, new k h path = (h', .error error) ↔ h' = h ∧ k.Refuses path error) ∧
      (∀ h' p, new k h path = (h', .ok p) ↔ h' = (h.opened p.fd).mapped ∧ k.Maps path p) ∧
      ∀ h' p, new k h path = (h', .ok p) → p.destroy h' = h ∧
        ∃! records, p.Parses records ∧ ∀ i, p.getRecord i = records[i]? := by
  refine ⟨fun h' error => new_error_iff h h', fun h' p => new_ok_iff h h', fun h' p hnew => ?_⟩
  obtain ⟨rfl, hp⟩ := (new_ok_iff h h').1 hnew
  obtain ⟨records, hrecords⟩ := maps_records hp hmmap
  refine ⟨destroy_mapped h p, records, ⟨hrecords, hrecords.getRecord⟩, ?_⟩
  rintro records' ⟨-, hread⟩
  exact List.ext_getElem? fun i => (hread i).symm.trans (hrecords.getRecord i)

/-- An array of records is accepted and read back. -/
theorem new_records (hne : records ≠ [])
    (hs : k.Serves path (records.flatMap OrderRecord.pack)) : ∃ p : MmapParser,
      new k h path = ((h.opened p.fd).mapped, .ok p) ∧ p.Parses records := by
  obtain ⟨fd, hopen, hstat, hmap⟩ := hs
  have hlen := OrderRecord.length_array records
  have hgood : ¬ ((records.flatMap OrderRecord.pack).length = 0 ∨
      (records.flatMap OrderRecord.pack).length % OrderRecord.size ≠ 0) := by
    rw [hlen, not_or, not_not, Nat.mul_mod_left]
    exact ⟨Nat.mul_ne_zero (mt List.length_eq_zero_iff.1 hne) (by decide), rfl⟩
  have hcount : records.length = (records.flatMap OrderRecord.pack).length / OrderRecord.size := by
    rw [hlen, Nat.mul_div_cancel _ OrderRecord.size_pos]
  refine ⟨⟨fd, (records.flatMap OrderRecord.pack).length, records.length,
    records.flatMap OrderRecord.pack⟩, new_maps h ⟨hopen, hstat, hgood, hmap, hcount⟩, hne, rfl, rfl⟩

end Records

section Examples

/-- A system with one file. -/
def oneFile (bytes : List UInt8) : Kernel where
  openFile _ := some 3
  fstat _ := some bytes.length
  seekEnd _ := some bytes.length
  mmap _ size := if size = bytes.length then some bytes else none

theorem oneFile_serves (path : String) (bytes : List UInt8) : (oneFile bytes).Serves path bytes :=
  ⟨3, rfl, rfl, if_pos rfl⟩

/-- One record of zeros is mapped and read, and there is no second one. -/
theorem new_spec_oneRecord : ∃ p, new (oneFile (List.replicate 18 0)) {} "orders.bin" =
      (⟨[3], 1⟩, .ok p) ∧ p.getRecord 0 = some ⟨0, 0, 0, 0, 0⟩ ∧ p.getRecord 1 = none ∧
      p.destroy ⟨[3], 1⟩ = {} := by
  have hmmap : ∀ fd size data, (oneFile (List.replicate 18 0)).mmap fd size = some data →
      data.length = size := by
    intro fd size data h
    simp only [oneFile] at h
    split_ifs at h with hsize
    cases h
    exact hsize.symm
  obtain ⟨-, hok, hspec⟩ := new_spec {} (oneFile (List.replicate 18 0)) "orders.bin" hmmap
  have hnew := (hok _ ⟨3, 18, 1, List.replicate 18 0⟩).2 ⟨rfl, rfl, rfl, by decide, rfl, rfl⟩
  exact ⟨_, hnew, by decide, by decide, (hspec _ _ hnew).1⟩

end Examples

end MmapParser

end Nanomatch
