import Nanomatch.Proofs.ItchApart
import Nanomatch.Wire

/-!
# The parser reads what the venue wrote

Bytes that are read are those that were written, so a feed is taken for the messages that it was made
of. And every feed of frames that hold their structs was made of some packets.
-/

namespace Nanomatch

open Framing ItchParser

variable {file pre q f rest : List UInt8} {off payload n : ℕ} {t : MessageType} {p : Packet}
  {packets : List Packet} {v w : ItchField → ℕ}

section Bytes

theorem readBE_eq (h : off + n ≤ file.length) :
    readBE file off n = some (WordCodec.bigEndian.decode ((file.drop off).take n)) := by
  induction n with
  | zero => rfl
  | succ n ih =>
    have hlt : off + n < file.length := by omega
    have hlt' : n < (file.drop off).length := by
      rw [List.length_drop]
      omega
    have htake : (file.drop off).take (n + 1) = (file.drop off).take n ++ [file[off + n]] := by
      rw [List.take_succ_eq_append_getElem hlt', List.getElem_drop]
    have hdecode : WordCodec.bigEndian.decode ((file.drop off).take (n + 1)) =
        file[off + n].toNat + 256 * WordCodec.bigEndian.decode ((file.drop off).take n) := by
      rw [htake]
      change WordCodec.ofLE (List.reverse _) = _
      rw [List.reverse_append]
      rfl
    rw [readBE, ih (by omega), List.getElem?_eq_getElem hlt, hdecode]
    simp only [Option.bind_eq_bind, Option.bind_some, Option.some.injEq]
    omega

end Bytes

namespace MessageType

section Structs

theorem ofByte_byte (t : MessageType) : ofByte t.byte = some t := by
  cases t <;> rfl

theorem ofByte_eq_some {b : UInt8} (h : ofByte b = some t) : b = t.byte := by
  unfold ofByte at h
  split_ifs at h with h1 h2 h3 h4 h5 h6 h7 <;> cases h <;> assumption

theorem fields_nodup (t : MessageType) : t.fields.Nodup := by
  cases t <;> decide

theorem take_congr (h : ∀ f ∈ t.fields, v f = w f) : t.take v = t.take w := by
  unfold MessageType.take
  cases t <;> simp only [fields, List.forall_mem_cons] at h <;> simp only [h]

/-- A struct that lies in the file is read field by field. -/
theorem read_eq (h : payload + t.size ≤ file.length) :
    t.read file payload = some (t.take (t.layout.read .bigEndian file payload)) := by
  have hread : ∀ f ∈ t.fields, t.readField file payload f =
      some (t.layout.read .bigEndian file payload f) := by
    intro f hf
    have hle : t.offset f + f.width ≤ t.size := offset_add_width_le hf
    exact readBE_eq (by omega)
  unfold MessageType.read
  cases t <;> simp only [fields, List.forall_mem_cons] at hread <;> simp [hread, MessageType.take]

/-- The struct that was written is read. -/
theorem read_encode (hv : ∀ f ∈ t.fields, v f < 256 ^ f.width) :
    t.read (pre ++ (t.layout.encode .bigEndian v ++ q)) pre.length = some (t.take v) := by
  have hlen : (t.layout.encode .bigEndian v).length = t.size := t.layout.length_encode _ v
  rw [read_eq (by simp only [List.length_append]; omega)]
  exact congrArg some (take_congr fun f hf => t.layout.read_encode .bigEndian hf (hv f hf))

end Structs

end MessageType

namespace Packet

section Frames

theorem bytes_pos (p : Packet) : 1 ≤ p.bytes.length := by
  cases p <;> exact Nat.le_add_left 1 _

theorem frame_eq (p : Packet) : p.frame =
    UInt8.ofNat (p.bytes.length / 256) :: UInt8.ofNat p.bytes.length :: p.bytes := rfl

theorem Fits.isFrame (h : p.Fits) : IsFrame p.frame := by
  have hlt := h.1
  refine ⟨_, _, p.bytes, p.frame_eq, ?_, p.bytes_pos⟩
  rw [UInt8.toNat_ofNat', UInt8.toNat_ofNat']
  omega

theorem size_le_bytes (t : MessageType) (v : ItchField → ℕ) (tail : List UInt8) :
    t.size + 1 ≤ (known t v tail).bytes.length := by
  have hsize : (t.layout.encode .bigEndian v).length = t.size := t.layout.length_encode _ v
  rw [bytes, List.length_cons, List.length_append, hsize]
  omega

/-- The frame is taken for the message of its packet, whatever follows. -/
theorem Fits.messageOf (h : p.Fits) (rest : List UInt8) :
    messageOf (p.frame ++ rest) = p.message := by
  obtain ⟨-, h⟩ := h
  rw [frame_eq]
  generalize UInt8.ofNat (p.bytes.length / 256) = high
  generalize UInt8.ofNat p.bytes.length = low
  rcases p with ⟨t, v, tail⟩ | ⟨messageType, tail⟩
  · have hsize := size_le_bytes t v tail
    set feed := high :: low :: (known t v tail).bytes ++ rest with hfeed
    have hbyte : MessageType.ofByte (feed.getD 2 0) = some t := MessageType.ofByte_byte t
    have hle : t.size ≤ feed.length - 3 := by
      rw [hfeed]
      simp only [List.length_append, List.length_cons]
      omega
    have hread : t.read ([high, low, t.byte] ++ (t.layout.encode .bigEndian v ++ (tail ++ rest))) 3 =
        some (t.take v) := MessageType.read_encode h
    rw [messageOf_read hbyte hle]
    rw [← List.append_assoc (t.layout.encode .bigEndian v)] at hread
    exact hread
  · exact messageOf_unknown h

theorem Fits.whole (h : p.Fits) : Whole p.frame := by
  intro t ht
  rw [frame_eq] at ht ⊢
  rcases p with ⟨t', v, tail⟩ | ⟨messageType, tail⟩
  · obtain rfl : t' = t := Option.some.inj ((MessageType.ofByte_byte t').symm.trans ht)
    have hsize := size_le_bytes t' v tail
    simp only [List.length_cons]
    omega
  · exact absurd ht (h.2 ▸ Option.not_mem_none t)

/-- A frame that holds its struct is that of some packet. -/
theorem exists_frame (hf : IsFrame f) (hw : Whole f) : ∃ p : Packet, p.Fits ∧ p.frame = f := by
  obtain ⟨high, low, packet, rfl, hlen, hpos⟩ := hf
  have hhigh := high.toNat_lt
  have hlow := low.toNat_lt
  have hlt : packet.length < 2 ^ 16 := by omega
  have hframe : ∀ p : Packet, p.bytes = packet → p.frame = high :: low :: packet := by
    intro p hp
    have h1 : UInt8.ofNat (packet.length / 256) = high := by
      rw [← UInt8.toNat_inj, UInt8.toNat_ofNat']
      omega
    have h2 : UInt8.ofNat packet.length = low := by
      rw [← UInt8.toNat_inj, UInt8.toNat_ofNat']
      omega
    rw [frame_eq, hp, h1, h2]
  obtain ⟨messageType, body, rfl⟩ := List.exists_cons_of_length_pos hpos
  rcases ht : MessageType.ofByte messageType with _ | t
  · exact ⟨.other messageType body, ⟨hlt, ht⟩, hframe _ rfl⟩
  · obtain rfl := MessageType.ofByte_eq_some ht
    have hsize : t.size ≤ body.length := hw t ht
    have htake : (body.take t.size).length = t.layout.size := by
      rw [List.length_take, Nat.min_eq_left hsize]
      rfl
    have hencode : t.layout.encode .bigEndian (t.layout.read .bigEndian (body.take t.size) 0) =
        body.take t.size := Layout.encode_read .bigEndian t.fields_nodup htake
    have hbytes : (known t (t.layout.read .bigEndian (body.take t.size) 0)
        (body.drop t.size)).bytes = t.byte :: body := by
      rw [bytes, hencode, List.take_append_drop]
    exact ⟨_, ⟨hbytes ▸ hlt, fun f hfield => t.layout.read_lt .bigEndian hfield htake⟩,
      hframe _ hbytes⟩

end Frames

end Packet

section Feeds

theorem wire_eq (packets : List Packet) : wire packets = (packets.map Packet.frame).flatten :=
  List.flatMap_def

theorem messagesOf_wire (h : ∀ p ∈ packets, p.Fits) (rest : List UInt8) :
    messagesOf (packets.map Packet.frame) rest = packets.map Packet.message := by
  induction packets with
  | nil => rfl
  | cons p packets ih =>
    obtain ⟨hp, h⟩ := List.forall_mem_cons.1 h
    rw [List.map_cons, List.map_cons, messagesOf, hp.messageOf, ih h]

theorem splits_wire (h : ∀ p ∈ packets, p.Fits) :
    Splits frames (packets.map Packet.frame) [] (wire packets) where
  mem f hf := by
    obtain ⟨p, hp, rfl⟩ := List.mem_map.1 hf
    exact (h p hp).isFrame
  eq := by rw [wire_eq, List.append_nil]

/-- Frames that hold their structs are those of packets. -/
theorem exists_wire {fs : List (List UInt8)} (hfs : ∀ f ∈ fs, IsFrame f ∧ Whole f) :
    ∃ packets : List Packet, (∀ p ∈ packets, p.Fits) ∧ packets.map Packet.frame = fs := by
  induction fs with
  | nil => exact ⟨[], by simp, rfl⟩
  | cons f fs ih =>
    obtain ⟨⟨hf, hw⟩, hfs'⟩ := List.forall_mem_cons.1 hfs
    obtain ⟨packets, hpackets, rfl⟩ := ih hfs'
    obtain ⟨p, hp, rfl⟩ := Packet.exists_frame hf hw
    exact ⟨p :: packets, List.forall_mem_cons.2 ⟨hp, hpackets⟩, rfl⟩

variable {β : Type} [OrderBookOps β] (newBook : β) (allowedLocates : Finset UInt16)

/-- What is parsed is what was written. -/
theorem parse_wire (h : ∀ p ∈ packets, p.Fits) (m : Market β) :
    parseItchFile newBook allowedLocates (wire packets) m =
      m.handleAll newBook allowedLocates (packets.map Packet.message) := by
  rw [parseItchFile_eq newBook allowedLocates (splits_wire h) stuck_nil, messagesOf_wire h]

/-- The files of frames that hold their structs are those that are written, and what is parsed is what
was written. -/
theorem parse_whole (fs : List (List UInt8)) (hfs : ∀ f ∈ fs, IsFrame f) :
    (∀ f ∈ fs, Whole f) ↔ ∃ packets : List Packet, (∀ p ∈ packets, p.Fits) ∧
      packets.map Packet.frame = fs ∧ ∀ m, parseItchFile newBook allowedLocates fs.flatten m =
        m.handleAll newBook allowedLocates (packets.map Packet.message) := by
  constructor
  · intro hw
    obtain ⟨packets, hp, rfl⟩ := exists_wire fun f hf => ⟨hfs f hf, hw f hf⟩
    exact ⟨packets, hp, rfl, fun m => wire_eq packets ▸ parse_wire newBook allowedLocates hp m⟩
  · rintro ⟨packets, hp, rfl, -⟩ f hf
    obtain ⟨p, hmem, rfl⟩ := List.mem_map.1 hf
    exact (hp p hmem).whole

/-- An add and a delete. -/
theorem parse_whole_addDelete : ∃ packets : List Packet, (∀ p ∈ packets, p.Fits) ∧
    packets.map Packet.frame = [addSeven, deleteSeven] ∧
    ∀ m, parseItchFile (fresh 16 4) ∅ [addSeven, deleteSeven].flatten m =
      m.handleAll (fresh 16 4) ∅ (packets.map Packet.message) := by
  have hframes : ∀ f ∈ [addSeven, deleteSeven], IsFrame f ∧ Whole f := by
    simp only [List.forall_mem_cons]
    exact ⟨⟨isFrame_addSeven, by unfold Whole; decide⟩,
      ⟨⟨0, 19, _, rfl, by decide, by decide⟩, by unfold Whole; decide⟩, by simp⟩
  exact (parse_whole (fresh 16 4) ∅ _ fun f hf => (hframes f hf).1).1 fun f hf => (hframes f hf).2

end Feeds

end Nanomatch
