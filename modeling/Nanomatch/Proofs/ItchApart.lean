import Mathlib.Data.List.GetD
import Nanomatch.Proofs.ItchBounds

/-!
# Frames and the bytes after them

The parser checks a message struct against the end of the file, not of its frame. So a frame that is
too short for its struct is skipped at the end of a file, and takes bytes of what follows elsewhere.
If no frame of a file does so, the rest can be parsed on its own.
-/

namespace Nanomatch

open Framing

namespace ItchParser

variable {f feed rest pre q : List UInt8} {fs : List (List UInt8)} {t : MessageType}

section Messages

theorem messageOf_unknown (ht : MessageType.ofByte (feed.getD 2 0) = none) :
    messageOf feed = none := by
  unfold messageOf body
  rw [ht]
  rfl

theorem messageOf_short (ht : MessageType.ofByte (feed.getD 2 0) = some t)
    (h : feed.length - 3 < t.size) : messageOf feed = none := by
  unfold messageOf body
  rw [ht]
  simp only
  rw [if_pos h]
  rfl

theorem messageOf_read (ht : MessageType.ofByte (feed.getD 2 0) = some t)
    (h : t.size ≤ feed.length - 3) : messageOf feed = t.read feed 3 := by
  unfold messageOf body
  rw [ht]
  simp only
  rw [if_neg (Nat.not_lt.2 h)]
  cases t.read feed 3 <;> rfl

/-- The bytes `q` change what a feed is taken for just where they complete its struct. -/
theorem messageOf_append_iff (hfeed : 3 ≤ feed.length) :
    messageOf (feed ++ q) = messageOf feed ↔
      ∀ t ∈ MessageType.ofByte (feed.getD 2 0), t.size ≤ feed.length - 3 ∨
        feed.length - 3 + q.length < t.size := by
  have hbyte : (feed ++ q).getD 2 0 = feed.getD 2 0 := List.getD_append _ _ _ _ hfeed
  have hlen : (feed ++ q).length - 3 = feed.length - 3 + q.length := by
    rw [List.length_append]
    omega
  rcases ht : MessageType.ofByte (feed.getD 2 0) with _ | t
  · simp [messageOf_unknown ht, messageOf_unknown (hbyte ▸ ht)]
  have htq : MessageType.ofByte ((feed ++ q).getD 2 0) = some t := hbyte ▸ ht
  simp only [Option.mem_def, Option.some.injEq, forall_eq']
  rcases Nat.lt_or_ge (feed.length - 3) t.size with hshort | hread
  · rw [messageOf_short ht hshort]
    rcases Nat.lt_or_ge ((feed ++ q).length - 3) t.size with hshort' | hread'
    · rw [messageOf_short htq hshort']
      exact iff_of_true rfl (.inr (hlen ▸ hshort'))
    · have hpos := t.size_pos
      have hle : 3 + t.size ≤ (feed ++ q).length := by omega
      obtain ⟨m, hm⟩ := MessageType.read_of_le hle
      rw [messageOf_read htq hread', hm]
      refine iff_of_false (Option.some_ne_none m) ?_
      omega
  · have hle : 3 + t.size ≤ feed.length := by
      have hpos := t.size_pos
      omega
    rw [messageOf_read ht hread, messageOf_read htq (by omega)]
    refine iff_of_true ?_ (.inl hread)
    exact MessageType.read_congr fun _ hf => MessageType.readField_append hle hf

theorem messageAt_frame (hf : IsFrame f) (pre rest : List UInt8) :
    messageAt (pre ++ (f ++ rest)) pre.length = some (messageOf (f ++ rest)) := by
  unfold messageAt
  rw [header_frame hf]
  exact body_messageOf pre (f ++ rest)

/-- The bytes `q` change none of the messages just where no frame takes bytes of them. -/
theorem messagesOf_eq_iff : ∀ {fs : List (List UInt8)}, (∀ f ∈ fs, IsFrame f) →
    (messagesOf fs q = messagesOf fs [] ↔ NoneStraddles fs q)
  | [], _ => iff_of_true rfl trivial
  | f :: fs, hfs => by
    obtain ⟨hf, hfs⟩ := List.forall_mem_cons.1 hfs
    have hthree := hf.three_le
    have hbyte : (f ++ fs.flatten).getD 2 0 = f.getD 2 0 := List.getD_append _ _ _ _ hthree
    have hlen : 3 ≤ (f ++ fs.flatten).length := by
      rw [List.length_append]
      omega
    rw [messagesOf, messagesOf, List.cons.injEq, messagesOf_eq_iff hfs, NoneStraddles,
      List.append_nil, ← List.append_assoc, messageOf_append_iff hlen, hbyte]

/-- A property of every frame and the frames after it. -/
theorem forall_split_cons {P : List UInt8 → List (List UInt8) → Prop} :
    (∀ l g r, f :: fs = l ++ g :: r → P g r) ↔ P f fs ∧ ∀ l g r, fs = l ++ g :: r → P g r := by
  constructor
  · intro h
    exact ⟨h [] f fs rfl, fun l g r he => h (f :: l) g r (congrArg (f :: ·) he)⟩
  · rintro ⟨hf, h⟩ l g r he
    rcases l with _ | ⟨f', l⟩
    · obtain ⟨rfl, rfl⟩ := List.cons.inj he
      exact hf
    · exact h l g r (List.cons.inj he).2

theorem messagesOf_eq_iff_forall : messagesOf fs q = messagesOf fs [] ↔ ∀ l f r, fs = l ++ f :: r →
    messageOf (f ++ (r.flatten ++ q)) = messageOf (f ++ (r.flatten ++ [])) := by
  induction fs with
  | nil => exact iff_of_true rfl fun l f r he => absurd he (by simp)
  | cons f fs ih => rw [messagesOf, messagesOf, List.cons.injEq, ih, forall_split_cons]

/-- The bytes `q` after the frames change none of the messages just where no frame takes bytes of
them. -/
theorem messageAt_append_iff (hfs : ∀ f ∈ fs, IsFrame f) :
    (∀ l f r, fs = l ++ f :: r → messageAt (fs.flatten ++ q) l.flatten.length =
      messageAt fs.flatten l.flatten.length) ↔ NoneStraddles fs q := by
  rw [← messagesOf_eq_iff hfs, messagesOf_eq_iff_forall]
  refine forall_congr' fun l => forall_congr' fun f => forall_congr' fun r =>
    forall_congr' fun he => ?_
  have hf : IsFrame f := hfs f (by rw [he]; simp)
  have hflat : fs.flatten = l.flatten ++ (f ++ (r.flatten ++ [])) := by
    rw [he]
    simp
  have hq : fs.flatten ++ q = l.flatten ++ (f ++ (r.flatten ++ q)) := by
    rw [he]
    simp
  rw [hq, hflat, messageAt_frame hf, messageAt_frame hf, Option.some.injEq]

end Messages

section Parse

variable {β : Type} [OrderBookOps β] (newBook : β) (allowedLocates : Finset UInt16)

theorem handleAll_append : ∀ (l l' : List (Option Message)) (m : Market β),
    m.handleAll newBook allowedLocates (l ++ l') =
      (m.handleAll newBook allowedLocates l).bind (·.handleAll newBook allowedLocates l')
  | [], _, _ => rfl
  | message :: l, l', m => by
    have ih := handleAll_append l l'
    simp only [List.cons_append, Market.handleAll, Option.bind_eq_bind]
    rcases m.dispatch newBook allowedLocates message with _ | m'
    · rfl
    · exact ih m'

/-- Parsing a file is handling the messages of its frames. -/
theorem parseItchFile_eq {file : List UInt8} (h : Splits frames fs rest file)
    (hend : Stuck frames rest) (m : Market β) : parseItchFile newBook allowedLocates file m =
      m.handleAll newBook allowedLocates (messagesOf fs rest) := by
  have hcount : (messagesOf fs rest).length ≤ file.length :=
    messagesOf_length fs rest ▸ h.length_le nil_notMem_frames
  rw [parseItchFile, rounds_eq newBook allowedLocates h hend, List.take_of_length_le hcount,
    Option.map_map]
  exact congrFun Option.map_id _

theorem stuck_nil : Stuck frames [] := fun _ hf hp =>
  nil_notMem_frames (List.prefix_nil.1 hp ▸ hf)

/-- The frames `fs` are parsed alike with and without the bytes `q` after them just where none of
them takes bytes of `q` for its own, and then `q` is parsed as on its own. -/
theorem parse_append (hfs : ∀ f ∈ fs, IsFrame f) (q : List UInt8) :
    ((∀ l f r, fs = l ++ f :: r → messageAt (fs.flatten ++ q) l.flatten.length =
      messageAt fs.flatten l.flatten.length) ↔ NoneStraddles fs q) ∧
    (NoneStraddles fs q → ∀ m : Market β,
      parseItchFile newBook allowedLocates (fs.flatten ++ q) m =
        (parseItchFile newBook allowedLocates fs.flatten m).bind
          (parseItchFile newBook allowedLocates q)) := by
  refine ⟨messageAt_append_iff hfs, fun h m => ?_⟩
  obtain ⟨gs, rest, hsplit, hend⟩ := exists_stuck nil_notMem_frames q
  have hp : Splits frames fs [] fs.flatten := ⟨hfs, (List.append_nil _).symm⟩
  have hpq : Splits frames (fs ++ gs) rest (fs.flatten ++ q) := Splits.append ⟨hfs, rfl⟩ hsplit
  rw [parseItchFile_eq newBook allowedLocates hpq hend, messagesOf_append, ← hsplit.eq,
    (messagesOf_eq_iff hfs).2 h, handleAll_append,
    parseItchFile_eq newBook allowedLocates hp stuck_nil]
  congr 1
  exact funext fun m' => (parseItchFile_eq newBook allowedLocates hsplit hend m').symm

/-- An add of order 7 of the stock 1, and a complete delete of it. -/
def addSeven : List UInt8 := [0, 36, 65, 0, 1, 0, 0, 0, 0, 0, 0, 0, 0, 0, 0, 0, 0, 0, 0, 0, 7, 83,
  0, 0, 0, 5, 65, 65, 65, 65, 65, 65, 65, 65, 0, 0, 0, 100]

def deleteSeven : List UInt8 := [0, 19, 68, 0, 1, 0, 0, 0, 0, 0, 0, 0, 0, 0, 0, 0, 0, 0, 0, 0, 7]

/-- A frame of a type that is not handled, with a 7 where the frame before it looks for an id. -/
def otherFrame : List UInt8 := [0, 17, 83, 0, 0, 0, 0, 0, 0, 0, 0, 0, 0, 0, 0, 0, 0, 7, 0]

theorem isFrame_addSeven : IsFrame addSeven := ⟨0, 36, _, rfl, by decide, by decide⟩

theorem parse_append_delete :
    parseItchFile (fresh 16 4) ∅ ([addSeven].flatten ++ deleteSeven) {} =
      (parseItchFile (fresh 16 4) ∅ [addSeven].flatten {}).bind
        (parseItchFile (fresh 16 4) ∅ deleteSeven) :=
  (parse_append (fresh 16 4) ∅ (by simp [isFrame_addSeven]) deleteSeven).2 (by decide) {}

/-- A delete of one byte is skipped at the end of a file, and deletes order 7 in front of
`otherFrame`. -/
theorem not_forall_parse_append : ¬ ∀ (fs : List (List UInt8)) (q : List UInt8)
    (allowedLocates : Finset UInt16), (∀ f ∈ fs, IsFrame f) →
    parseItchFile (fresh 16 4) allowedLocates (fs.flatten ++ q) {} =
      (parseItchFile (fresh 16 4) allowedLocates fs.flatten {}).bind
        (parseItchFile (fresh 16 4) allowedLocates q) := by
  intro h
  have hshort : IsFrame [0, 1, 68] := ⟨0, 1, _, rfl, by decide, by decide⟩
  have heq := congrArg (Option.map fun m => m.refOwner 7) (h [addSeven, [0, 1, 68]] otherFrame ∅
    (by simp [isFrame_addSeven, hshort]))
  have hone : (parseItchFile (fresh 16 4) ∅ ([addSeven, [0, 1, 68]].flatten ++ otherFrame) {}).map
      (fun m => m.refOwner 7) = some none := by
    decide +kernel
  have htwo : ((parseItchFile (fresh 16 4) ∅ [addSeven, [0, 1, 68]].flatten {}).bind
      (parseItchFile (fresh 16 4) ∅ otherFrame)).map (fun m => m.refOwner 7) = some (some 1) := by
    decide +kernel
  rw [hone, htwo] at heq
  exact absurd heq (by decide)

end Parse

end ItchParser

end Nanomatch
