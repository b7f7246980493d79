import Nanomatch.ItchFeed
import Nanomatch.Proofs.ItchProtocols

/-!
# The frames of a feed

Where the loop stands at a frame it dispatches it, with the message that the rest of the feed is
taken for, and where no frame begins it ends. So its rounds are the frames that can be cut off the
feed, and what is left in the books is what their messages do one after the other.
-/

namespace Nanomatch

open Framing

namespace ItchParser

variable {f rest pre q : List UInt8} {fs : List (List UInt8)}

section Frames

theorem frames_prefixFree : PrefixFree frames := by
  rintro f ⟨high, low, packet, rfl, hlen, -⟩ g ⟨high', low', packet', rfl, hlen', -⟩ hp
  obtain ⟨rfl, htail⟩ := List.cons_prefix_cons.1 hp
  obtain ⟨rfl, hpacket⟩ := List.cons_prefix_cons.1 htail
  rw [hpacket.eq_of_length (by rw [hlen, hlen'])]

theorem nil_notMem_frames : [] ∉ frames := by
  rintro ⟨high, low, packet, h, -⟩
  exact List.cons_ne_nil _ _ h.symm

theorem IsFrame.three_le (h : IsFrame f) : 3 ≤ f.length := by
  obtain ⟨high, low, packet, rfl, -, hpos⟩ := h
  simp only [List.length_cons]
  omega

/-- The packet length that begins at `pre.length`. -/
theorem readBE_two (high low : UInt8) (rest : List UInt8) :
    readBE (pre ++ high :: low :: rest) pre.length 2 = some (high.toNat * 256 + low.toNat) := by
  rw [← Nat.add_zero pre.length, readBE_drop]
  simp [readBE]

theorem header_frame (hf : IsFrame f) (rest : List UInt8) :
    header (pre ++ (f ++ rest)) pre.length = some (some (f.length - 2, (f ++ rest).getD 2 0)) := by
  obtain ⟨high, low, packet, rfl, hlen, hpos⟩ := hf
  obtain ⟨type, packet, rfl⟩ := List.exists_cons_of_length_pos hpos
  simp only [List.length_cons] at hlen
  have htype : (pre ++ (high :: low :: type :: packet ++ rest))[pre.length + 2]? = some type := by
    simp
  have htwo : readBE (pre ++ (high :: low :: type :: packet ++ rest)) pre.length 2 =
      some (high.toNat * 256 + low.toNat) := readBE_two high low _
  unfold header
  rw [htwo, htype, ← hlen]
  simp only [List.length_append, List.length_cons]
  rw [if_neg (by omega), if_neg (by omega)]
  simp only [Option.bind_eq_bind, Option.bind_some]
  rw [if_neg (by omega)]
  simp

/-- The loop ends where no frame begins. -/
theorem header_stuck (h : Stuck frames rest) : header (pre ++ rest) pre.length = some none := by
  unfold header
  simp only [List.length_append]
  by_cases hthree : pre.length + 3 > pre.length + rest.length
  · rw [if_pos hthree, ite_self]
  rw [if_neg (by omega), if_neg hthree]
  have hlen : 2 < rest.length := by omega
  obtain ⟨high, low, type, tail, rfl⟩ : ∃ high low type tail, rest = high :: low :: type :: tail := by
    rcases rest with _ | ⟨high, _ | ⟨low, _ | ⟨type, tail⟩⟩⟩
    · simp at hlen
    · simp at hlen
    · simp at hlen
    · exact ⟨high, low, type, tail, rfl⟩
  have htype : (pre ++ high :: low :: type :: tail)[pre.length + 2]? = some type := by
    simp
  rw [readBE_two, htype]
  simp only [Option.bind_eq_bind, Option.bind_some, List.length_cons]
  refine if_pos ?_
  by_contra hc
  rw [not_or] at hc
  -- the bytes from here on would be a frame
  set len := high.toNat * 256 + low.toNat
  have hframe : IsFrame (high :: low :: (type :: tail).take len) := by
    refine ⟨high, low, _, rfl, ?_, ?_⟩ <;> rw [List.length_take, List.length_cons] <;> omega
  exact h _ hframe (List.cons_prefix_cons.2 ⟨rfl, List.cons_prefix_cons.2
    ⟨rfl, List.take_prefix _ _⟩⟩)

end Frames

section Body

variable {file : List UInt8} {cursor : ℕ}

theorem body_isSome (file : List UInt8) (cursor : ℕ) (messageType : UInt8) :
    ∃ message, body file cursor messageType = some message := by
  unfold body
  simp only
  split
  · exact ⟨none, rfl⟩
  · rename_i t _
    split_ifs with havail
    · exact ⟨none, rfl⟩
    · have := t.size_pos
      have hle : cursor + 3 + t.size ≤ file.length := by omega
      obtain ⟨m, hm⟩ := MessageType.read_of_le hle
      exact ⟨some m, by rw [hm]; rfl⟩

theorem body_drop (messageType : UInt8) :
    body (pre ++ rest) pre.length messageType = body rest 0 messageType := by
  unfold body
  simp only [List.length_append]
  have havail : pre.length + rest.length - (pre.length + 3) = rest.length - (0 + 3) := by omega
  rw [havail]
  split
  · rfl
  · rw [MessageType.read_congr fun f _ => MessageType.readField_drop 3 f, Nat.zero_add]

theorem body_messageOf (pre feed : List UInt8) :
    body (pre ++ feed) pre.length (feed.getD 2 0) = some (messageOf feed) := by
  obtain ⟨m, hm⟩ := body_isSome feed 0 (feed.getD 2 0)
  rw [body_drop, messageOf, hm]
  rfl

end Body

section Rounds

variable {β : Type} [OrderBookOps β] {newBook : β} {allowedLocates : Finset UInt16} {r : Replay β}
  {m : Market β}

theorem header_isSome (file : List UInt8) (cursor : ℕ) : ∃ h, header file cursor = some h := by
  unfold header
  split_ifs with hend hthree
  · exact ⟨none, rfl⟩
  · have hle : cursor + 2 ≤ file.length := by omega
    obtain ⟨v, hv⟩ := readBE_of_le hle
    have hlt : cursor + 2 < file.length := by omega
    rw [hv, List.getElem?_eq_getElem hlt]
    simp only [Option.bind_eq_bind, Option.bind_some]
    split_ifs
    · exact ⟨none, rfl⟩
    · exact ⟨_, rfl⟩
  · exact ⟨none, rfl⟩

/-- A round ends the loop, or it does what the message at the cursor does. -/
theorem round_cases (newBook : β) (allowedLocates : Finset UInt16) (file : List UInt8)
    (r : Replay β) : round newBook allowedLocates file r = some none ∨
    ∃ message cursor dispatched, messageAt file r.cursor = some message ∧
      round newBook allowedLocates file r = (r.market.dispatch newBook allowedLocates message).map
        fun market => some ⟨cursor, market, dispatched⟩ := by
  obtain ⟨_ | ⟨packetLength, messageType⟩, hh⟩ := header_isSome file r.cursor
  · left
    unfold round
    rw [hh]
    rfl
  · obtain ⟨message, hm⟩ := body_isSome file r.cursor messageType
    refine .inr ⟨message, r.cursor + 2 + packetLength,
      r.dispatched ++ [(file.drop r.cursor).take (2 + packetLength)], ?_, ?_⟩
    · rw [messageAt, hh]
      exact hm
    unfold round
    rw [hh]
    simp only [Option.bind_eq_bind, Option.bind_some, hm]
    cases r.market.dispatch newBook allowedLocates message <;> rfl

/-- A round at a frame. -/
theorem round_frame (hf : IsFrame f) (hr : r.cursor = pre.length) (rest : List UInt8) :
    round newBook allowedLocates (pre ++ (f ++ rest)) r =
      (r.market.dispatch newBook allowedLocates (messageOf (f ++ rest))).map fun market =>
        some ⟨r.cursor + f.length, market, r.dispatched ++ [f]⟩ := by
  have hthree := hf.three_le
  have hlen : 2 + (f.length - 2) = f.length := by omega
  have hcursor : pre.length + 2 + (f.length - 2) = pre.length + f.length := by omega
  unfold round
  rw [hr, header_frame hf]
  simp only [Option.bind_eq_bind, Option.bind_some]
  rw [body_messageOf]
  simp only [Option.bind_some, hlen, hcursor, List.drop_left, List.take_left]
  cases r.market.dispatch newBook allowedLocates (messageOf (f ++ rest)) <;> rfl

theorem round_stuck (h : Stuck frames rest) (hr : r.cursor = pre.length) :
    round newBook allowedLocates (pre ++ rest) r = some none := by
  unfold round
  rw [hr, header_stuck h]
  rfl

theorem rounds_stuck (h : Stuck frames rest) (hr : r.cursor = pre.length) (n : ℕ) :
    rounds newBook allowedLocates (pre ++ rest) n r = some r := by
  cases n with
  | zero => rfl
  | succ n =>
    unfold rounds
    rw [round_stuck h hr]
    rfl

/-- The rounds of the loop through the frames `fs`. -/
theorem rounds_frames : ∀ {fs : List (List UInt8)} {pre : List UInt8} {r : Replay β} (n : ℕ),
    (∀ f ∈ fs, IsFrame f) → r.cursor = pre.length →
    rounds newBook allowedLocates (pre ++ (fs.flatten ++ rest)) (fs.length + n) r =
      (r.market.handleAll newBook allowedLocates (messagesOf fs rest)).bind fun market =>
        rounds newBook allowedLocates (pre ++ (fs.flatten ++ rest)) n
          ⟨r.cursor + fs.flatten.length, market, r.dispatched ++ fs⟩
  | [], _, r, n, _, _ => by simp [messagesOf, Market.handleAll]
  | f :: fs, pre, r, n, hfs, hr => by
    obtain ⟨hf, hfs⟩ := List.forall_mem_cons.1 hfs
    have hfile : pre ++ ((f :: fs).flatten ++ rest) = pre ++ (f ++ (fs.flatten ++ rest)) := by
      simp
    have hcount : (f :: fs).length + n = fs.length + n + 1 := by
      rw [List.length_cons]
      omega
    rw [hfile, hcount, rounds, round_frame hf hr]
    rcases hm : r.market.dispatch newBook allowedLocates (messageOf (f ++ (fs.flatten ++ rest)))
      with _ | market
    · simp [messagesOf, Market.handleAll, hm]
    · have hr' : r.cursor + f.length = (pre ++ f).length := by rw [hr, List.length_append]
      have ih := rounds_frames (r := ⟨r.cursor + f.length, market, r.dispatched ++ [f]⟩) n hfs hr'
      rw [List.append_assoc] at ih
      simp only [Option.map_some, Option.bind_eq_bind, Option.bind_some, ih]
      simp [messagesOf, Market.handleAll, hm, Nat.add_assoc]

theorem messagesOf_append (fs gs : List (List UInt8)) (rest : List UInt8) :
    messagesOf (fs ++ gs) rest = messagesOf fs (gs.flatten ++ rest) ++ messagesOf gs rest := by
  induction fs with
  | nil => rfl
  | cons f fs ih => simp [messagesOf, ih]

theorem messagesOf_length (fs : List (List UInt8)) (rest : List UInt8) :
    (messagesOf fs rest).length = fs.length := by
  induction fs with
  | nil => rfl
  | cons f fs ih => simp [messagesOf, ih]

/-- The rounds of the loop are those of the frames that can be cut off the file. -/
theorem rounds_eq (newBook : β) (allowedLocates : Finset UInt16) {file : List UInt8}
    (h : Splits frames fs rest file) (hend : Stuck frames rest) (m : Market β) (n : ℕ) :
    rounds newBook allowedLocates file n { market := m } =
      (m.handleAll newBook allowedLocates ((messagesOf fs rest).take n)).map fun market =>
        ⟨(fs.take n).flatten.length, market, fs.take n⟩ := by
  have hmem : ∀ f ∈ fs.take n, IsFrame f := fun f hf => h.mem f (List.mem_of_mem_take hf)
  have hfile : file = [] ++ ((fs.take n).flatten ++ ((fs.drop n).flatten ++ rest)) := by
    rw [h.eq, List.nil_append, ← List.append_assoc, ← List.flatten_append, List.take_append_drop]
  have hmessages : (messagesOf fs rest).take n =
      messagesOf (fs.take n) ((fs.drop n).flatten ++ rest) := by
    have hlen := messagesOf_length (fs.take n) ((fs.drop n).flatten ++ rest)
    conv_lhs => rw [← List.take_append_drop n fs, messagesOf_append]
    rcases Nat.le_total n fs.length with hn | hn
    · exact List.take_left' (by rw [hlen, List.length_take, Nat.min_eq_left hn])
    · rw [List.drop_eq_nil_of_le hn, messagesOf, List.append_nil]
      refine List.take_of_length_le ?_
      rw [messagesOf_length]
      exact List.length_take_le n fs
  have hcount : n = (fs.take n).length + (n - fs.length) := by
    rw [List.length_take]
    omega
  -- after the last frame no round is left
  have hlast : ∀ r : Replay β, r.cursor = (fs.take n).flatten.length →
      rounds newBook allowedLocates file (n - fs.length) r = some r := by
    intro r hr
    rcases Nat.le_total n fs.length with hn | hn
    · rw [Nat.sub_eq_zero_of_le hn]
      rfl
    · rw [List.take_of_length_le hn] at hr
      rw [h.eq]
      exact rounds_stuck hend hr _
  have hrun : rounds newBook allowedLocates ([] ++ ((fs.take n).flatten ++ ((fs.drop n).flatten ++
      rest))) ((fs.take n).length + (n - fs.length)) { market := m } = _ :=
    rounds_frames _ hmem rfl
  rw [← hfile, ← hcount, ← hmessages] at hrun
  rw [hrun]
  rcases m.handleAll newBook allowedLocates ((messagesOf fs rest).take n) with _ | market
  · rfl
  · rw [Option.bind_some, hlast _ (Nat.zero_add _)]
    simp

end Rounds

end ItchParser

end Nanomatch
