import Nanomatch.Proofs.ItchMessages
import Nanomatch.Proofs.View

/-!
# Any bytes are safe

With books whose operations return, no message fails: an owner is always the place of a book. So the
loop goes through all the frames that can be cut off the file and ends, whatever the bytes are.
-/

namespace Nanomatch

open Framing ItchParser

variable {β : Type} {newBook b : β} {Inv : β → Prop} {m : Market β}
  {allowedLocates : Finset UInt16} {locate : ℕ} {id oldId newId : OrderId}

namespace Market

section Ok

/-- The books satisfy `Inv`, and every owner is the place of one. -/
structure Ok (Inv : β → Prop) (m : Market β) : Prop where
  size : m.marketBooks.size = kMaxStockLocate
  books : ∀ locate b, m.marketBooks.cell locate = some b → Inv b
  owner : ∀ id locate, m.refOwner id = some locate →
    locate < kMaxStockLocate ∧ ∃ b, m.marketBooks.cell locate = some b

theorem ok_init (Inv : β → Prop) : ({} : Market β).Ok Inv where
  size := rfl
  books _ _ h := (Option.some_ne_none _ h.symm).elim
  owner _ _ h := (Option.some_ne_none _ h.symm).elim

theorem Ok.put (h : m.Ok Inv) (locate : ℕ) (hb : Inv b) : (m.put locate b).Ok Inv where
  size := h.size
  books i b' hb' := by
    rw [put_cell] at hb'
    split_ifs at hb'
    · exact Option.some.inj hb' ▸ hb
    · exact h.books i b' hb'
  owner id' i hid := by
    obtain ⟨hi, b', hb'⟩ := h.owner id' i hid
    refine ⟨hi, ?_⟩
    rw [put_cell]
    split_ifs
    · exact ⟨b, rfl⟩
    · exact ⟨b', hb'⟩

theorem Ok.eraseOwner (h : m.Ok Inv) (id : OrderId) : (m.eraseOwner id).Ok Inv where
  size := h.size
  books := h.books
  owner id' i hid := by
    rw [eraseOwner_refOwner] at hid
    split_ifs at hid
    exact h.owner id' i hid

theorem Ok.setOwner (h : m.Ok Inv) (id : OrderId) (hlt : locate < kMaxStockLocate)
    (hb : m.marketBooks.cell locate = some b) : (m.setOwner id locate).Ok Inv where
  size := h.size
  books := h.books
  owner id' i hid := by
    rw [setOwner_refOwner] at hid
    split_ifs at hid
    · exact Option.some.inj hid ▸ ⟨hlt, b, hb⟩
    · exact h.owner id' i hid

theorem Ok.added {r : β × Bool} (h : m.Ok Inv) (hlt : locate < kMaxStockLocate) (hr : Inv r.1) :
    (m.added locate id r).Ok Inv := by
  unfold Market.added
  split_ifs
  · exact (h.put locate hr).setOwner id hlt (if_pos rfl)
  · exact h.put locate hr

theorem Ok.worked {r : β × Bool} (h : m.Ok Inv) (hr : Inv r.1) : (m.worked locate id r).Ok Inv := by
  unfold Market.worked
  split_ifs
  · exact (h.put locate hr).eraseOwner id
  · exact h.put locate hr

theorem Ok.replaced {r : β × Bool} (h : m.Ok Inv) (hlt : locate < kMaxStockLocate) (hr : Inv r.1) :
    (m.replaced locate oldId newId r).Ok Inv := by
  unfold Market.replaced
  split_ifs
  · exact ((h.put locate hr).eraseOwner oldId).setOwner newId hlt (if_pos rfl)
  · exact (h.put locate hr).eraseOwner oldId

end Ok

section Handle

/-- An operation on the book of an order. -/
theorem Ok.onOwner (h : m.Ok Inv) (id : OrderId) {op : β → Option (β × Bool)}
    (hop : ∀ b, Inv b → ∃ b' r, op b = some (b', r) ∧ Inv b') :
    ∃ m', m.onOwner id op = some m' ∧ m'.Ok Inv := by
  rcases hid : m.refOwner id with _ | locate
  · exact ⟨m, onOwner_none hid op, h⟩
  obtain ⟨hlt, b, hb⟩ := h.owner id locate hid
  obtain ⟨b', r, hr, hb'⟩ := hop b (h.books locate b hb)
  refine ⟨m.worked locate id (b', r), ?_, h.worked hb'⟩
  rw [onOwner_some hid (h.size.symm ▸ hlt) hb, hr]
  rfl

variable [OrderBookOps β]

theorem Ok.addOrder (h : m.Ok Inv) (hret : Returns newBook Inv) (locate : UInt16) (id : OrderId)
    (side : Side) (price shares : UInt32) :
    ∃ m', m.addOrder newBook allowedLocates locate id side price shares = some m' ∧ m'.Ok Inv := by
  by_cases ht : locate.toNat < kMaxStockLocate ∧ isTracked allowedLocates locate
  · have hb : Inv ((m.marketBooks.cell locate.toNat).getD newBook) := by
      rcases hc : m.marketBooks.cell locate.toNat with _ | b
      · exact hret.new
      · exact h.books _ b hc
    obtain ⟨b', r, hr, hb'⟩ := hret.insert _ hb id side price shares
    refine ⟨m.added locate.toNat id (b', r), ?_, h.added ht.1 hb'⟩
    rw [addOrder_tracked side price shares ht h.size, hr]
    rfl
  · exact ⟨m, addOrder_untracked side price shares ht, h⟩

theorem replaceIn_returns (hret : Returns newBook Inv) (hb : Inv b) {idx : ℕ}
    (hfind : OrderBookOps.findId b oldId = some idx) (hne : idx ≠ NULL_IDX) (newId : OrderId)
    (price shares : UInt32) :
    ∃ b' r, replaceIn b oldId newId idx price shares = some (b', r) ∧ Inv b' := by
  obtain ⟨idx', hfind', hside⟩ := hret.find b hb oldId
  obtain rfl : idx' = idx := Option.some.inj (hfind'.symm.trans hfind)
  obtain ⟨side, hside⟩ := hside hne
  obtain ⟨b1, hb1, hinv1⟩ := hret.cancel b hb oldId
  obtain ⟨b2, r, hb2, hinv2⟩ := hret.insert b1 hinv1 newId side price shares
  refine ⟨b2, r, ?_, hinv2⟩
  unfold Market.replaceIn
  simp only [hside, hb1, hb2, Option.bind_eq_bind, Option.bind_some]

theorem Ok.replaceOrder (h : m.Ok Inv) (hret : Returns newBook Inv) (oldId newId : OrderId)
    (price shares : UInt32) :
    ∃ m', m.replaceOrder oldId newId price shares = some m' ∧ m'.Ok Inv := by
  rcases hid : m.refOwner oldId with _ | locate
  · exact ⟨m, replaceOrder_none hid newId price shares, h⟩
  obtain ⟨hlt, b, hb⟩ := h.owner oldId locate hid
  have hinv := h.books locate b hb
  obtain ⟨idx, hfind, -⟩ := hret.find b hinv oldId
  rw [replaceOrder_some hid (h.size.symm ▸ hlt) hb, hfind, Option.bind_some]
  split_ifs with hne
  · exact ⟨m, rfl, h⟩
  · obtain ⟨b', r, hr, hb'⟩ := replaceIn_returns hret hinv hfind hne newId price shares
    exact ⟨m.replaced locate oldId newId (b', r), by rw [hr]; rfl, h.replaced hlt hb'⟩

/-- No message fails. -/
theorem Ok.dispatch (h : m.Ok Inv) (hret : Returns newBook Inv)
    (allowedLocates : Finset UInt16) : ∀ message : Option Message,
    ∃ m', m.dispatch newBook allowedLocates message = some m' ∧ m'.Ok Inv
  | none => ⟨m, rfl, h⟩
  | some (.add locate id side price shares) => h.addOrder hret locate id side price shares
  | some (.execute id shares) => h.onOwner id fun b hb => hret.execute b hb id shares
  | some (.cancel id shares) => h.onOwner id fun b hb => hret.reduce b hb id shares
  | some (.delete id) => h.onOwner id fun b hb => by
    obtain ⟨b', hb', hinv⟩ := hret.cancel b hb id
    exact ⟨b', true, by rw [hb']; rfl, hinv⟩
  | some (.replace oldId newId price shares) => h.replaceOrder hret oldId newId price shares

theorem Ok.handleAll (hret : Returns newBook Inv) (allowedLocates : Finset UInt16) :
    ∀ (messages : List (Option Message)) {m : Market β}, m.Ok Inv →
    ∃ m', m.handleAll newBook allowedLocates messages = some m' ∧ m'.Ok Inv
  | [], m, h => ⟨m, rfl, h⟩
  | message :: messages, m, h => by
    obtain ⟨m1, hm1, h1⟩ := h.dispatch hret allowedLocates message
    obtain ⟨m2, hm2, h2⟩ := Ok.handleAll hret allowedLocates messages h1
    exact ⟨m2, by rw [Market.handleAll, hm1]; exact hm2, h2⟩

end Handle

end Market

section Finite

/-- The operations of a book over the finite map return. -/
theorem fresh_returns {band cap : ℕ} (hband : 0 < band) (hband' : band < 2 ^ 32) (hcap : 0 < cap)
    (hcap' : cap < 2 ^ 32) : Returns (fresh band cap) fun c => ∃ a, Rep finLaws c a ∧ a.Wf where
  new := ⟨_, rep_new hcap rfl, Ladder.new_wf hband hband' hcap'⟩
  insert := by
    rintro c ⟨a, h, hw⟩ id side price qty
    obtain ⟨c', hc', hrep⟩ := h.step hw (.insertLimitOrder id side price qty) trivial
    exact ⟨c', _, hc', _, hrep, hw.step _⟩
  cancel := by
    rintro c ⟨a, h, hw⟩ id
    obtain ⟨c', hc', hrep⟩ := h.cancelOrder hw trivial
    exact ⟨c', hc', _, hrep, hw.cancelOrder id⟩
  execute := by
    rintro c ⟨a, h, hw⟩ id fillQty
    obtain ⟨c', hc', hrep⟩ := h.step hw (.executeOrder id fillQty) trivial
    exact ⟨c', _, hc', _, hrep, hw.step _⟩
  reduce := by
    rintro c ⟨a, h, hw⟩ id cancelQty
    obtain ⟨c', hc', hrep⟩ := h.step hw (.reduceOrderQty id cancelQty) trivial
    exact ⟨c', _, hc', _, hrep, hw.step _⟩
  find := by
    rintro c ⟨a, h, hw⟩ id
    refine ⟨a.find id, h.findId trivial id, fun hne => ?_⟩
    obtain ⟨o, ho, -⟩ := h.readOrder_eq hw (hw.ids id hne).1
    have hside : OrderBookOps.sideOf c (a.find id) = (c.readOrder (a.find id)).map Order.side := rfl
    exact ⟨o.side, by rw [hside, ho]; rfl⟩

end Finite

section Runs

variable [OrderBookOps β]

namespace ItchParser

/-- Every field of the struct that a frame is taken for lies in the file. -/
theorem body_fields {file : List UInt8} {cursor : ℕ} {messageType : UInt8} {message : Message}
    {t : MessageType} (h : body file cursor messageType = some (some message))
    (ht : MessageType.ofByte messageType = some t) {f : ItchField} (hf : f ∈ t.fields) :
    cursor + 3 + t.offset f + f.width ≤ file.length := by
  have hfield := MessageType.offset_add_width_le hf
  have hpos := t.size_pos
  unfold body at h
  rw [ht] at h
  simp only at h
  split_ifs at h with havail
  · exact absurd (Option.some.inj h).symm (Option.some_ne_none _)
  · omega

/-- With books whose operations return, the loop is within bounds in every round, and it ends after
the frames of the longest beginning of the file that splits into frames. -/
theorem rounds_anyBytes (hret : Returns newBook Inv) (allowedLocates : Finset UInt16)
    (file : List UInt8) :
    (∀ n, ∃ r, rounds newBook allowedLocates file n { market := {} } = some r ∧
      InBounds file r) ∧
    ∃ r, rounds newBook allowedLocates file file.length { market := {} } = some r ∧
      round newBook allowedLocates file r = some none ∧ Longest file r := by
  obtain ⟨fs, rest, hsplit, hend⟩ := exists_stuck nil_notMem_frames file
  have hrun : ∀ n, ∃ m, m.Ok Inv ∧ rounds newBook allowedLocates file n { market := {} } =
      some ⟨(fs.take n).flatten.length, m, fs.take n⟩ := by
    intro n
    obtain ⟨m, hm, hok⟩ := Market.Ok.handleAll hret allowedLocates
      ((messagesOf fs rest).take n) (Market.ok_init Inv)
    exact ⟨m, hok, by rw [rounds_eq newBook allowedLocates hsplit hend, hm]; rfl⟩
  have htake : ∀ n, (fs.take n).flatten <+: file := by
    intro n
    refine List.IsPrefix.trans ?_ hsplit.flatten_isPrefix
    conv_rhs => rw [← List.take_append_drop n fs, List.flatten_append]
    exact List.prefix_append _ _
  constructor
  · intro n
    obtain ⟨m, hok, hm⟩ := hrun n
    exact ⟨_, hm, (htake n).length_le, hok.size, fun _ _ _ _ _ hbody ht f hf =>
      body_fields hbody ht hf⟩
  · obtain ⟨m, hok, hm⟩ := hrun file.length
    rw [List.take_of_length_le (hsplit.length_le nil_notMem_frames)] at hm
    refine ⟨_, hm, ?_, hsplit.mem, hsplit.flatten_isPrefix, fun gs hgs hpre =>
      frames_prefixFree.isPrefix_of_stuck hend hgs hpre hsplit⟩
    rw [hsplit.eq]
    exact round_stuck hend rfl

/-- A frame that nobody handles, and an add that is cut off. -/
theorem rounds_anyBytes_cutOff :
    (∀ n, ∃ r, rounds (fresh 16 4) ∅ [0, 2, 83, 7, 0, 36, 65, 0] n { market := {} } = some r ∧
      InBounds [0, 2, 83, 7, 0, 36, 65, 0] r) ∧
    ∃ r, rounds (fresh 16 4) ∅ [0, 2, 83, 7, 0, 36, 65, 0] 8 { market := {} } = some r ∧
      round (fresh 16 4) ∅ [0, 2, 83, 7, 0, 36, 65, 0] r = some none ∧
      Longest [0, 2, 83, 7, 0, 36, 65, 0] r :=
  rounds_anyBytes (fresh_returns (by decide) (by decide) (by decide) (by decide)) ∅ _

end ItchParser

end Runs

end Nanomatch
