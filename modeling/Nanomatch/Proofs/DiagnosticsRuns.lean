import Nanomatch.Diagnostics
import Nanomatch.Proofs.ItchTickers

/-!
# The diagnostics count the messages

The counters change nothing of what the parser does. An execute hits an order that was inserted before
and is no longer known after, so what was hit and what is still known was inserted.
-/

namespace Nanomatch

open Framing ItchParser

variable {β : Type} {newBook : β} {Inv : β → Prop} {m m' : Market β} {c : Counted β}
  {allowedLocates : Finset UInt16} {locate : ℕ} {id oldId newId : OrderId} {owned : Finset OrderId}
  {message : Option Message} {messages : List (Option Message)} {d : Diagnostics}

section Owned

namespace Market

theorem Owned.setOwner (h : m.Owned owned) (id : OrderId) (locate : ℕ) :
    (m.setOwner id locate).Owned (insert id owned) := by
  intro id'
  rw [Finset.mem_insert, setOwner_refOwner, h id']
  split_ifs with hid <;> simp [hid]

theorem Owned.eraseOwner (h : m.Owned owned) (id : OrderId) :
    (m.eraseOwner id).Owned (owned.erase id) := by
  intro id'
  rw [Finset.mem_erase, eraseOwner_refOwner, h id']
  split_ifs with hid <;> simp [hid]

theorem Owned.added (h : m.Owned owned) (locate : ℕ) (id : OrderId) (r : β × Bool) :
    ∃ owned', (m.added locate id r).Owned owned' ∧ owned'.card ≤ owned.card + r.2.toNat := by
  unfold Market.added
  have hput : (m.put locate r.1).Owned owned := h
  split_ifs with hr
  · exact ⟨_, hput.setOwner id locate, by rw [hr]; exact Finset.card_insert_le id owned⟩
  · exact ⟨_, hput, Nat.le_add_right _ _⟩

/-- An operation on an order that is known. -/
theorem Owned.worked (h : m.Owned owned) (hid : m.refOwner id = some locate) (r : β × Bool) :
    ∃ owned', (m.worked locate id r).Owned owned' ∧ owned'.card + r.2.toNat = owned.card := by
  have hmem : id ∈ owned := (h id).2 (by simp [hid])
  unfold Market.worked
  have hput : (m.put locate r.1).Owned owned := h
  split_ifs with hr
  · exact ⟨_, hput.eraseOwner id, by rw [hr]; exact Finset.card_erase_add_one hmem⟩
  · exact ⟨_, hput, by simp [hr]⟩

theorem Owned.replaced (h : m.Owned owned) (hid : m.refOwner oldId = some locate) (newId : OrderId)
    (r : β × Bool) :
    ∃ owned', (m.replaced locate oldId newId r).Owned owned' ∧ owned'.card ≤ owned.card := by
  have hmem : oldId ∈ owned := (h oldId).2 (by simp [hid])
  have hcard := Finset.card_erase_add_one hmem
  have hput : (m.put locate r.1).Owned owned := h
  unfold Market.replaced
  split_ifs
  · exact ⟨_, (hput.eraseOwner oldId).setOwner newId locate,
      hcard ▸ Finset.card_insert_le newId (owned.erase oldId)⟩
  · exact ⟨_, hput.eraseOwner oldId, by omega⟩

theorem Owned.onOwner (h : m.Owned owned) (hok : m.Ok Inv) {op : β → Option (β × Bool)}
    (hm : m.onOwner id op = some m') :
    ∃ owned', m'.Owned owned' ∧ owned'.card ≤ owned.card := by
  rcases hid : m.refOwner id with _ | locate
  · exact ⟨owned, Option.some.inj (hm.symm.trans (onOwner_none hid op)) ▸ h, le_rfl⟩
  · obtain ⟨hlt, b, hb⟩ := hok.owner id locate hid
    rw [onOwner_some hid (hok.size.symm ▸ hlt) hb, Option.map_eq_some_iff] at hm
    obtain ⟨r, -, rfl⟩ := hm
    obtain ⟨owned', h', hcard⟩ := h.worked hid r
    exact ⟨owned', h', by omega⟩

theorem Owned.replaceOrder [OrderBookOps β] (h : m.Owned owned) (hok : m.Ok Inv)
    {price shares : UInt32} (hm : m.replaceOrder oldId newId price shares = some m') :
    ∃ owned', m'.Owned owned' ∧ owned'.card ≤ owned.card := by
  rcases hid : m.refOwner oldId with _ | locate
  · exact ⟨owned, Option.some.inj (hm.symm.trans (replaceOrder_none hid newId price shares)) ▸ h,
      le_rfl⟩
  · obtain ⟨hlt, b, hb⟩ := hok.owner oldId locate hid
    rw [replaceOrder_some hid (hok.size.symm ▸ hlt) hb, Option.bind_eq_some_iff] at hm
    obtain ⟨idx, -, hm⟩ := hm
    split_ifs at hm
    · exact ⟨owned, Option.some.inj hm ▸ h, le_rfl⟩
    · obtain ⟨r, -, rfl⟩ := Option.map_eq_some_iff.1 hm
      exact h.replaced hid newId r

end Market

end Owned

namespace Diagnostics

theorem sample_take (ids : List OrderId) (id : OrderId) :
    sample (ids.take 16) id = (ids ++ [id]).take 16 := by
  unfold sample
  rw [List.length_take, List.take_append]
  split_ifs with h
  · have hlt : ids.length < 16 := by omega
    rw [List.take_of_length_le (l := [id]) (by simp; omega)]
  · have hle : 16 - ids.length = 0 := by omega
    rw [hle, List.take_zero, List.append_nil]

/-- At most one more id. -/
def sampled (samples : List OrderId) (id : Option OrderId) : List OrderId :=
  id.elim samples (sample samples)

theorem sampled_take (ids : List OrderId) (id : Option OrderId) :
    sampled (ids.take 16) id = (ids ++ id.toList).take 16 := by
  rcases id with _ | id
  · rw [Option.toList_none, List.append_nil]
    rfl
  · exact sample_take ids id

variable [OrderBookOps β]

/-- The diagnostics after a message that comes in the state `m`. -/
def counted (newBook : β) (allowedLocates : Finset UInt16) (m : Market β) (d : Diagnostics)
    (message : Option Message) : Diagnostics where
  trackedAdds := d.trackedAdds + (message.bind (Message.trackedAdd allowedLocates)).toList.length
  successfulInserts := d.successfulInserts +
    (message.bind (m.insertedId newBook allowedLocates)).toList.length
  executeCalls := d.executeCalls + (message.bind Message.executed).toList.length
  executeHits := d.executeHits + (message.bind m.hitId).toList.length
  sampleInserts := sampled d.sampleInserts (message.bind (m.insertedId newBook allowedLocates))
  sampleExecs := sampled d.sampleExecs (message.bind m.missedId)

end Diagnostics

namespace Counts

variable [OrderBookOps β]

section Messages

theorem trackedAdds_concat (messages : List (Option Message)) (message : Option Message) :
    trackedAdds allowedLocates (messages ++ [message]) = trackedAdds allowedLocates messages ++
      (message.bind (Message.trackedAdd allowedLocates)).toList := by
  unfold trackedAdds
  rw [List.filterMap_append]
  rcases h : message.bind (Message.trackedAdd allowedLocates) <;> simp [h]

theorem executes_concat (messages : List (Option Message)) (message : Option Message) :
    executes (messages ++ [message]) = executes messages ++
      (message.bind Message.executed).toList := by
  unfold executes
  rw [List.filterMap_append]
  rcases h : message.bind Message.executed <;> simp [h]

theorem collect_concat (f : Market β → Message → Option OrderId) (message : Option Message) :
    ∀ {messages : List (Option Message)} {m m' : Market β},
    m.handleAll newBook allowedLocates messages = some m' →
    Market.collect f newBook allowedLocates m (messages ++ [message]) =
      Market.collect f newBook allowedLocates m messages ++ (message.bind (f m')).toList
  | [], m, m', h => by
    obtain rfl : m = m' := Option.some.inj h
    simp [Market.collect]
  | first :: messages, m, m', h => by
    obtain ⟨m1, hm1, h⟩ := Option.bind_eq_some_iff.1 h
    have ih := collect_concat f message h
    simp only [List.cons_append, Market.collect, hm1, Option.toList_some, List.flatMap_singleton, ih,
      List.append_assoc]

/-- One more message. -/
theorem concat (h : Counts newBook allowedLocates m d messages)
    (hm : m.dispatch newBook allowedLocates message = some m')
    (howned : ∀ owned, m.Owned owned → ∃ owned', m'.Owned owned' ∧
      owned'.card + (message.bind m.hitId).toList.length ≤
        owned.card + (message.bind (m.insertedId newBook allowedLocates)).toList.length) :
    Counts newBook allowedLocates m' (d.counted newBook allowedLocates m message)
      (messages ++ [message]) where
  run := by
    rw [handleAll_append, h.run, Option.bind_some, Market.handleAll, hm]
    rfl
  adds := by
    rw [trackedAdds_concat, List.length_append, ← h.adds]
    rfl
  calls := by
    rw [executes_concat, List.length_append, ← h.calls]
    rfl
  inserts := by
    rw [collect_concat _ _ h.run, List.length_append, ← h.inserts]
    rfl
  hits := by
    rw [collect_concat _ _ h.run, List.length_append, ← h.hits]
    rfl
  sampleInserts := by
    rw [collect_concat _ _ h.run, ← Diagnostics.sampled_take, ← h.sampleInserts]
    rfl
  sampleExecs := by
    rw [collect_concat _ _ h.run, ← Diagnostics.sampled_take, ← h.sampleExecs]
    rfl
  known := by
    obtain ⟨owned, ho, hle⟩ := h.known
    obtain ⟨owned', ho', hcard⟩ := howned owned ho
    refine ⟨owned', ho', ?_⟩
    simp only [Diagnostics.counted]
    omega

end Messages

end Counts

section Dispatch

variable [OrderBookOps β]

/-- What a message adds to the owners it takes from the inserts, and what it hits is known no more. -/
theorem Market.Owned.dispatch (h : m.Owned owned) (hok : m.Ok Inv)
    (hm : m.dispatch newBook allowedLocates message = some m') : ∃ owned', m'.Owned owned' ∧
      owned'.card + (message.bind m.hitId).toList.length ≤
        owned.card + (message.bind (m.insertedId newBook allowedLocates)).toList.length := by
  rcases message with _ | ⟨locate, id, side, price, shares⟩ | ⟨id, shares⟩ | ⟨id, shares⟩ | id |
    ⟨oldId, newId, price, shares⟩
  · exact ⟨owned, Option.some.inj hm ▸ h, le_rfl⟩
  · have hm : m.addOrder newBook allowedLocates locate id side price shares = some m' := hm
    by_cases ht : locate.toNat < kMaxStockLocate ∧ isTracked allowedLocates locate
    · have hlt : locate.toNat < m.marketBooks.size := hok.size ▸ ht.1
      rw [Market.addOrder_tracked side price shares ht hok.size, Option.map_eq_some_iff] at hm
      obtain ⟨r, hr, rfl⟩ := hm
      obtain ⟨owned', ho, hle⟩ := h.added locate.toNat id r
      have hinserted : m.insertedId newBook allowedLocates (.add locate id side price shares) =
          if r.2 then some id else none := by
        simp only [Market.insertedId, if_pos ht, Cells.read_of_lt hlt, Option.bind_eq_bind,
          Option.bind_some, hr]
      refine ⟨owned', ho, ?_⟩
      simp only [Option.bind_some, hinserted]
      rcases r with ⟨b, _ | _⟩ <;> exact hle
    · rw [Market.addOrder_untracked side price shares ht] at hm
      exact ⟨owned, Option.some.inj hm ▸ h, Nat.le_add_right _ _⟩
  · have hm : m.onOwner id (OrderBookOps.executeOrder · id shares) = some m' := hm
    rcases hid : m.refOwner id with _ | locate
    · rw [Market.onOwner_none hid] at hm
      have hhit : m.hitId (.execute id shares) = none := by
        simp only [Market.hitId, hid, Option.bind_eq_bind, Option.bind_none]
      refine ⟨owned, Option.some.inj hm ▸ h, ?_⟩
      simp only [Option.bind_some, hhit]
      exact le_rfl
    · obtain ⟨hlt, b, hb⟩ := hok.owner id locate hid
      have hlt := hok.size.symm ▸ hlt
      rw [Market.onOwner_some hid hlt hb, Option.map_eq_some_iff] at hm
      obtain ⟨r, hr, rfl⟩ := hm
      obtain ⟨owned', ho, hcard⟩ := h.worked hid r
      have hhit : m.hitId (.execute id shares) = if r.2 then some id else none := by
        simp only [Market.hitId, hid, Market.book_of_cell hlt hb, hr, Option.bind_eq_bind,
          Option.bind_some]
      refine ⟨owned', ho, ?_⟩
      simp only [Option.bind_some, hhit]
      rcases r with ⟨b, _ | _⟩ <;> exact hcard.le
  · exact h.onOwner hok hm
  · exact h.onOwner hok hm
  · exact h.replaceOrder hok hm

end Dispatch

namespace Counted

variable [OrderBookOps β]

section Messages

theorem addOrder_eq (c : Counted β) (newBook : β) (allowedLocates : Finset UInt16) (locate : UInt16)
    (id : OrderId) (side : Side) (price shares : UInt32) :
    c.addOrder newBook allowedLocates locate id side price shares =
      (c.market.addOrder newBook allowedLocates locate id side price shares).map fun m =>
        ⟨m, c.diagnostics.counted newBook allowedLocates c.market
          (some (.add locate id side price shares))⟩ := by
  unfold addOrder Market.addOrder Diagnostics.counted
  simp only [Option.bind_some, Message.trackedAdd, Message.executed, Market.insertedId, Market.hitId,
    Market.missedId]
  by_cases ht : locate.toNat < kMaxStockLocate ∧ isTracked allowedLocates locate
  · simp only [if_pos ht]
    rcases c.market.marketBooks.read locate.toNat with _ | place
    · rfl
    simp only [Option.bind_eq_bind, Option.bind_some]
    rcases OrderBookOps.insertLimitOrder (place.getD newBook) id side price shares with _ | ⟨b, r⟩
    · rfl
    simp only [Option.bind_some]
    rcases c.market.setBook locate.toNat b with _ | m
    · rfl
    cases r <;> rfl
  · simp only [if_neg ht]
    rfl

theorem executeOrder_eq (c : Counted β) (newBook : β) (allowedLocates : Finset UInt16) (id : OrderId)
    (shares : UInt32) : c.executeOrder id shares = (c.market.executeOrder id shares).map fun m =>
      ⟨m, c.diagnostics.counted newBook allowedLocates c.market (some (.execute id shares))⟩ := by
  unfold executeOrder Market.executeOrder Market.onOwner Diagnostics.counted
  simp only [Option.bind_some, Message.trackedAdd, Message.executed, Market.insertedId, Market.hitId,
    Market.missedId]
  rcases c.market.refOwner id with _ | locate
  · rfl
  simp only [Option.bind_eq_bind, Option.bind_some]
  rcases c.market.book locate with _ | b
  · rfl
  simp only [Option.bind_some]
  rcases OrderBookOps.executeOrder b id shares with _ | ⟨b', gone⟩
  · rfl
  simp only [Option.bind_some]
  rcases c.market.setBook locate b' with _ | m
  · rfl
  cases gone <;> rfl

/-- The diagnostics do not change what a message does. -/
theorem dispatch_eq (c : Counted β) (newBook : β) (allowedLocates : Finset UInt16) :
    ∀ message : Option Message, c.dispatch newBook allowedLocates message =
      (c.market.dispatch newBook allowedLocates message).map fun m =>
        ⟨m, c.diagnostics.counted newBook allowedLocates c.market message⟩
  | none => rfl
  | some (.add locate id side _ _) => c.addOrder_eq newBook allowedLocates locate id side _ _
  | some (.execute id shares) => c.executeOrder_eq newBook allowedLocates id shares
  | some (.cancel _ _) => rfl
  | some (.delete _) => rfl
  | some (.replace _ _ _ _) => rfl

/-- Messages one after the other, counted. -/
theorem foldlM_counts (hret : Returns newBook Inv) (allowedLocates : Finset UInt16) :
    ∀ (todo : List (Option Message)) {done : List (Option Message)} {c : Counted β},
    Counts newBook allowedLocates c.market c.diagnostics done → c.market.Ok Inv →
    ∃ c', todo.foldlM (Counted.dispatch · newBook allowedLocates) c = some c' ∧
      Counts newBook allowedLocates c'.market c'.diagnostics (done ++ todo)
  | [], done, c, h, _ => ⟨c, rfl, by rwa [List.append_nil]⟩
  | message :: todo, done, c, h, hok => by
    obtain ⟨m, hm, hok'⟩ := hok.dispatch hret allowedLocates message
    have h1 := h.concat hm fun owned ho => ho.dispatch hok hm
    obtain ⟨c', hc', h'⟩ := foldlM_counts hret allowedLocates todo
      (c := ⟨m, c.diagnostics.counted newBook allowedLocates c.market message⟩) h1 hok'
    refine ⟨c', ?_, by rwa [List.append_assoc] at h'⟩
    rw [List.foldlM_cons, dispatch_eq, hm]
    exact hc'

end Messages

section Rounds

variable {file pre rest f : List UInt8} {fs : List (List UInt8)}

theorem rounds_stuck (h : Stuck frames rest) (n : ℕ) :
    rounds newBook allowedLocates (pre ++ rest) n pre.length c = some c := by
  cases n with
  | zero => rfl
  | succ n =>
    rw [rounds, header_stuck h]
    rfl

/-- The rounds through the frames `fs`. -/
theorem rounds_frames : ∀ {fs : List (List UInt8)} {pre : List UInt8} {c : Counted β} (n : ℕ),
    (∀ f ∈ fs, IsFrame f) →
    rounds newBook allowedLocates (pre ++ (fs.flatten ++ rest)) (fs.length + n) pre.length c =
      ((messagesOf fs rest).foldlM (Counted.dispatch · newBook allowedLocates) c).bind
        (rounds newBook allowedLocates (pre ++ (fs.flatten ++ rest)) n (pre ++ fs.flatten).length)
  | [], pre, c, n, _ => by simp [messagesOf]
  | f :: fs, pre, c, n, hfs => by
    obtain ⟨hf, hfs⟩ := List.forall_mem_cons.1 hfs
    have hthree := hf.three_le
    have hfile : pre ++ ((f :: fs).flatten ++ rest) = pre ++ (f ++ (fs.flatten ++ rest)) := by
      simp
    have hcount : (f :: fs).length + n = fs.length + n + 1 := by
      rw [List.length_cons]
      omega
    have hcursor : pre.length + 2 + (f.length - 2) = (pre ++ f).length := by
      rw [List.length_append]
      omega
    rw [hfile, hcount, rounds, header_frame hf]
    simp only [Option.bind_eq_bind, Option.bind_some]
    rw [body_messageOf, hcursor, messagesOf, List.foldlM_cons]
    simp only [Option.bind_eq_bind, Option.bind_some]
    rcases c.dispatch newBook allowedLocates (messageOf (f ++ (fs.flatten ++ rest))) with _ | c'
    · rfl
    · have ih : rounds newBook allowedLocates (pre ++ f ++ (fs.flatten ++ rest)) (fs.length + n)
          (pre ++ f).length c' = _ := rounds_frames n hfs
      simp only [List.append_assoc] at ih
      rw [List.flatten_cons]
      exact ih

theorem parseItchFile_frames (h : Splits frames fs rest file) (hend : Stuck frames rest) :
    parseItchFile newBook allowedLocates file =
      (messagesOf fs rest).foldlM (Counted.dispatch · newBook allowedLocates) {} := by
  have hle := h.length_le nil_notMem_frames
  have hcount : file.length = fs.length + (file.length - fs.length) := by omega
  have hrounds : rounds newBook allowedLocates ([] ++ (fs.flatten ++ rest))
      (fs.length + (file.length - fs.length)) ([] : List UInt8).length {} = _ :=
    rounds_frames _ h.mem
  rw [List.nil_append, ← h.eq, ← hcount] at hrounds
  refine hrounds.trans ?_
  have hlast : rounds newBook allowedLocates file (file.length - fs.length)
      ([] ++ fs.flatten).length = some := funext fun c => by
    rw [List.nil_append, h.eq]
    exact rounds_stuck hend _
  rw [hlast]
  exact Option.bind_fun_some _

end Rounds

end Counted

section Files

variable [OrderBookOps β]

/-- Whatever the bytes are, the loop with its diagnostics ends in the books and owners of the loop
without them, and the diagnostics are those of the messages of the frames. The warning is printed just
where no frame is an add to a tracked ticker. -/
theorem parse_counted (hret : Returns newBook Inv) (allowedLocates : Finset UInt16)
    (file : List UInt8) : ∃ fs rest c, Splits frames fs rest file ∧ Stuck frames rest ∧
      Counted.parseItchFile newBook allowedLocates file = some c ∧
      parseItchFile newBook allowedLocates file {} = some c.market ∧
      Counts newBook allowedLocates c.market c.diagnostics (messagesOf fs rest) ∧
      (c.diagnostics.warns ↔ ∀ message ∈ messagesOf fs rest, ∀ x ∈ message,
        Message.trackedAdd allowedLocates x = none) := by
  obtain ⟨fs, rest, hsplit, hend⟩ := exists_stuck nil_notMem_frames file
  have hinit : Counts newBook allowedLocates ({} : Market β) {} [] := {
    run := rfl
    adds := rfl
    calls := rfl
    inserts := rfl
    hits := rfl
    sampleInserts := rfl
    sampleExecs := rfl
    known := ⟨∅, fun id => by simp, le_rfl⟩ }
  obtain ⟨c, hc, h⟩ := Counted.foldlM_counts hret allowedLocates (messagesOf fs rest)
    (c := {}) hinit (Market.ok_init Inv)
  rw [List.nil_append] at h
  refine ⟨fs, rest, c, hsplit, hend, ?_, ?_, h, ?_⟩
  · rw [Counted.parseItchFile_frames hsplit hend, hc]
  · rw [parseItchFile_eq newBook allowedLocates hsplit hend]
    exact h.run
  · rw [Diagnostics.warns, h.adds, List.length_eq_zero_iff, trackedAdds, List.filterMap_eq_nil_iff]
    refine forall₂_congr fun message _ => ?_
    rw [Option.bind_eq_none_iff]
    rfl

end Files

/-- Two tickers, one of them tracked. -/
theorem parse_counted_oneTracked : ∃ fs rest c,
    Splits frames fs rest (addSeven ++ addEight ++ deleteSeven) ∧ Stuck frames rest ∧
      Counted.parseItchFile (fresh 16 4) {1} (addSeven ++ addEight ++ deleteSeven) = some c ∧
      parseItchFile (fresh 16 4) {1} (addSeven ++ addEight ++ deleteSeven) {} = some c.market ∧
      Counts (fresh 16 4) {1} c.market c.diagnostics (messagesOf fs rest) ∧
      (c.diagnostics.warns ↔ ∀ message ∈ messagesOf fs rest, ∀ x ∈ message,
        Message.trackedAdd {1} x = none) :=
  parse_counted (fresh_returns (by decide) (by decide) (by decide) (by decide)) {1} _

end Nanomatch
