import Nanomatch.Lib.Tagged
import Nanomatch.Proofs.ItchBounds
import Nanomatch.Proofs.ItchTickers
import Nanomatch.Proofs.TradeRuns
import Nanomatch.Routing

/-!
# The books run apart

What a place holds is a new book after the calls that went to this place, whatever went to the others
in between. So all that is known of the runs of one book is known of the books of a replay.
-/

namespace Nanomatch

open Framing ItchParser OrderBook Tagged

variable {M : Type} [IdMapOps M] {newBook b c : OrderBook M} {m m' : Market (OrderBook M)}
  {Inv : OrderBook M → Prop} {allowedLocates : Finset UInt16} {log log' : List (ℕ × Op)}
  {locate i : ℕ} {id oldId newId : OrderId} {ops : List Op}

section Calls

theorem callsTo_eq (locate : ℕ) (log : List (ℕ × Op)) : callsTo locate log = ofTag locate log := rfl

theorem callsTo_append (i : ℕ) (log log' : List (ℕ × Op)) :
    callsTo i (log ++ log') = callsTo i log ++ callsTo i log' := ofTag_append i log log'

theorem callsTo_same (locate : ℕ) (ops : List Op) :
    callsTo locate (ops.map (locate, ·)) = ops := ofTag_same locate ops

theorem callsTo_other (h : i ≠ locate) (ops : List Op) : callsTo i (ops.map (locate, ·)) = [] :=
  ofTag_other h ops

end Calls

namespace Market

section Holds

/-- The places hold what the calls of `log` made of new books. -/
structure Holds (newBook : OrderBook M) (allowedLocates : Finset UInt16) (m : Market (OrderBook M))
    (log : List (ℕ × Op)) : Prop where
  run : ∀ i, newBook.run (callsTo i log) = some ((m.marketBooks.cell i).getD newBook)
  empty : ∀ i, m.marketBooks.cell i = none ↔ callsTo i log = []
  tracked : ∀ e ∈ log, e.1 < kMaxStockLocate ∧ isTracked allowedLocates (UInt16.ofNat e.1)

theorem holds_init (newBook : OrderBook M) (allowedLocates : Finset UInt16) :
    Holds newBook allowedLocates {} [] where
  run _ := rfl
  empty _ := ⟨fun _ => rfl, fun _ => rfl⟩
  tracked _ he := absurd he List.not_mem_nil

theorem Holds.congr (h : Holds newBook allowedLocates m log)
    (hcell : m'.marketBooks.cell = m.marketBooks.cell) : Holds newBook allowedLocates m' log where
  run i := hcell ▸ h.run i
  empty i := hcell ▸ h.empty i
  tracked := h.tracked

/-- A place that holds a book has had calls, so it is tracked. -/
theorem Holds.place (h : Holds newBook allowedLocates m log)
    (hb : m.marketBooks.cell locate = some b) :
    locate < kMaxStockLocate ∧ isTracked allowedLocates (UInt16.ofNat locate) := by
  have hne : callsTo locate log ≠ [] := fun hnil =>
    Option.some_ne_none b (hb.symm.trans ((h.empty locate).2 hnil))
  obtain ⟨op, hop⟩ := List.exists_mem_of_ne_nil _ hne
  obtain ⟨e, he, -⟩ := List.mem_map.1 hop
  obtain ⟨hmem, heq⟩ := List.mem_filter.1 he
  obtain rfl : e.1 = locate := of_decide_eq_true heq
  exact h.tracked e hmem

/-- What a place shows, if a place without a book counts as a new one. -/
theorem Holds.book_getD (h : Holds newBook allowedLocates m log)
    (hsize : m.marketBooks.size = kMaxStockLocate) (locate : ℕ) :
    (m.book locate).getD newBook = (m.marketBooks.cell locate).getD newBook := by
  rcases hcell : m.marketBooks.cell locate with _ | b
  · by_cases hlt : locate < m.marketBooks.size <;> simp [Market.book, Cells.read, hlt, hcell]
  · rw [Market.book_of_cell (hsize.symm ▸ (h.place hcell).1) hcell]

/-- Calls on one book. -/
theorem Holds.put (h : Holds newBook allowedLocates m log) (hne : ops ≠ [])
    (hin : locate < kMaxStockLocate ∧ isTracked allowedLocates (UInt16.ofNat locate))
    (hrun : ((m.marketBooks.cell locate).getD newBook).run ops = some c) :
    Holds newBook allowedLocates (m.put locate c) (log ++ ops.map (locate, ·)) where
  run i := by
    rw [callsTo_append, run_append, h.run i, Option.bind_some, put_cell]
    split_ifs with hi
    · rw [hi, callsTo_same, hrun]
      rfl
    · rw [callsTo_other hi]
      rfl
  empty i := by
    rw [callsTo_append, put_cell]
    split_ifs with hi
    · rw [hi, callsTo_same, List.append_eq_nil_iff]
      exact ⟨fun hc => absurd hc (by simp), fun hc => absurd hc.2 hne⟩
    · rw [callsTo_other hi, List.append_nil]
      exact h.empty i
  tracked e he := by
    rcases List.mem_append.1 he with he | he
    · exact h.tracked e he
    · obtain ⟨op, -, rfl⟩ := List.mem_map.1 he
      exact hin

omit [IdMapOps M] in
theorem added_cell (r : OrderBook M × Bool) :
    (m.added locate id r).marketBooks.cell = (m.put locate r.1).marketBooks.cell := by
  unfold added
  split_ifs <;> rfl

omit [IdMapOps M] in
theorem worked_cell (r : OrderBook M × Bool) :
    (m.worked locate id r).marketBooks.cell = (m.put locate r.1).marketBooks.cell := by
  unfold worked
  split_ifs <;> rfl

omit [IdMapOps M] in
theorem replaced_cell (r : OrderBook M × Bool) :
    (m.replaced locate oldId newId r).marketBooks.cell = (m.put locate r.1).marketBooks.cell := by
  unfold replaced
  split_ifs <;> rfl

end Holds

section Handle

theorem run_single {op : Op} {r : OrderBook M × Bool} (h : b.step op = some r) :
    b.run [op] = some r.1 := by
  simp [OrderBook.run, h]

theorem run_cancel {r : OrderBook M × Bool} (h : (b.cancelOrder id).map (·, true) = some r) :
    b.run [.cancelOrder id] = some r.1 := by
  obtain ⟨b', hb', rfl⟩ := Option.map_eq_some_iff.1 h
  simp [OrderBook.run, OrderBook.step, hb']

theorem Holds.addOrder (h : Holds newBook allowedLocates m log) (hok : m.Ok Inv) {locate : UInt16}
    {side : Side} {price shares : UInt32}
    (hm : m.addOrder newBook allowedLocates locate id side price shares = some m') :
    Holds newBook allowedLocates m'
      (log ++ m.calls allowedLocates (.add locate id side price shares)) := by
  simp only [calls]
  by_cases ht : locate.toNat < kMaxStockLocate ∧ isTracked allowedLocates locate
  · rw [addOrder_tracked side price shares ht hok.size] at hm
    obtain ⟨r, hr, rfl⟩ := Option.map_eq_some_iff.1 hm
    rw [if_pos ht]
    refine (h.put (List.cons_ne_nil (Op.insertLimitOrder id side price shares) []) ?_
      (run_single hr)).congr (added_cell r)
    rwa [UInt16.ofNat_toNat]
  · rw [addOrder_untracked side price shares ht] at hm
    obtain rfl := Option.some.inj hm
    rwa [if_neg ht, List.append_nil]

/-- A message that makes one call on the book of its order. -/
theorem Holds.onOwner (h : Holds newBook allowedLocates m log) (hok : m.Ok Inv)
    {f : OrderBook M → Option (OrderBook M × Bool)} (op : Op)
    (hop : ∀ {b r}, f b = some r → b.run [op] = some r.1) (hm : m.onOwner id f = some m') :
    Holds newBook allowedLocates m' (log ++ (m.refOwner id).toList.map (·, op)) := by
  rcases hid : m.refOwner id with _ | locate
  · rw [onOwner_none hid] at hm
    obtain rfl := Option.some.inj hm
    simpa using h
  · obtain ⟨hlt, b, hb⟩ := hok.owner id locate hid
    rw [onOwner_some hid (hok.size.symm ▸ hlt) hb] at hm
    obtain ⟨r, hr, rfl⟩ := Option.map_eq_some_iff.1 hm
    refine (h.put (List.cons_ne_nil op []) (h.place hb) ?_).congr (worked_cell r)
    rw [hb, Option.getD_some]
    exact hop hr

theorem Holds.replaceOrder (h : Holds newBook allowedLocates m log) (hok : m.Ok Inv)
    {price shares : UInt32} (hm : m.replaceOrder oldId newId price shares = some m') :
    Holds newBook allowedLocates m'
      (log ++ m.calls allowedLocates (.replace oldId newId price shares)) := by
  simp only [calls]
  rcases hid : m.refOwner oldId with _ | locate
  · rw [replaceOrder_none hid] at hm
    obtain rfl := Option.some.inj hm
    simpa using h
  obtain ⟨hlt, b, hb⟩ := hok.owner oldId locate hid
  have hbook := book_of_cell (hok.size.symm ▸ hlt) hb
  rw [replaceOrder_some hid (hok.size.symm ▸ hlt) hb] at hm
  obtain ⟨idx, hfind, hm⟩ := Option.bind_eq_some_iff.1 hm
  split_ifs at hm with hnull
  · obtain rfl := Option.some.inj hm
    have hside : m.sideIn locate oldId = none := by simp [sideIn, hbook, hfind, hnull]
    simpa [hside] using h
  · obtain ⟨r, hr, rfl⟩ := Option.map_eq_some_iff.1 hm
    obtain ⟨side, hs, hr⟩ := Option.bind_eq_some_iff.1 hr
    obtain ⟨b', hcancel, hinsert⟩ := Option.bind_eq_some_iff.1 hr
    have hside : m.sideIn locate oldId = some side := by simp [sideIn, hbook, hfind, hnull, hs]
    have hrun : b.run [.cancelOrder oldId, .insertLimitOrder newId side price shares] = some r.1 := by
      have hfirst : b.run [.cancelOrder oldId] = some b' :=
        run_cancel (r := (b', true)) (congrArg (Option.map (·, true)) hcancel)
      rw [← List.singleton_append, run_append, hfirst]
      exact run_single hinsert
    have hcell : (m.replaced locate oldId newId r).marketBooks.cell = _ := replaced_cell r
    have hput := (h.put (List.cons_ne_nil _ _) (h.place hb) (by rw [hb]; exact hrun)).congr hcell
    simpa [hside] using hput

theorem Holds.dispatch (h : Holds newBook allowedLocates m log) (hok : m.Ok Inv) :
    ∀ {message : Option Message}, m.dispatch newBook allowedLocates message = some m' →
      Holds newBook allowedLocates m' (log ++ message.toList.flatMap (m.calls allowedLocates))
  | none, hm => by
    obtain rfl : m = m' := Option.some.inj hm
    simpa using h
  | some (.add locate id side price shares), hm => by simpa using h.addOrder hok hm
  | some (.execute id shares), hm => by
    simpa [calls] using h.onOwner hok (.executeOrder id shares) run_single hm
  | some (.cancel id shares), hm => by
    simpa [calls] using h.onOwner hok (.reduceOrderQty id shares) run_single hm
  | some (.delete id), hm => by
    simpa [calls] using h.onOwner hok (.cancelOrder id) run_cancel hm
  | some (.replace oldId newId price shares), hm => by simpa using h.replaceOrder hok hm

theorem Holds.handleAll (hret : Returns newBook Inv) : ∀ {messages : List (Option Message)}
    {m : Market (OrderBook M)} {log : List (ℕ × Op)}, Holds newBook allowedLocates m log → m.Ok Inv →
    m.handleAll newBook allowedLocates messages = some m' →
    Holds newBook allowedLocates m' (log ++ m.log newBook allowedLocates messages)
  | [], m, log, h, _, hm => by
    obtain rfl : m = m' := Option.some.inj hm
    simpa [Market.log] using h
  | message :: messages, m, log, h, hok, hm => by
    obtain ⟨m1, hm1, hok1⟩ := hok.dispatch hret allowedLocates message
    simp only [Market.handleAll, hm1, Option.bind_eq_bind, Option.bind_some] at hm
    simpa [Market.log, hm1] using (h.dispatch hok hm1).handleAll hret hok1 hm

end Handle

end Market

section Replays

/-- The messages of the first frames, in the file that holds them all. -/
theorem messagesOf_take {fs : List (List UInt8)} {rest file : List UInt8}
    (h : Splits frames fs rest file) (n : ℕ) : (messagesOf fs rest).take n =
      messagesOf (fs.take n) (file.drop (fs.take n).flatten.length) := by
  have hfile : file = (fs.take n).flatten ++ ((fs.drop n).flatten ++ rest) := by
    rw [h.eq, ← List.append_assoc, ← List.flatten_append, List.take_append_drop]
  have hdrop : file.drop (fs.take n).flatten.length = (fs.drop n).flatten ++ rest := by
    conv_lhs => rw [hfile, List.drop_left]
  have hsplit := messagesOf_append (fs.take n) (fs.drop n) rest
  rw [List.take_append_drop] at hsplit
  rw [hdrop, hsplit]
  rcases Nat.le_total n fs.length with hn | hn
  · exact List.take_left' (by rw [messagesOf_length, List.length_take, Nat.min_eq_left hn])
  · have hnone : fs.drop n = [] := List.drop_eq_nil_of_le hn
    rw [hnone, messagesOf, List.append_nil]
    exact List.take_of_length_le (by rw [messagesOf_length]; exact List.length_take_le n fs)

variable {band cap : ℕ} (hband : 0 < band) (hband' : band < 2 ^ 32) (hcap : 0 < cap)
  (hcap' : cap < 2 ^ 32)

include hband hband' hcap hcap'

/-- Whatever the bytes are, the calls all go to places of tracked tickers, and each place holds what
the calls that go there make of a new book: nothing if there are none, and else a consistent book
that made no more trades than it had calls that can trade. -/
theorem rounds_books (allowedLocates : Finset UInt16) (file : List UInt8) (n : ℕ) :
    ∃ r log, rounds (fresh band cap) allowedLocates file n { market := {} } = some r ∧
      log = Market.log (fresh band cap) allowedLocates {}
        (messagesOf r.dispatched (file.drop r.cursor)) ∧
      (∀ e ∈ log, e.1 < kMaxStockLocate ∧ isTracked allowedLocates (UInt16.ofNat e.1)) ∧
      ∀ locate, callsTo locate log = [] ∧ r.market.book locate = none ∨
        callsTo locate log ≠ [] ∧ ∃ c, r.market.book locate = some c ∧
          (fresh band cap).run (callsTo locate log) = some c ∧ c.Consistent band cap ∧
          c.logger.length + c.restingCount ≤ tradingCalls (callsTo locate log) := by
  have hret := fresh_returns hband hband' hcap hcap'
  obtain ⟨fs, rest, hsplit, hend⟩ := exists_stuck nil_notMem_frames file
  obtain ⟨m, hm, hok⟩ := Market.Ok.handleAll hret allowedLocates ((messagesOf fs rest).take n)
    (Market.ok_init _)
  have hholds := (Market.holds_init (fresh band cap) allowedLocates).handleAll hret
    (Market.ok_init _) hm
  rw [List.nil_append, messagesOf_take hsplit n] at hholds
  refine ⟨_, _, by rw [rounds_eq _ allowedLocates hsplit hend, hm]; rfl, rfl, hholds.tracked,
    fun locate => ?_⟩
  rcases hcell : m.marketBooks.cell locate with _ | c
  · refine .inl ⟨(hholds.empty locate).1 hcell, ?_⟩
    by_cases hlt : locate < m.marketBooks.size <;> simp [Market.book, Cells.read, hlt, hcell]
  · have hlt := hok.size.symm ▸ (hholds.place hcell).1
    have hrun := hholds.run locate
    rw [hcell, Option.getD_some] at hrun
    have hnew := Ladder.new_wf hband hband' hcap'
    obtain ⟨c', hc', hrep, -⟩ := run_fresh hband hband' hcap hcap' (callsTo locate _)
    obtain rfl := Option.some.inj (hrun.symm.trans hc')
    refine .inr ⟨fun hnil => ?_, c, Market.book_of_cell hlt hcell, hrun, hrep.consistent_run hnew,
      hrep.trades_le hnew⟩
    exact Option.some_ne_none c (hcell.symm.trans ((hholds.empty locate).2 hnil))

end Replays

/-- Two tickers. -/
theorem rounds_books_twoTickers : ∃ r log,
    rounds (fresh 16 4) ∅ (addSeven ++ addEight ++ deleteSeven) 3 { market := {} } = some r ∧
      log = Market.log (fresh 16 4) ∅ {}
        (messagesOf r.dispatched ((addSeven ++ addEight ++ deleteSeven).drop r.cursor)) ∧
      (∀ e ∈ log, e.1 < kMaxStockLocate ∧ isTracked ∅ (UInt16.ofNat e.1)) ∧
      ∀ locate, callsTo locate log = [] ∧ r.market.book locate = none ∨
        callsTo locate log ≠ [] ∧ ∃ c, r.market.book locate = some c ∧
          (fresh 16 4).run (callsTo locate log) = some c ∧ c.Consistent 16 4 ∧
          c.logger.length + c.restingCount ≤ tradingCalls (callsTo locate log) :=
  rounds_books (by decide) (by decide) (by decide) (by decide) ∅ _ 3

end Nanomatch
