import Nanomatch.Proofs.EngineRuns
import Nanomatch.Proofs.RoutingRuns

/-!
# The report of a replay

The books of a replay share one logger. A message is about one place, and what it adds to the report
is what its book added to its own trades. So the report is the trades of all books, those of each book
in order, and a message adds no more than one trade that no order has paid for.
-/

namespace Nanomatch

open Framing ItchParser OrderBook Tagged

variable {c c' newBook : OrderBook FinMap} {m m' : Market (OrderBook FinMap)}
  {allowedLocates : Finset UInt16} {log : List (ℕ × Op)} {locate : ℕ} {message : Message}
  {band cap : ℕ}

section Runs

/-- A book's trades are only ever added to. -/
theorem run_logger : ∀ {ops : List Op} {c : OrderBook FinMap} {a : Ladder}, Rep finLaws c a → a.Wf →
    c.run ops = some c' → c.logger <+: c'.logger
  | [], c, a, _, _, hc => Option.some.inj hc ▸ List.prefix_rfl
  | op :: ops, c, a, h, hw, hc => by
    obtain ⟨c1, hc1, h1⟩ := h.step hw op trivial
    obtain ⟨new, hnew⟩ := hw.step_booked op
    rw [OrderBook.run, hc1] at hc
    refine List.IsPrefix.trans ?_ (run_logger h1 (hw.step op) hc)
    rw [h.logger, h1.logger, hnew.trades]
    exact List.prefix_append _ _

end Runs

namespace Market

section Messages

/-- The calls of a message go to its place. -/
theorem callsTo_place (hne : callsTo locate (m.calls allowedLocates message) ≠ []) :
    m.place allowedLocates message = some locate := by
  obtain ⟨op, hop⟩ := List.exists_mem_of_ne_nil _ hne
  obtain ⟨e, he, -⟩ := List.mem_map.1 hop
  obtain ⟨hmem, heq⟩ := List.mem_filter.1 he
  obtain rfl : e.1 = locate := of_decide_eq_true heq
  have howner : ∀ {id op}, e ∈ (m.refOwner id).toList.map (·, op) → m.refOwner id = some e.1 := by
    intro id op he
    obtain ⟨i, hi, rfl⟩ := List.mem_map.1 he
    exact Option.mem_toList.1 hi
  cases message with
  | add locate id side price shares =>
    simp only [calls, place] at hmem ⊢
    split_ifs at hmem ⊢
    · rw [List.mem_singleton.1 hmem]
    · exact absurd hmem List.not_mem_nil
  | execute id shares => exact howner hmem
  | cancel id shares => exact howner hmem
  | delete id => exact howner hmem
  | replace oldId newId price shares =>
    obtain ⟨i, hi, hmem⟩ := List.mem_flatMap.1 hmem
    obtain ⟨side, -, hmem⟩ := List.mem_flatMap.1 hmem
    rw [place, Option.mem_toList.1 hi]
    rcases List.mem_cons.1 hmem with rfl | hmem
    · rfl
    · rw [List.mem_singleton.1 hmem]

/-- A message makes no more than one call that can trade. -/
theorem calls_trading (m : Market (OrderBook FinMap)) (allowedLocates : Finset UInt16)
    (message : Message) : ((m.calls allowedLocates message).map (Op.trading ·.2)).sum ≤ 1 := by
  have hone : ∀ {id} {op : Op}, op.trading ≤ 1 →
      (((m.refOwner id).toList.map (·, op)).map (Op.trading ·.2)).sum ≤ 1 := by
    intro id op hop
    rcases m.refOwner id with _ | i
    · exact Nat.zero_le 1
    · simpa using hop
  cases message with
  | add locate id side price shares =>
    simp only [calls]
    split_ifs
    · exact le_rfl
    · exact Nat.zero_le 1
  | execute id shares => exact hone le_rfl
  | cancel id shares => exact hone (Nat.zero_le 1)
  | delete id => exact hone (Nat.zero_le 1)
  | replace oldId newId price shares =>
    rcases hid : m.refOwner oldId with _ | i
    · simp [calls, hid]
    · rcases hside : m.sideIn i oldId with _ | side <;> simp [calls, hid, hside, Op.trading]

theorem log_trading (newBook : OrderBook FinMap) (allowedLocates : Finset UInt16) :
    ∀ (messages : List (Option Message)) (m : Market (OrderBook FinMap)),
    ((m.log newBook allowedLocates messages).map (Op.trading ·.2)).sum ≤ messages.length
  | [], _ => le_rfl
  | message :: messages, m => by
    have hhead : ((message.toList.flatMap (m.calls allowedLocates)).map (Op.trading ·.2)).sum ≤ 1 := by
      rcases message with _ | message
      · exact Nat.zero_le 1
      · rw [Option.toList_some, List.flatMap_singleton]
        exact m.calls_trading allowedLocates message
    rw [Market.log, List.map_append, List.sum_append, List.length_cons, Nat.add_comm]
    refine Nat.add_le_add ?_ hhead
    rcases m.dispatch newBook allowedLocates message with _ | m'
    · exact Nat.zero_le _
    · rw [Option.toList_some, List.flatMap_singleton]
      exact log_trading newBook allowedLocates messages m'

end Messages

section Reports

/-- Every book of a replay represents a ladder. -/
def Represented (c : OrderBook FinMap) : Prop := ∃ a, Rep finLaws c a ∧ a.Wf

theorem reported_eq (h : Holds newBook allowedLocates m log)
    (hsize : m.marketBooks.size = kMaxStockLocate) (hnew : newBook.logger = []) (locate : ℕ) :
    m.reported locate = ((m.marketBooks.cell locate).getD newBook).logger := by
  rw [← h.book_getD hsize, reported]
  rcases m.book locate with _ | b
  · exact hnew.symm
  · rfl

/-- A message adds to the trades of a place what it prints with this place. -/
theorem Holds.reported_dispatch (h : Holds newBook allowedLocates m log) (hok : m.Ok Represented)
    (hret : Returns newBook Represented) (hnew : newBook.logger = []) {message : Option Message}
    (hm : m.dispatch newBook allowedLocates message = some m') (locate : ℕ) :
    m'.reported locate = m.reported locate ++
      ofTag locate (message.toList.flatMap (m.printed allowedLocates m')) := by
  rcases message with _ | message
  · obtain rfl := Option.some.inj hm
    exact (List.append_nil _).symm
  obtain ⟨m1, hm1, hok'⟩ := hok.dispatch hret allowedLocates (some message)
  obtain rfl : m1 = m' := Option.some.inj (hm1.symm.trans hm)
  have h' := h.dispatch hok hm
  have hrun := h'.run locate
  rw [callsTo_append, run_append, h.run locate, Option.bind_some] at hrun
  rw [reported_eq h hok.size hnew, reported_eq h' hok'.size hnew]
  rw [Option.toList_some, List.flatMap_singleton] at hrun ⊢
  by_cases hp : m.place allowedLocates message = some locate
  · obtain ⟨a, hrep, hw⟩ : Represented ((m.marketBooks.cell locate).getD newBook) := by
      rcases hc : m.marketBooks.cell locate with _ | b
      · exact hret.new
      · exact hok.books locate b hc
    obtain ⟨new, hprefix⟩ := run_logger hrep hw hrun
    rw [printed, hp, Option.toList_some, List.flatMap_singleton, ofTag_same,
      reported_eq h hok.size hnew, reported_eq h' hok'.size hnew, ← hprefix, List.drop_left]
  · have hcalls : callsTo locate (m.calls allowedLocates message) = [] := by
      by_contra hne
      exact hp (callsTo_place hne)
    have hnone : ofTag locate (m.printed allowedLocates m1 message) = [] := by
      rw [printed]
      rcases hj : m.place allowedLocates message with _ | j
      · rfl
      · have hne : locate ≠ j := fun he => hp (hj.trans (congrArg some he.symm))
        rw [Option.toList_some, List.flatMap_singleton]
        exact ofTag_other hne _
    rw [hcalls] at hrun
    rw [hnone, List.append_nil, ← Option.some.inj hrun]

theorem Holds.reported_handleAll (hret : Returns newBook Represented) (hnew : newBook.logger = []) :
    ∀ {messages : List (Option Message)} {m : Market (OrderBook FinMap)} {log : List (ℕ × Op)},
    Holds newBook allowedLocates m log → m.Ok Represented →
    m.handleAll newBook allowedLocates messages = some m' → ∀ locate,
      m'.reported locate =
        m.reported locate ++ ofTag locate (m.report newBook allowedLocates messages)
  | [], m, log, _, _, hm, locate => by
    obtain rfl : m = m' := Option.some.inj hm
    exact (List.append_nil _).symm
  | message :: messages, m, log, h, hok, hm, locate => by
    obtain ⟨m1, hm1, hok1⟩ := hok.dispatch hret allowedLocates message
    simp only [Market.handleAll, hm1, Option.bind_eq_bind, Option.bind_some] at hm
    rw [(h.dispatch hok hm1).reported_handleAll hret hnew hok1 hm locate,
      h.reported_dispatch hok hret hnew hm1 locate, List.append_assoc, ← ofTag_append]
    simp only [Market.report, hm1, Option.toList_some, List.flatMap_singleton]

end Reports

end Market

section Replays

variable (hband : 0 < band) (hband' : band < 2 ^ 32) (hcap : 0 < cap) (hcap' : cap < 2 ^ 32)

include hband hband' hcap hcap'

/-- What the logger is given in a replay is the trades of the books, those of each book in order, and
no more than the file has frames. However the logger's thread is interleaved with the replay, the
report is all of it if there are no more frames than the queue has slots. -/
theorem parse_report (allowedLocates : Finset UInt16) {fs : List (List UInt8)}
    {rest file : List UInt8} (hsplit : Splits frames fs rest file) (hend : Stuck frames rest) :
    ∃ m shared, parseItchFile (fresh band cap) allowedLocates file {} = some m ∧
      shared = Market.report (fresh band cap) allowedLocates {} (messagesOf fs rest) ∧
      (∀ locate, ofTag locate shared = m.reported locate) ∧ shared.length ≤ fs.length ∧
      (fs.length ≤ 2 ^ (kCapacity : ℕ) → ∀ {T : Type} (trade : T → Trade) (buffer) (tr)
        (l : AsyncLogger T), Trace AsyncLogger.Step (AsyncLogger.new buffer) tr l →
        (SPSCQueue.called tr).map trade = shared.map Prod.snd → l.caller = .stopped →
        l.out = .header :: (SPSCQueue.called tr).map .trade ∧ l.droppedCount = 0) := by
  have hret : Returns (fresh band cap) Market.Represented := fresh_returns hband hband' hcap hcap'
  obtain ⟨m, hm, hok⟩ := Market.Ok.handleAll hret allowedLocates (messagesOf fs rest)
    (Market.ok_init _)
  have h0 := Market.holds_init (fresh band cap) allowedLocates
  have hholds := h0.handleAll hret (Market.ok_init _) hm
  rw [List.nil_append] at hholds
  have hreported : ∀ locate, ofTag locate (Market.report (fresh band cap) allowedLocates {}
      (messagesOf fs rest)) = m.reported locate := fun locate => by
    have hempty : Market.reported ({} : Market (OrderBook FinMap)) locate = [] :=
      Market.reported_eq h0 rfl rfl locate
    rw [h0.reported_handleAll hret rfl (Market.ok_init _) hm locate, hempty, List.nil_append]
  have hlen : (Market.report (fresh band cap) allowedLocates {} (messagesOf fs rest)).length ≤
      fs.length := by
    have hlog := Market.log_trading (fresh band cap) allowedLocates (messagesOf fs rest) {}
    rw [messagesOf_length] at hlog
    refine (length_le_of_ofTag Op.trading fun locate => ?_).trans hlog
    rw [hreported, Market.reported_eq hholds hok.size rfl, ← callsTo_eq]
    obtain ⟨c, hc, hrep, -⟩ := run_fresh hband hband' hcap hcap' (callsTo locate _)
    rw [← Option.some.inj (hc.symm.trans (hholds.run locate))]
    have htrades := hrep.trades_le (Ladder.new_wf hband hband' hcap')
    unfold tradingCalls at htrades
    omega
  refine ⟨m, _, (parseItchFile_eq _ _ hsplit hend _).trans hm, rfl, hreported, hlen, ?_⟩
  intro hle T trade buffer tr l
  refine Engine.report_trades ?_ trade
  rw [List.length_map]
  exact hlen.trans hle

end Replays

/-- A bid for ticker 1, at a higher price than the ask of `addSeven`. -/
def addNine : List UInt8 := [0, 36, 65, 0, 1, 0, 0, 0, 0, 0, 0, 0, 0, 0, 0, 0, 0, 0, 0, 0, 9, 66,
  0, 0, 0, 3, 65, 65, 65, 65, 65, 65, 65, 65, 0, 0, 0, 101]

/-- The orders of two tickers, one of which trades. -/
theorem parse_report_twoTickers : ∃ m shared,
    parseItchFile (fresh 16 4) ∅ (addSeven ++ addEight ++ addNine) {} = some m ∧
      shared = [(1, ⟨7, 9, 100, 3⟩)] ∧ (∀ locate, ofTag locate shared = m.reported locate) ∧
      ∃ tr, ∃ l : AsyncLogger Trade,
        Trace AsyncLogger.Step (AsyncLogger.new fun _ => ⟨0, 0, 0, 0⟩) tr l ∧
        l.out = .header :: (shared.map Prod.snd).map .trade ∧ l.droppedCount = 0 := by
  have hframes : ∀ f ∈ [addSeven, addEight, addNine], IsFrame f := by
    simp only [List.forall_mem_cons]
    exact ⟨isFrame_addSeven, ⟨0, 36, _, rfl, by decide, by decide⟩,
      ⟨0, 36, _, rfl, by decide, by decide⟩, by simp⟩
  have hsplit : Splits frames [addSeven, addEight, addNine] []
      (addSeven ++ addEight ++ addNine) := ⟨hframes, by simp⟩
  obtain ⟨m, shared, hm, hshared, hreported, -, hreport⟩ := parse_report (show 0 < 16 by decide)
    (by decide) (show 0 < 4 by decide) (by decide) ∅ hsplit stuck_nil
  obtain ⟨tr, l, htr, hstop, hcalled, -⟩ :=
    AsyncLogger.exists_report (fun _ => ⟨0, 0, 0, 0⟩) (shared.map Prod.snd)
  have hout := hreport (by decide) id _ tr l htr (by rw [List.map_id, hcalled]) hstop
  rw [hcalled] at hout
  exact ⟨m, shared, hm, hshared.trans (by decide +kernel), hreported, tr, l, htr, hout⟩

end Nanomatch
