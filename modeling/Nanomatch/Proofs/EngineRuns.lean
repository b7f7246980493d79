import Nanomatch.Engine
import Nanomatch.Proofs.MmapParser
import Nanomatch.Proofs.ReportWhole
import Nanomatch.Proofs.TradeRuns

/-!
# The engine makes the calls of its file

The records of the file are calls on the book, and the engine makes these calls in order. Its trades
are those of this run, so there are no more of them than records that can trade, and if they all go
into the logger's queue the report is whole.
-/

namespace Nanomatch

open OrderBook MmapParser

/-- The call that a record stands for. -/
def OrderRecord.op (record : OrderRecord) : Option Op :=
  if record.type = 'L'.toUInt8 then
    some (.insertLimitOrder record.orderId (Engine.side record) record.price record.qty)
  else if record.type = 'M'.toUInt8 then
    some (.processMarketOrder (Engine.side record) record.qty)
  else if record.type = 'C'.toUInt8 then some (.cancelOrder record.orderId)
  else none

/-- The calls of a file. -/
def OrderRecord.ops (records : List OrderRecord) : List Op := records.filterMap OrderRecord.op

namespace Engine

section Rounds

variable {M : Type} [IdMapOps M] {book : OrderBook M} {processed : ℕ}

theorem process_eq (book : OrderBook M) (processed : ℕ) (record : OrderRecord) :
    process book processed record =
      (book.run record.op.toList).map (·, processed + record.op.toList.length) := by
  unfold process OrderRecord.op
  split_ifs
  · rcases h : book.insertLimitOrder record.orderId (side record) record.price.toNat
      record.qty.toNat with _ | ⟨book', r⟩ <;> simp [OrderBook.run, OrderBook.step, h]
  · rcases h : book.processMarketOrder (side record) record.qty.toNat with _ | book' <;>
      simp [OrderBook.run, OrderBook.step, h]
  · rcases h : book.cancelOrder record.orderId with _ | book' <;>
      simp [OrderBook.run, OrderBook.step, h]
  · simp [OrderBook.run]

/-- The rounds from record `i` on make the calls of the records from there on. -/
theorem rounds_eq {p : MmapParser} {records : List OrderRecord} (hp : p.Parses records) :
    ∀ {n i : ℕ} {book : OrderBook M} {processed : ℕ}, i + n = records.length →
      rounds p n i book processed = (book.run (OrderRecord.ops (records.drop i))).map
        (·, processed + (OrderRecord.ops (records.drop i)).length)
  | 0, i, book, processed, hi => by
    rw [List.drop_eq_nil_of_le (Nat.le_of_eq (hi.symm.trans (Nat.add_zero i)))]
    rfl
  | n + 1, i, book, processed, hi => by
    have hlt : i < records.length := by omega
    have hops : OrderRecord.ops (records.drop i) =
        records[i].op.toList ++ OrderRecord.ops (records.drop (i + 1)) := by
      rw [List.drop_eq_getElem_cons hlt, OrderRecord.ops, List.filterMap_cons]
      cases records[i].op <;> rfl
    rw [rounds, hp.getRecord, List.getElem?_eq_getElem hlt, hops, run_append]
    simp only [Option.bind_eq_bind, Option.bind_some, process_eq, List.length_append]
    rcases book.run records[i].op.toList with _ | book'
    · rfl
    · simp only [Option.map_some, Option.bind_some]
      rw [rounds_eq hp (by omega), Nat.add_assoc]

theorem run_eq {e : Engine M} {records : List OrderRecord} (hp : e.parser.Parses records) :
    e.run = (e.book.run (OrderRecord.ops records)).map fun book =>
      ({ e with book }, decide (OrderRecord.ops records = [])) := by
  have hpos : 0 < records.length := List.length_pos_iff.2 hp.ne_nil
  have hrounds : rounds e.parser e.parser.count 0 e.book 0 = _ :=
    rounds_eq hp ((Nat.zero_add e.parser.count).trans hp.count)
  rw [List.drop_zero] at hrounds
  simp only [run, hrounds]
  rcases e.book.run (OrderRecord.ops records) with _ | book
  · rfl
  · simp [hp.count, hpos]

end Rounds

section Main

variable {k : Kernel} {argv : List String} {records : List OrderRecord}

theorem ops_trading (records : List OrderRecord) :
    tradingCalls (OrderRecord.ops records) ≤ records.length := by
  have hone : ∀ op : Op, op.trading ≤ 1 := by
    rintro (_ | _ | _ | _ | _) <;> simp [Op.trading]
  induction records with
  | nil => exact le_rfl
  | cons record records ih =>
    rw [OrderRecord.ops, List.filterMap_cons]
    rcases record.op with _ | op
    · exact ih.trans (Nat.le_succ _)
    · have := hone op
      change op.trading + tradingCalls (OrderRecord.ops records) ≤ records.length + 1
      omega

theorem new_wf : (Ladder.new priceBand MAX_ORDERS).Wf :=
  Ladder.new_wf (by decide) (by decide) (by decide)

/-- The calls of the engine return. -/
theorem run_ladder (ops : List Op) : ∃ c, (fresh priceBand MAX_ORDERS).run ops = some c ∧
    Rep finLaws c ((Ladder.new priceBand MAX_ORDERS).run ops) := by
  have hband : 0 < priceBand := by decide
  have hband' : priceBand < 2 ^ 32 := by decide
  have hcap : 0 < MAX_ORDERS := by decide
  have hcap' : MAX_ORDERS < 2 ^ 32 := by decide
  obtain ⟨c, hc, hrep, -⟩ := run_fresh hband hband' hcap hcap' ops
  exact ⟨c, hc, hrep⟩

/-- `main` on an array of records, over any id map over which their calls return. -/
theorem main_run (h : Held) (hne : records ≠ [])
    (hs : k.Serves (inputFile argv) (records.flatMap OrderRecord.pack)) :
    ∃ p : MmapParser, ∀ {M : Type} [IdMapOps M] (idMap : M) {c : OrderBook M},
      (OrderBook.new priceBand MAX_ORDERS idMap).run (OrderRecord.ops records) = some c →
      main k h idMap argv = some (h, .finished ⟨c, p⟩ (decide (OrderRecord.ops records = []))) := by
  obtain ⟨p, hnew, hp⟩ := new_records h hne hs
  refine ⟨p, fun idMap c hc => ?_⟩
  have hrun := run_eq (e := ⟨OrderBook.new priceBand MAX_ORDERS idMap, p⟩) hp
  simp only [hc] at hrun
  simp only [main, hnew, hrun, Option.map_some, Option.bind_eq_bind, Option.bind_some,
    destroy_mapped]

/-- The report of a book's trades that are no more than the queue has slots. -/
theorem report_trades {trades : List Trade} (hle : trades.length ≤ 2 ^ (kCapacity : ℕ)) {T : Type}
    (trade : T → Trade) {buffer} {tr} {l : AsyncLogger T}
    (htr : Trace AsyncLogger.Step (AsyncLogger.new buffer) tr l)
    (hlog : (SPSCQueue.called tr).map trade = trades) (hstop : l.caller = .stopped) :
    l.out = .header :: (SPSCQueue.called tr).map .trade ∧ l.droppedCount = 0 := by
  have hcount : (SPSCQueue.called tr).length = trades.length := by
    rw [← List.length_map (f := trade), hlog]
  exact (AsyncLogger.trace_whole htr (hcount ▸ hle)).report (AsyncLogger.trace_inv htr) hstop

/-- Where the input is an array of records, `main` makes their calls in order, leaves the book
consistent and holds nothing at its end. However the logger's thread is interleaved with it, the
report is all the trades of the book if the file has no more records than the queue has slots. -/
theorem main_records (h : Held) (hne : records ≠ [])
    (hs : k.Serves (inputFile argv) (records.flatMap OrderRecord.pack)) :
    ∃ e : Engine FinMap,
      main k h FinMap.init argv = some (h, .finished e (decide (OrderRecord.ops records = []))) ∧
      (fresh priceBand MAX_ORDERS).run (OrderRecord.ops records) = some e.book ∧
      e.book.Consistent priceBand MAX_ORDERS ∧
      (records.length ≤ 2 ^ (kCapacity : ℕ) → ∀ {T : Type} (trade : T → Trade) (buffer) (tr)
        (l : AsyncLogger T), Trace AsyncLogger.Step (AsyncLogger.new buffer) tr l →
        (SPSCQueue.called tr).map trade = e.book.logger → l.caller = .stopped →
        l.out = .header :: (SPSCQueue.called tr).map .trade ∧ l.droppedCount = 0) := by
  obtain ⟨c, hc, hrep⟩ := run_ladder (OrderRecord.ops records)
  obtain ⟨p, hmain⟩ := main_run h hne hs
  refine ⟨⟨c, p⟩, hmain FinMap.init hc, hc, hrep.consistent_run new_wf,
    fun hlen T trade buffer tr l => ?_⟩
  have htrades := hrep.trades_le new_wf
  have hcalls := ops_trading records
  have hle : c.logger.length ≤ 2 ^ (kCapacity : ℕ) := by omega
  exact report_trades hle trade

end Main

section Examples

/-- An ask, a bid that fills part of it, a record of no type that the engine knows, and a cancel. -/
def sampleRecords : List OrderRecord := [⟨1, 101, 5, 1, 'L'.toUInt8⟩, ⟨2, 102, 3, 0, 'L'.toUInt8⟩,
  ⟨3, 0, 0, 0, 'X'.toUInt8⟩, ⟨1, 0, 0, 1, 'C'.toUInt8⟩]

theorem main_records_sample : ∃ e : Engine FinMap,
    main (oneFile (sampleRecords.flatMap OrderRecord.pack)) {} FinMap.init [] =
      some ({}, .finished e false) ∧
    ∃ tr, ∃ l : AsyncLogger Trade,
      Trace AsyncLogger.Step (AsyncLogger.new fun _ => ⟨0, 0, 0, 0⟩) tr l ∧
      l.out = .header :: e.book.logger.map .trade ∧ l.droppedCount = 0 := by
  have hne : sampleRecords ≠ [] := by decide
  obtain ⟨e, hmain, -, -, hreport⟩ := main_records {} hne (oneFile_serves (inputFile []) _)
  obtain ⟨tr, l, htr, hstop, hcalled, -⟩ :=
    AsyncLogger.exists_report (fun _ => ⟨0, 0, 0, 0⟩) e.book.logger
  have hout := hreport (by decide) id _ tr l htr (by rw [List.map_id, hcalled]) hstop
  rw [hcalled] at hout
  exact ⟨e, hmain, tr, l, htr, hout⟩

end Examples

end Engine

end Nanomatch
