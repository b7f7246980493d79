import Nanomatch.Proofs.Exchange
import Nanomatch.Proofs.ReplayReport

/-!
# The book is an exchange

A run of calls that the exchange takes does to the book what it does to the list of orders: the same
results, the same trades, and the same orders at every price in the same order.
-/

namespace Nanomatch

open Framing ItchParser MmapParser OrderBook Ladder

variable {c : OrderBook FinMap} {a : Ladder} {l : Listing} {band cap : ℕ}

theorem Rep.shows (h : Rep finLaws c a) (hw : a.Wf) (hl : a.Lists band cap l) : Shows c l where
  fifo := h.fifo_eq hw hl
  best := h.best_eq hw hl
  trades := h.logger.trans hl.trades

theorem Rep.exchange : ∀ {ops : List Op} {c : OrderBook FinMap} {a : Ladder} {l : Listing},
    Rep finLaws c a → a.Wf → a.Lists band cap l → l.TakesAll band cap ops →
    ∃ c', c.runResults ops = some (c', (l.run cap ops).2) ∧ Shows c' (l.run cap ops).1
  | [], c, a, l, h, hw, hl, _ => ⟨c, rfl, h.shows hw hl⟩
  | op :: ops, c, a, l, h, hw, hl, ⟨hop, hops⟩ => by
    obtain ⟨c1, hc1, h1⟩ := h.step hw op trivial
    obtain ⟨hl1, hr⟩ := hl.step hw op hop
    obtain ⟨c', hc', hshows⟩ := h1.exchange (hw.step op) hl1 hops
    refine ⟨c', ?_, hshows⟩
    rw [hr] at hc1
    simp only [runResults, hc1, hc', Option.bind_eq_bind, Option.bind_some]
    rfl

section Runs

variable (hband : 0 < band) (hband' : band < 2 ^ 32) (hcap : 0 < cap) (hcap' : cap < 2 ^ 32)

include hband hband' hcap hcap'

/-- A book is an exchange for every run of calls that the exchange takes. -/
theorem run_exchange (ops : List Op) (htakes : Listing.TakesAll band cap {} ops) :
    ∃ c, (fresh band cap).runResults ops = some (c, (Listing.run cap {} ops).2) ∧
      Shows c (Listing.run cap {} ops).1 :=
  Rep.exchange (rep_new hcap rfl) (new_wf hband hband' hcap') (new_lists band cap) htakes

/-- Each place of a replay is an exchange for the calls that go there, if it takes them. -/
theorem parse_exchange (allowedLocates : Finset UInt16) {fs : List (List UInt8)}
    {rest file : List UInt8} (hsplit : Splits frames fs rest file) (hend : Stuck frames rest) :
    ∃ m log, parseItchFile (fresh band cap) allowedLocates file {} = some m ∧
      log = Market.log (fresh band cap) allowedLocates {} (messagesOf fs rest) ∧
      ∀ locate, Listing.TakesAll band cap {} (callsTo locate log) →
        Shows ((m.book locate).getD (fresh band cap))
          (Listing.run cap {} (callsTo locate log)).1 := by
  obtain ⟨m, hm, hok⟩ := Market.Ok.handleAll (fresh_returns hband hband' hcap hcap') allowedLocates
    (messagesOf fs rest) (Market.ok_init _)
  have hholds := (Market.holds_init (fresh band cap) allowedLocates).handleAll
    (fresh_returns hband hband' hcap hcap') (Market.ok_init _) hm
  rw [List.nil_append] at hholds
  refine ⟨m, _, (parseItchFile_eq _ _ hsplit hend _).trans hm, rfl, fun locate htakes => ?_⟩
  obtain ⟨c, hc, hshows⟩ := Rep.exchange (rep_new (L := finLaws) (m := FinMap.init) hcap rfl)
    (new_wf hband hband' hcap') (new_lists band cap) htakes
  have hrun : (fresh band cap).run (callsTo locate _) = some c := run_of_runResults hc
  rw [hholds.run, ← hholds.book_getD hok.size] at hrun
  exact Option.some.inj hrun ▸ hshows

end Runs

/-- A bid takes an ask and a part of a later one at the same price, and asks are executed, lowered and
taken by a market order. The last ask finds the pool used up. -/
def crossingCalls : List Op := [.insertLimitOrder 1 .SELL 100 5, .insertLimitOrder 2 .SELL 101 4,
  .insertLimitOrder 3 .SELL 100 6, .insertLimitOrder 4 .BUY 100 8, .executeOrder 3 1,
  .reduceOrderQty 2 3, .insertLimitOrder 5 .BUY 99 2, .insertLimitOrder 6 .SELL 99 7,
  .insertLimitOrder 7 .SELL 102 1, .processMarketOrder .BUY 6, .cancelOrder 2]

theorem run_exchange_crossing : ∃ c,
    (fresh 16 3).runResults crossingCalls = some (c, (Listing.run 3 {} crossingCalls).2) ∧
      Shows c (Listing.run 3 {} crossingCalls).1 :=
  run_exchange (by decide) (by decide) (by decide) (by decide) crossingCalls (by decide)

theorem parse_exchange_crossing : ∃ m,
    parseItchFile (fresh 16 4) ∅ (addSeven ++ addNine) {} = some m ∧
      Shows ((m.book 1).getD (fresh 16 4)) (Listing.run 4 {}
        [.insertLimitOrder 7 .SELL 100 5, .insertLimitOrder 9 .BUY 101 3]).1 := by
  have hframes : ∀ f ∈ [addSeven, addNine], IsFrame f := by
    simp only [List.forall_mem_cons]
    exact ⟨isFrame_addSeven, ⟨0, 36, _, rfl, by decide, by decide⟩, by simp⟩
  have hsplit : Splits frames [addSeven, addNine] [] (addSeven ++ addNine) := ⟨hframes, by simp⟩
  obtain ⟨m, log, hm, hlog, hshows⟩ := parse_exchange (show 0 < 16 by decide) (by decide)
    (show 0 < 4 by decide) (by decide) ∅ hsplit stuck_nil
  have hcalls : callsTo 1 log =
      [.insertLimitOrder 7 .SELL 100 5, .insertLimitOrder 9 .BUY 101 3] := hlog ▸ rfl
  have hone := hshows 1
  rw [hcalls] at hone
  exact ⟨m, hm, hone (by decide)⟩

namespace Engine

variable {k : Kernel} {argv : List String} {records : List OrderRecord}

/-- Where the exchange takes the calls of the records, the engine's book shows what it does; and
however the logger's thread is interleaved, the report is the exchange's executions if there are no
more records than the queue has slots. -/
theorem main_exchange (h : Held) (hne : records ≠ [])
    (hs : k.Serves (inputFile argv) (records.flatMap OrderRecord.pack))
    (htakes : Listing.TakesAll priceBand MAX_ORDERS {} (OrderRecord.ops records)) :
    ∃ (e : Engine FinMap) (l : Listing),
      main k h FinMap.init argv = some (h, .finished e (decide (OrderRecord.ops records = []))) ∧
      l = (Listing.run MAX_ORDERS {} (OrderRecord.ops records)).1 ∧ Shows e.book l ∧
      (records.length ≤ 2 ^ (kCapacity : ℕ) → ∀ {T : Type} (trade : T → Trade) (buffer) (tr)
        (log : AsyncLogger T), Trace AsyncLogger.Step (AsyncLogger.new buffer) tr log →
        (SPSCQueue.called tr).map trade = l.executions → log.caller = .stopped →
        log.out = .header :: (SPSCQueue.called tr).map .trade ∧ log.droppedCount = 0) := by
  obtain ⟨c, hc, hshows⟩ := Rep.exchange (rep_new (by decide) (L := finLaws) (m := FinMap.init) rfl)
    new_wf (new_lists priceBand MAX_ORDERS) htakes
  have hrun := run_of_runResults hc
  obtain ⟨p, hmain⟩ := main_run h hne hs
  obtain ⟨c', hc', hrep⟩ := run_ladder (OrderRecord.ops records)
  obtain rfl : c = c' := Option.some.inj (hrun.symm.trans hc')
  have htrades := hrep.trades_le new_wf
  have hcalls := ops_trading records
  refine ⟨⟨c, p⟩, _, hmain FinMap.init hrun, rfl, hshows, fun hlen T trade buffer tr log => ?_⟩
  have hle : c.logger.length ≤ 2 ^ (kCapacity : ℕ) := by omega
  rw [← hshows.trades]
  exact report_trades hle trade

theorem main_exchange_sample : ∃ (e : Engine FinMap) (l : Listing),
    main (oneFile (sampleRecords.flatMap OrderRecord.pack)) {} FinMap.init [] =
      some ({}, .finished e false) ∧
    l = (Listing.run MAX_ORDERS {} (OrderRecord.ops sampleRecords)).1 ∧ Shows e.book l ∧
    ∃ tr, ∃ log : AsyncLogger Trade,
      Trace AsyncLogger.Step (AsyncLogger.new fun _ => ⟨0, 0, 0, 0⟩) tr log ∧
      log.out = .header :: l.executions.map .trade ∧ log.droppedCount = 0 := by
  obtain ⟨e, l, hmain, hl, hshows, hreport⟩ := main_exchange {} (by decide)
    (oneFile_serves (inputFile []) (sampleRecords.flatMap OrderRecord.pack)) (by decide)
  obtain ⟨tr, log, htr, hstop, hcalled, -⟩ :=
    AsyncLogger.exists_report (fun _ => ⟨0, 0, 0, 0⟩) l.executions
  have hout := hreport (by decide) id _ tr log htr (by rw [List.map_id, hcalled]) hstop
  rw [hcalled] at hout
  exact ⟨e, l, hmain, hl, hshows, tr, log, htr, hout⟩

end Engine

end Nanomatch
