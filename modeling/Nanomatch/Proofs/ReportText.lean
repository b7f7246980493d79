import Nanomatch.Proofs.ReportWhole
import Nanomatch.Report

/-!
# The report is read back

The rows of a report are a table of numbers, so the text of a report determines the records that were
written into it.
-/

namespace Nanomatch

open SPSCQueue

namespace AsyncLogger

section Text

def fields (t : Stamped) : List ℕ :=
  [t.trade.makerId.toNat, t.trade.takerId.toNat, t.trade.price, t.trade.qty, t.timestamp.toNat]

theorem ofFields_fields (t : Stamped) : ofFields (fields t) = some t := by
  simp [fields, ofFields]

theorem rowText_trade (t : Stamped) : rowText (.trade t) = Csv.line (fields t) ++ ['\n'] := by
  simp [rowText, Csv.line, fields, List.intercalate_cons_cons]

theorem text_rows (ts : List Stamped) :
    text (.header :: ts.map .trade) = headerLine.toList ++ Csv.text (ts.map fields) := by
  rw [text, List.flatMap_cons, List.flatMap_map, Csv.text, List.flatMap_map]
  exact congrArg _ (List.flatMap_congr fun t _ => rowText_trade t)

/-- The records are read back from their text. -/
theorem readReport_text (ts : List Stamped) :
    readReport (text (.header :: ts.map .trade)) = some ts := by
  have hrows : ∀ ns ∈ ts.map fields, ns ≠ [] := by
    intro ns hns
    obtain ⟨t, -, rfl⟩ := List.mem_map.1 hns
    exact List.cons_ne_nil _ _
  have hdrop : (headerLine.toList ++ Csv.text (ts.map fields)).drop headerLine.length =
      Csv.text (ts.map fields) := List.drop_left' String.length_toList
  have hread : ∀ ts : List Stamped, (ts.map fields).mapM ofFields = some ts := by
    intro ts
    induction ts with
    | nil => rfl
    | cons t ts ih => simp [ofFields_fields, ih]
  rw [text_rows, readReport, if_pos (List.isPrefixOf_iff_prefix.2 (List.prefix_append _ _)), hdrop,
    Csv.read_text hrows, hread]

end Text

section Runs

variable {buffer : Fin (2 ^ (kCapacity : ℕ)) → Stamped} {l : AsyncLogger Stamped}
  {tr : List (Event Stamped)}

/-- However the threads are interleaved, what is read from the report when `stop` has returned are the
accepted records, in order, which are all that were enqueued if there were no more of them than the
queue has slots. -/
theorem report_read (h : Trace Step (new buffer) tr l) (hstop : l.caller = .stopped) :
    readReport (text l.out) = some (accepted tr) ∧
      ((called tr).length ≤ 2 ^ (kCapacity : ℕ) → readReport (text l.out) = some (called tr)) := by
  have hi := trace_inv h
  refine ⟨?_, fun hle => ?_⟩
  · rw [hi.out_stopped hstop, readReport_text]
  · rw [((trace_whole h hle).report hi hstop).1, readReport_text]

def twoTrades : List Stamped := [⟨⟨1, 2, 101, 3⟩, 40⟩, ⟨⟨1, 3, 101, 2⟩, 60⟩]

theorem report_read_two : ∃ tr, ∃ l : AsyncLogger Stamped,
    Trace Step (new fun _ => ⟨⟨0, 0, 0, 0⟩, 0⟩) tr l ∧
      readReport (text l.out) = some twoTrades := by
  obtain ⟨tr, l, h, hstop, hcalled, -⟩ := exists_report (fun _ => ⟨⟨0, 0, 0, 0⟩, 0⟩) twoTrades
  have hread := (report_read h hstop).2 (by rw [hcalled]; decide)
  rw [hcalled] at hread
  exact ⟨tr, l, h, hread⟩

end Runs

end AsyncLogger

end Nanomatch
