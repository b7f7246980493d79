import Nanomatch.AsyncLogger
import Nanomatch.Lib.Csv
import Nanomatch.Types

/-!
# The text of the report

What `AsyncLogger` writes into the file for the header and for a record of its queue, and a reader of
that text.
-/

namespace Nanomatch

/-- A record of the queue: a trade with the value of the cycle counter. -/
structure Stamped where
  trade : Trade
  timestamp : UInt64

namespace AsyncLogger

def headerLine : String := "maker_id,taker_id,price,qty,timestamp\n"

/-- `out_ << t.maker_id << ',' << t.taker_id << ',' << t.price << ',' << t.qty << ',' << t.timestamp
<< '\n'` -/
def rowText : Row Stamped → List Char
  | .header => headerLine.toList
  | .trade t =>
    Nat.toDigits 10 t.trade.makerId.toNat ++ ',' :: (Nat.toDigits 10 t.trade.takerId.toNat ++
      ',' :: (Nat.toDigits 10 t.trade.price ++ ',' :: (Nat.toDigits 10 t.trade.qty ++
        ',' :: (Nat.toDigits 10 t.timestamp.toNat ++ ['\n']))))

def text (out : List (Row Stamped)) : List Char := out.flatMap rowText

section Reader

def ofFields : List ℕ → Option Stamped
  | [makerId, takerId, price, qty, timestamp] =>
    some ⟨⟨UInt64.ofNat makerId, UInt64.ofNat takerId, price, qty⟩, UInt64.ofNat timestamp⟩
  | _ => none

/-- The records that a report tells of. -/
def readReport (report : List Char) : Option (List Stamped) :=
  if headerLine.toList.isPrefixOf report then
    (Csv.read (report.drop headerLine.length)).mapM ofFields
  else none

end Reader

end AsyncLogger

end Nanomatch
