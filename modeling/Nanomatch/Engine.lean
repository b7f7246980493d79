import Nanomatch.MmapParser
import Nanomatch.OrderBook

/-!
# The engine

`Engine.hpp` and `main.cpp`: the loop over the records of the mapped file, each of which is a call on
the book or nothing.
-/

namespace Nanomatch

/-- `MAX_ORDERS = 1u << 20` -/
def MAX_ORDERS : ℕ := 2 ^ 20

structure Engine (M : Type) where
  book : OrderBook M
  parser : MmapParser

namespace Engine

variable {M : Type}

def side (record : OrderRecord) : Side := if record.side = 0 then .BUY else .SELL

section Run

variable [IdMapOps M]

/-- One round of the loop, with `processed_records`. -/
def process (book : OrderBook M) (processed : ℕ) (record : OrderRecord) :
    Option (OrderBook M × ℕ) :=
  if record.type = 'L'.toUInt8 then do
    let (book, _) ←
      book.insertLimitOrder record.orderId (side record) record.price.toNat record.qty.toNat
    some (book, processed + 1)
  else if record.type = 'M'.toUInt8 then do
    let book ← book.processMarketOrder (side record) record.qty.toNat
    some (book, processed + 1)
  else if record.type = 'C'.toUInt8 then do
    let book ← book.cancelOrder record.orderId
    some (book, processed + 1)
  else some (book, processed)

/-- The last `n` rounds of the loop, from record `i` on. -/
def rounds (parser : MmapParser) : ℕ → ℕ → OrderBook M → ℕ → Option (OrderBook M × ℕ)
  | 0, _, book, processed => some (book, processed)
  | n + 1, i, book, processed => do
    let record ← parser.getRecord i
    let (book, processed) ← process book processed record
    rounds parser n (i + 1) book processed

/-- The engine after its run, and whether it prints the warning. The trades that the logger is given
between its `start` and its `stop` are the book's. -/
def run (e : Engine M) : Option (Engine M × Bool) := do
  let totalRecords := e.parser.count
  let (book, processed) ← rounds e.parser totalRecords 0 e.book 0
  some ({ e with book }, decide (totalRecords > 0 ∧ processed = 0))

end Run

section Main

/-- How `main` ends: with the result of a run or with an error. -/
inductive Outcome (M : Type)
  | finished (e : Engine M) (warned : Bool)
  | halted (error : String)

variable [IdMapOps M]

def inputFile (argv : List String) : String :=
  if argv.length > 1 then argv.getD 1 "" else "data/market_data.bin"

/-- `price_band` -/
def priceBand : ℕ := 100000

/-- `main` over the empty id map `idMap`, with what the process holds before and after it. The engine
is destroyed at the end. -/
def main (k : Kernel) (h : Held) (idMap : M) (argv : List String) : Option (Held × Outcome M) :=
  match MmapParser.new k h (inputFile argv) with
  | (h, .error error) => some (h, .halted error)
  | (h, .ok parser) => do
    let (e, warned) ← run { book := OrderBook.new priceBand MAX_ORDERS idMap, parser }
    some (e.parser.destroy h, .finished e warned)

end Main

end Engine

end Nanomatch
