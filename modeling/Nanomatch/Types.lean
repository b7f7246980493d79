import Mathlib.Algebra.Order.Ring.Nat
import Mathlib.Data.Nat.Notation
import Nanomatch.Lib.Cells

/-!
# Basic types

The types of `Types.hpp`. Prices, quantities and pool indices are 32-bit unsigned integers, held
here as naturals; where the code's arithmetic can leave the range it goes through `add32` and
`sub32`, which wrap as the machine does.
-/

namespace Nanomatch

abbrev OrderId := UInt64

def UINT32_MAX : ℕ := 2 ^ 32 - 1

/-- The sentinel "no order". -/
def NULL_IDX : ℕ := UINT32_MAX

def add32 (a b : ℕ) : ℕ := (a + b) % 2 ^ 32

def sub32 (a b : ℕ) : ℕ := (a + 2 ^ 32 - b) % 2 ^ 32

inductive Side
  | BUY
  | SELL
  deriving DecidableEq, Repr

/-- A pool slot. `price` is the relative index into `bids_`/`asks_`; `nextIdx` is the FIFO link of
a resting order and the free-list link of a free slot. -/
structure Order where
  id : OrderId := 0
  nextIdx : ℕ := 0
  prevIdx : ℕ := 0
  price : ℕ := 0
  qty : ℕ := 0
  side : Side := .BUY

/-- A trade as passed to `enqueue_trade`, without its time stamp, which is the cycle counter's. -/
structure Trade where
  makerId : OrderId
  takerId : OrderId
  price : ℕ
  qty : ℕ
  deriving DecidableEq, Repr

structure PriceLevel where
  price : ℕ := 0
  totalVolume : ℕ := 0
  headIdx : ℕ := UINT32_MAX
  tailIdx : ℕ := UINT32_MAX
  orderCount : ℕ := 0

def PriceLevel.empty (l : PriceLevel) : Bool := l.headIdx == UINT32_MAX

structure TopOfBook where
  bestBid : ℕ := UINT32_MAX
  bestAsk : ℕ := UINT32_MAX
  bidQty : ℕ := 0
  askQty : ℕ := 0

end Nanomatch
