import Nanomatch.ItchParser
import Nanomatch.MmapParser

/-!
# The replay from the command line

`itch_main.cpp`, and the system calls around the loop of `parse_itch_file`. The price band and the
number of orders are read by `std::stoul`, as are the `stock_locate` ids, which are then cut to 16 bits.
-/

namespace Nanomatch

namespace ItchMain

section Stoul

/-- What `std::stoul` throws. -/
inductive StoulError
  | invalidArgument
  | outOfRange
  deriving DecidableEq

def isSpace (c : Char) : Bool := c = ' ' ∨ 9 ≤ c.toNat ∧ c.toNat ≤ 13

/-- The sign and what follows it. -/
def sign : List Char → Bool × List Char
  | '-' :: s => (true, s)
  | '+' :: s => (false, s)
  | s => (false, s)

/-- `std::stoul`: blanks, a sign and digits are read, and a minus negates modulo `2 ^ 64`. -/
def stoul (s : List Char) : Except StoulError UInt64 :=
  let (negative, s) := sign (s.dropWhile isSpace)
  let digits := s.takeWhile Char.isDigit
  if digits = [] then .error .invalidArgument
  else
    let v := Nat.ofDigitChars 10 digits 0
    if v ≥ 2 ^ 64 then .error .outOfRange
    else .ok (if negative then -UInt64.ofNat v else UInt64.ofNat v)

end Stoul

section Arguments

structure Config where
  itchFile : String
  logFile : String
  allowedLocates : Finset UInt16 := ∅
  priceBand : UInt64 := 2000000
  maxOrders : UInt64 := 65536

/-- How the run ends before the feed is looked at. The first two are `return 1`, the last is an
exception that nothing catches. -/
inductive Halt
  | usage
  | refused
  | uncaught (e : StoulError)

/-- An id of the list, where it is not empty. -/
def addId (allowed : Finset UInt16) (tok : List Char) : Except StoulError (Finset UInt16) :=
  if tok = [] then .ok allowed else (stoul tok).map fun v => insert v.toUInt16 allowed

/-- `allowed_locates` from a comma-separated list. -/
def locateIds (arg : List Char) : Except StoulError (Finset UInt16) :=
  (arg.splitOn ',').foldlM addId ∅

/-- `arg.rfind(option, 0) == 0`, and what then follows. -/
def after (option : String) (arg : List Char) : Option (List Char) :=
  if option.toList.isPrefixOf arg then some (arg.drop option.length) else none

/-- One argument after the third. -/
def setOption (cfg : Config) (arg : List Char) : Except StoulError Config :=
  match after "--price-band=" arg with
  | some s => (stoul s).map fun v => { cfg with priceBand := v }
  | none =>
    match after "--max-orders=" arg with
    | some s => (stoul s).map fun v => { cfg with maxOrders := v }
    | none => .ok cfg

/-- The ids of the third argument. -/
def allowed (arg : String) : Except StoulError (Finset UInt16) :=
  if arg ≠ "--all-tickers" then locateIds arg.toList else .ok ∅

def configure (argv : List String) : Except StoulError Config := do
  let itchFile := argv.getD 1 ""
  let logFile := if argv.length > 2 then argv.getD 2 "" else "build/trade_report.txt"
  let allowedLocates ← allowed (argv.getD 3 "")
  ((argv.drop 4).map String.toList).foldlM setOption { itchFile, logFile, allowedLocates }

def parseArgs (argv : List String) : Except Halt Config :=
  if argv.length < 2 then .error .usage
  else if argv.length > 3 then (configure argv).mapError .uncaught
  else .error .refused

end Arguments

section Main

/-- How `main` ends: with a replay, without one, or with an error of `parse_itch_file`. -/
inductive Outcome (M : Type)
  | replayed (m : Market (OrderBook M))
  | halted (halt : Halt)
  | threw (error : String)

/-- `open`, `lseek` and `mmap` at the start of `parse_itch_file`. -/
def mapFile (k : Kernel) (h : Held) (path : String) : Held × Except String (ℕ × List UInt8) :=
  match k.openFile path with
  | none => (h, .error ("Could not open file: " ++ path))
  | some fd =>
    let h := h.opened fd
    match k.seekEnd fd with
    | none => (h.closed fd, .error ("lseek failed: " ++ path))
    | some size =>
      match k.mmap fd size with
      | none => (h.closed fd, .error ("mmap failed: " ++ path))
      | some file => (h.mapped, .ok (fd, file))

variable {M : Type} [IdMapOps M]

/-- `main` over books with the empty id map `idMap`. -/
def main (k : Kernel) (h : Held) (idMap : M) (argv : List String) : Option (Held × Outcome M) :=
  match parseArgs argv with
  | .error halt => some (h, .halted halt)
  | .ok cfg =>
    match mapFile k h cfg.itchFile with
    | (h, .error error) => some (h, .threw error)
    | (h, .ok (fd, file)) => do
      let newBook := OrderBook.new cfg.priceBand.toNat cfg.maxOrders.toNat idMap
      let m ← ItchParser.parseItchFile newBook cfg.allowedLocates file {}
      some (h.unmapped.closed fd, .replayed m)

end Main

end ItchMain

end Nanomatch
