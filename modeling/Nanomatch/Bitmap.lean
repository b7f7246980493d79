import Nanomatch.Types
import Nanomatch.Lib.WordBits

/-!
# The level bitmaps

One bit per price level, in 64-bit words (`bid_bitmap_`, `ask_bitmap_`), and the two scans of
`OrderBook.cpp` over them. A scan that leaves the bitmap fails.
-/

namespace Nanomatch

abbrev Bitmap := Cells (BitVec 64)

namespace Bitmap

/-- A zeroed bitmap for `band` levels. -/
def init (band : ℕ) : Bitmap := Cells.fill ((band + 63) / 64) 0#64

/-- `bitmap[p >> 6] |= (1ull << (p & 63))` -/
def setBit (bm : Bitmap) (p : ℕ) : Option Bitmap :=
  bm.modify (p >>> 6) fun w => w ||| (1#64 <<< (p &&& 63))

/-- `bitmap[p >> 6] &= ~(1ull << (p & 63))` -/
def clearBit (bm : Bitmap) (p : ℕ) : Option Bitmap :=
  bm.modify (p >>> 6) fun w => w &&& ~~~(1#64 <<< (p &&& 63))

end Bitmap

/-- The loop of `find_prev_set_bit`. -/
def prevSetBitFrom (bitmap : Bitmap) : ℕ → BitVec 64 → Option ℕ
  | 0, wordBits =>
    if wordBits ≠ 0#64 then some ((0 <<< 6) ||| (63 - wordBits.clz.toNat)) else some UINT32_MAX
  | word + 1, wordBits =>
    if wordBits ≠ 0#64 then some (((word + 1) <<< 6) ||| (63 - wordBits.clz.toNat))
    else do prevSetBitFrom bitmap word (← bitmap.read word)

def findPrevSetBit (bitmap : Bitmap) (start : ℕ) : Option ℕ := do
  let word := start >>> 6
  let bit := start &&& 63
  let mask := BitVec.allOnes 64 >>> (63 - bit)
  prevSetBitFrom bitmap word ((← bitmap.read word) &&& mask)

/-- The loop of `find_next_set_bit`; it ends at `lastWord`, and the fuel covers every word. -/
def nextSetBitFrom (bitmap : Bitmap) (lastWord : ℕ) : ℕ → ℕ → BitVec 64 → Option ℕ
  | 0, _, _ => none
  | fuel + 1, word, wordBits =>
    if wordBits ≠ 0#64 then some ((word <<< 6) ||| wordBits.ctz.toNat)
    else if word = lastWord then some UINT32_MAX
    else do nextSetBitFrom bitmap lastWord fuel (word + 1) (← bitmap.read (word + 1))

def findNextSetBit (bitmap : Bitmap) (start : ℕ) : Option ℕ := do
  let word := start >>> 6
  let bit := start &&& 63
  let mask := BitVec.allOnes 64 <<< bit
  nextSetBitFrom bitmap (bitmap.size - 1) bitmap.size word ((← bitmap.read word) &&& mask)

end Nanomatch
