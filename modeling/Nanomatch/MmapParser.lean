import Nanomatch.Lib.Layout
import Nanomatch.Types

/-!
# The record file

`OrderRecord` and `MmapParser`, from `MmapParser.hpp` and `MmapParser.cpp`. A record is a packed
struct in the byte order of the machine, which is little-endian; the mapped file is an array of them.

What the system calls return is a parameter, and what the process holds of the system is counted, so
that it can be said what an error leaves behind.
-/

namespace Nanomatch

section Records

/-- The little-endian integer in the `n` bytes from `off` on. -/
def readLE (file : List UInt8) (off : ℕ) : ℕ → Option ℕ
  | 0 => some 0
  | n + 1 => do
    let byte ← file[off]?
    let high ← readLE file (off + 1) n
    some (byte.toNat + 256 * high)

inductive RecordField
  | orderId
  | price
  | qty
  | side
  | type
  deriving DecidableEq

/-- The size of the field's type. -/
def RecordField.width : RecordField → ℕ
  | .orderId => 8
  | .price => 4
  | .qty => 4
  | .side => 1
  | .type => 1

structure OrderRecord where
  orderId : OrderId
  price : UInt32
  qty : UInt32
  side : UInt8
  type : UInt8
  deriving DecidableEq, Repr

namespace OrderRecord

def layout : Layout RecordField where
  fields := [.orderId, .price, .qty, .side, .type]
  width := RecordField.width

/-- `sizeof(OrderRecord)` -/
def size : ℕ := layout.size

example : size = 18 := rfl

def value (r : OrderRecord) : RecordField → ℕ
  | .orderId => r.orderId.toNat
  | .price => r.price.toNat
  | .qty => r.qty.toNat
  | .side => r.side.toNat
  | .type => r.type.toNat

/-- The bytes of a record. -/
def pack (r : OrderRecord) : List UInt8 := layout.encode .littleEndian r.value

/-- `records[i]` -/
def read (file : List UInt8) (i : ℕ) : Option OrderRecord := do
  let field (f : RecordField) := readLE file (i * size + layout.offset f) f.width
  let orderId ← field .orderId
  let price ← field .price
  let qty ← field .qty
  let side ← field .side
  let type ← field .type
  some {
    orderId := UInt64.ofNat orderId
    price := UInt32.ofNat price
    qty := UInt32.ofNat qty
    side := UInt8.ofNat side
    type := UInt8.ofNat type }

end OrderRecord

end Records

section System

/-- What the system calls return: a descriptor, the size of a file, the bytes of a mapping. -/
structure Kernel where
  openFile : String → Option ℕ
  fstat : ℕ → Option ℕ
  /-- `lseek(fd, 0, SEEK_END)` -/
  seekEnd : ℕ → Option ℕ
  mmap : ℕ → ℕ → Option (List UInt8)

/-- The open descriptors and the number of mappings of the process. -/
structure Held where
  fds : List ℕ := []
  mappings : ℕ := 0

namespace Held

def opened (h : Held) (fd : ℕ) : Held := { h with fds := fd :: h.fds }

def closed (h : Held) (fd : ℕ) : Held := { h with fds := h.fds.erase fd }

def mapped (h : Held) : Held := { h with mappings := h.mappings + 1 }

def unmapped (h : Held) : Held := { h with mappings := h.mappings - 1 }

end Held

structure MmapParser where
  fd : ℕ
  size : ℕ
  count : ℕ
  data : List UInt8

namespace MmapParser

/-- The constructor, which throws the text of an error or returns. -/
def new (k : Kernel) (h : Held) (path : String) : Held × Except String MmapParser :=
  match k.openFile path with
  | none => (h, .error ("MmapParser: failed to open '" ++ path ++ "'"))
  | some fd =>
    let h := h.opened fd
    match k.fstat fd with
    | none => (h.closed fd, .error ("MmapParser: fstat failed for '" ++ path ++ "'"))
    | some size =>
      if size = 0 ∨ size % OrderRecord.size ≠ 0 then
        (h.closed fd, .error ("MmapParser: '" ++ path ++ "' size (" ++ toString size ++
          " bytes) is not a non-zero multiple of record size (" ++ toString OrderRecord.size ++ ")"))
      else
        match k.mmap fd size with
        | none => (h.closed fd, .error ("MmapParser: mmap failed for '" ++ path ++ "'"))
        | some data => (h.mapped, .ok { fd, size, count := size / OrderRecord.size, data })

/-- The destructor. -/
def destroy (p : MmapParser) (h : Held) : Held := h.unmapped.closed p.fd

/-- `get_records()[i]` -/
def getRecord (p : MmapParser) (i : ℕ) : Option OrderRecord := OrderRecord.read p.data i

end MmapParser

end System

end Nanomatch
