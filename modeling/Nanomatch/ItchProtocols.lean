import Mathlib.Data.Nat.Notation
import Nanomatch.Types

/-!
# The wire format

The message structs of `ItchProtocols.hpp`. They are packed, so a field lies after the fields
declared before it, and all integers are big-endian. Bytes are read from the mapped file, and a read
past its end fails.
-/

namespace Nanomatch

section Bytes

/-- The big-endian integer in the `n` bytes from `off` on. -/
def readBE (file : List UInt8) (off : ℕ) : ℕ → Option ℕ
  | 0 => some 0
  | n + 1 => do
    let high ← readBE file off n
    let byte ← file[off + n]?
    some (high * 256 + byte.toNat)

end Bytes

section Structs

inductive ItchField
  | stockLocate
  | trackingNumber
  | timestamp
  | orderId
  | side
  | shares
  | stock
  | price
  | attribution
  | matchNumber
  | printable
  | executionPrice
  | canceledShares
  | originalOrderId
  | newOrderId
  deriving DecidableEq

/-- The size of the field's type. -/
def ItchField.width : ItchField → ℕ
  | .stockLocate => 2
  | .trackingNumber => 2
  | .timestamp => 6
  | .orderId => 8
  | .side => 1
  | .shares => 4
  | .stock => 8
  | .price => 4
  | .attribution => 4
  | .matchNumber => 8
  | .printable => 1
  | .executionPrice => 4
  | .canceledShares => 4
  | .originalOrderId => 8
  | .newOrderId => 8

/-- The message types that the parser handles. -/
inductive MessageType
  | addOrder
  | addOrderAttributed
  | orderExecuted
  | orderExecutedWithPrice
  | orderCancel
  | orderDelete
  | orderReplace

namespace MessageType

/-- The type of the `case` label that the byte meets. -/
def ofByte (b : UInt8) : Option MessageType :=
  if b = 'A'.toUInt8 then some .addOrder
  else if b = 'F'.toUInt8 then some .addOrderAttributed
  else if b = 'E'.toUInt8 then some .orderExecuted
  else if b = 'C'.toUInt8 then some .orderExecutedWithPrice
  else if b = 'X'.toUInt8 then some .orderCancel
  else if b = 'D'.toUInt8 then some .orderDelete
  else if b = 'U'.toUInt8 then some .orderReplace
  else none

/-- The fields of the message struct, in the order of their declaration. -/
def fields : MessageType → List ItchField
  | addOrder => [.stockLocate, .trackingNumber, .timestamp, .orderId, .side, .shares, .stock, .price]
  | addOrderAttributed => [.stockLocate, .trackingNumber, .timestamp, .orderId, .side, .shares,
    .stock, .price, .attribution]
  | orderExecuted => [.stockLocate, .trackingNumber, .timestamp, .orderId, .shares, .matchNumber]
  | orderExecutedWithPrice => [.stockLocate, .trackingNumber, .timestamp, .orderId, .shares,
    .matchNumber, .printable, .executionPrice]
  | orderCancel => [.stockLocate, .trackingNumber, .timestamp, .orderId, .canceledShares]
  | orderDelete => [.stockLocate, .trackingNumber, .timestamp, .orderId]
  | orderReplace => [.stockLocate, .trackingNumber, .timestamp, .originalOrderId, .newOrderId,
    .shares, .price]

/-- `sizeof` of the message struct. -/
def size (t : MessageType) : ℕ := (t.fields.map ItchField.width).sum

/-- Where field `f` of the message struct begins. -/
def offset (t : MessageType) (f : ItchField) : ℕ :=
  ((t.fields.takeWhile (· ≠ f)).map ItchField.width).sum

/-- Field `f` of the message struct at `payload`. -/
def readField (t : MessageType) (file : List UInt8) (payload : ℕ) (f : ItchField) : Option ℕ :=
  readBE file (payload + t.offset f) f.width

example : [addOrder, addOrderAttributed, orderExecuted, orderExecutedWithPrice, orderCancel,
    orderDelete, orderReplace].map size = [35, 39, 30, 35, 22, 18, 34] := by
  decide

end MessageType

/-- What the parser takes from a message struct. `locate` is the stock's number. -/
inductive Message
  | add (locate : UInt16) (orderId : OrderId) (side : Side) (price shares : UInt32)
  | execute (orderId : OrderId) (shares : UInt32)
  | cancel (orderId : OrderId) (canceledShares : UInt32)
  | delete (orderId : OrderId)
  | replace (originalOrderId newOrderId : OrderId) (price shares : UInt32)
  deriving DecidableEq

/-- The message struct of type `t` at `payload`. -/
def MessageType.read (t : MessageType) (file : List UInt8) (payload : ℕ) : Option Message :=
  let field := t.readField file payload
  let add : Option Message := do
    let locate ← field .stockLocate
    let price ← field .price
    let orderId ← field .orderId
    let side ← field .side
    let shares ← field .shares
    some (.add (UInt16.ofNat locate) (UInt64.ofNat orderId)
      (if UInt8.ofNat side = 'S'.toUInt8 then .SELL else .BUY) (UInt32.ofNat price)
      (UInt32.ofNat shares))
  let execute : Option Message := do
    let orderId ← field .orderId
    let shares ← field .shares
    some (.execute (UInt64.ofNat orderId) (UInt32.ofNat shares))
  match t with
  | addOrder => add
  | addOrderAttributed => add
  | orderExecuted => execute
  | orderExecutedWithPrice => execute
  | orderCancel => do
    let orderId ← field .orderId
    let canceledShares ← field .canceledShares
    some (.cancel (UInt64.ofNat orderId) (UInt32.ofNat canceledShares))
  | orderDelete => do
    let orderId ← field .orderId
    some (.delete (UInt64.ofNat orderId))
  | orderReplace => do
    let originalOrderId ← field .originalOrderId
    let newOrderId ← field .newOrderId
    let price ← field .price
    let shares ← field .shares
    some (.replace (UInt64.ofNat originalOrderId) (UInt64.ofNat newOrderId) (UInt32.ofNat price)
      (UInt32.ofNat shares))

end Structs

end Nanomatch
