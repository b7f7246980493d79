import Nanomatch.ItchFeed
import Nanomatch.Lib.Layout

/-!
# Packets

What a venue writes into a feed: a packet is the byte of its type, the struct of the type in
big-endian order, and whatever bytes follow, or it is of a type that the parser does not handle. A
frame is a packet behind its length.
-/

namespace Nanomatch

namespace MessageType

/-- The `case` label of the type. -/
def byte : MessageType → UInt8
  | addOrder => 'A'.toUInt8
  | addOrderAttributed => 'F'.toUInt8
  | orderExecuted => 'E'.toUInt8
  | orderExecutedWithPrice => 'C'.toUInt8
  | orderCancel => 'X'.toUInt8
  | orderDelete => 'D'.toUInt8
  | orderReplace => 'U'.toUInt8

def layout (t : MessageType) : Layout ItchField where
  fields := t.fields
  width := ItchField.width

/-- What a struct whose fields hold `v` says. -/
def take (t : MessageType) (v : ItchField → ℕ) : Message :=
  let add : Message := .add (UInt16.ofNat (v .stockLocate)) (UInt64.ofNat (v .orderId))
    (if UInt8.ofNat (v .side) = 'S'.toUInt8 then .SELL else .BUY) (UInt32.ofNat (v .price))
    (UInt32.ofNat (v .shares))
  let execute : Message := .execute (UInt64.ofNat (v .orderId)) (UInt32.ofNat (v .shares))
  match t with
  | addOrder => add
  | addOrderAttributed => add
  | orderExecuted => execute
  | orderExecutedWithPrice => execute
  | orderCancel => .cancel (UInt64.ofNat (v .orderId)) (UInt32.ofNat (v .canceledShares))
  | orderDelete => .delete (UInt64.ofNat (v .orderId))
  | orderReplace => .replace (UInt64.ofNat (v .originalOrderId)) (UInt64.ofNat (v .newOrderId))
    (UInt32.ofNat (v .price)) (UInt32.ofNat (v .shares))

end MessageType

inductive Packet
  | known (t : MessageType) (v : ItchField → ℕ) (tail : List UInt8)
  | other (messageType : UInt8) (tail : List UInt8)

namespace Packet

def bytes : Packet → List UInt8
  | known t v tail => t.byte :: (t.layout.encode .bigEndian v ++ tail)
  | other messageType tail => messageType :: tail

def message : Packet → Option Message
  | known t v _ => some (t.take v)
  | other _ _ => none

/-- The values fit their fields, the length fits two bytes, and a type that is not known is not one
of those that are. -/
def Fits (p : Packet) : Prop :=
  p.bytes.length < 2 ^ 16 ∧ match p with
  | known t v _ => ∀ f ∈ t.fields, v f < 256 ^ f.width
  | other messageType _ => MessageType.ofByte messageType = none

instance : (p : Packet) → Decidable p.Fits
  | known _ _ _ => inferInstanceAs (Decidable (_ ∧ ∀ f ∈ _, _))
  | other _ _ => inferInstanceAs (Decidable (_ ∧ _))

def frame (p : Packet) : List UInt8 := WordCodec.bigEndian.encode 2 p.bytes.length ++ p.bytes

end Packet

def wire (packets : List Packet) : List UInt8 := packets.flatMap Packet.frame

/-- The frame holds the struct of its type. -/
def ItchParser.Whole (f : List UInt8) : Prop :=
  ∀ t ∈ MessageType.ofByte (f.getD 2 0), t.size ≤ f.length - 3

end Nanomatch
