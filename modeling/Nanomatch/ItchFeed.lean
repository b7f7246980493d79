import Nanomatch.Lib.Framing
import Nanomatch.ItchParser

/-!
# What a feed holds

A feed is cut into frames, each two bytes of length and a packet of that many bytes.
-/

namespace Nanomatch

section Books

variable {β : Type} [OrderBookOps β]

/-- The operations return on every book that satisfies `Inv`, which they keep. -/
structure Returns (newBook : β) (Inv : β → Prop) : Prop where
  new : Inv newBook
  insert : ∀ b, Inv b → ∀ id side price qty, ∃ b' r,
    OrderBookOps.insertLimitOrder b id side price qty = some (b', r) ∧ Inv b'
  cancel : ∀ b, Inv b → ∀ id, ∃ b', OrderBookOps.cancelOrder b id = some b' ∧ Inv b'
  execute : ∀ b, Inv b → ∀ id fillQty, ∃ b' r,
    OrderBookOps.executeOrder b id fillQty = some (b', r) ∧ Inv b'
  reduce : ∀ b, Inv b → ∀ id cancelQty, ∃ b' r,
    OrderBookOps.reduceOrderQty b id cancelQty = some (b', r) ∧ Inv b'
  find : ∀ b, Inv b → ∀ id, ∃ idx, OrderBookOps.findId b id = some idx ∧
    (idx ≠ NULL_IDX → ∃ side, OrderBookOps.sideOf b idx = some side)

/-- What the messages do one after the other. -/
def Market.handleAll (newBook : β) (allowedLocates : Finset UInt16) :
    Market β → List (Option Message) → Option (Market β)
  | m, [] => some m
  | m, message :: messages => do
    let m ← m.dispatch newBook allowedLocates message
    handleAll newBook allowedLocates m messages

end Books

namespace ItchParser

section Frames

/-- A big-endian length of at least one, followed by so many bytes. -/
def IsFrame (f : List UInt8) : Prop :=
  ∃ high low packet, f = high :: low :: packet ∧ packet.length = high.toNat * 256 + low.toNat ∧
    1 ≤ packet.length

def frames : Set (List UInt8) := {f | IsFrame f}

/-- The message that the bytes of a feed are taken for, if they begin with a frame. -/
def messageOf (feed : List UInt8) : Option Message := (body feed 0 (feed.getD 2 0)).join

/-- The messages that the frames `fs` are taken for when `rest` follows them. -/
def messagesOf : List (List UInt8) → List UInt8 → List (Option Message)
  | [], _ => []
  | f :: fs, rest => messageOf (f ++ (fs.flatten ++ rest)) :: messagesOf fs rest

/-- The message that the frame at `cursor` is taken for. -/
def messageAt (file : List UInt8) (cursor : ℕ) : Option (Option Message) := do
  match ← header file cursor with
  | none => some none
  | some (_, messageType) => body file cursor messageType

/-- No frame of `fs` is too short for its struct in such a way that the struct ends after the last
frame of `fs` but not after the bytes `q` that follow it. -/
def NoneStraddles : List (List UInt8) → List UInt8 → Prop
  | [], _ => True
  | f :: fs, q =>
    (∀ t ∈ MessageType.ofByte (f.getD 2 0), t.size ≤ (f ++ fs.flatten).length - 3 ∨
      (f ++ fs.flatten).length - 3 + q.length < t.size) ∧
    NoneStraddles fs q

instance decidableNoneStraddles : (fs : List (List UInt8)) → (q : List UInt8) →
    Decidable (NoneStraddles fs q)
  | [], _ => .isTrue trivial
  | f :: fs, q =>
    have := decidableNoneStraddles fs q
    inferInstanceAs (Decidable ((∀ t ∈ MessageType.ofByte (f.getD 2 0), _ ∨ _) ∧ _))

end Frames

section Rounds

variable {β : Type} [OrderBookOps β]

/-- The loop's variables are within their bounds. -/
structure InBounds (file : List UInt8) (r : Replay β) : Prop where
  cursor : r.cursor ≤ file.length
  books : r.market.marketBooks.size = kMaxStockLocate
  /-- Every field of the struct that the next frame is taken for lies in the file. -/
  fields : ∀ packetLength messageType message t,
    header file r.cursor = some (some (packetLength, messageType)) →
    body file r.cursor messageType = some (some message) →
    MessageType.ofByte messageType = some t →
    ∀ f ∈ t.fields, r.cursor + 3 + t.offset f + f.width ≤ file.length

/-- The frames dispatched are those of the longest beginning of the file that splits into frames. -/
structure Longest (file : List UInt8) (r : Replay β) : Prop where
  isFrame : ∀ f ∈ r.dispatched, IsFrame f
  isPrefix : r.dispatched.flatten <+: file
  longest : ∀ fs : List (List UInt8), (∀ f ∈ fs, IsFrame f) → fs.flatten <+: file →
    fs <+: r.dispatched

/-- With every ticker tracked, no id is ever inserted into the books of two places: an insert that
returns true makes its place the owner of the id, and nothing else does. -/
def OneOwner (newBook : β) (file : List UInt8) : Prop :=
  ∀ n n' r r', rounds newBook ∅ file n { market := {} } = some r →
    rounds newBook ∅ file n' { market := {} } = some r' →
    ∀ id locate locate', r.market.refOwner id = some locate →
      r'.market.refOwner id = some locate' → locate = locate'

end Rounds

end ItchParser

end Nanomatch
