import Nanomatch.ItchFeed

/-!
# Where the messages go

The calls on the books that the messages make, each with the place of its book. An add goes to the
place of its ticker, and every other message to the place of the owner of its id.
-/

namespace Nanomatch

open OrderBook

/-- The calls on the book in place `locate`, in order. -/
def callsTo (locate : ℕ) (log : List (ℕ × Op)) : List Op :=
  (log.filter (·.1 = locate)).map Prod.snd

namespace Market

variable {β : Type} [OrderBookOps β] (m : Market β) (newBook : β) (allowedLocates : Finset UInt16)

/-- The side of an order that the book in place `locate` finds. -/
def sideIn (locate : ℕ) (id : OrderId) : Option Side := do
  let b ← m.book locate
  let idx ← OrderBookOps.findId b id
  if idx = NULL_IDX then none else OrderBookOps.sideOf b idx

def calls : Message → List (ℕ × Op)
  | .add locate id side price shares =>
    if locate.toNat < kMaxStockLocate ∧ isTracked allowedLocates locate then
      [(locate.toNat, .insertLimitOrder id side price shares)]
    else []
  | .execute id shares => (m.refOwner id).toList.map (·, .executeOrder id shares)
  | .cancel id shares => (m.refOwner id).toList.map (·, .reduceOrderQty id shares)
  | .delete id => (m.refOwner id).toList.map (·, .cancelOrder id)
  | .replace oldId newId price shares =>
    (m.refOwner oldId).toList.flatMap fun locate =>
      (m.sideIn locate oldId).toList.flatMap fun side =>
        [(locate, .cancelOrder oldId), (locate, .insertLimitOrder newId side price shares)]

/-- The calls that the messages make one after the other. -/
def log : Market β → List (Option Message) → List (ℕ × Op)
  | _, [] => []
  | m, message :: messages =>
    message.toList.flatMap (m.calls allowedLocates) ++
      (m.dispatch newBook allowedLocates message).toList.flatMap (log · messages)

/-- The place of the book that a message is about. -/
def place : Message → Option ℕ
  | .add locate _ _ _ _ =>
    if locate.toNat < kMaxStockLocate ∧ isTracked allowedLocates locate then some locate.toNat
    else none
  | .execute id _ => m.refOwner id
  | .cancel id _ => m.refOwner id
  | .delete id => m.refOwner id
  | .replace oldId _ _ _ => m.refOwner oldId

end Market

section Report

variable {M : Type} [IdMapOps M]

namespace Market

/-- The trades that the book in a place has given to the logger. -/
def reported (m : Market (OrderBook M)) (locate : ℕ) : List Trade :=
  (m.book locate).elim [] OrderBook.logger

/-- The trades that the book of a message gives to the logger on the way from `m` to `m'`, with its
place. -/
def printed (allowedLocates : Finset UInt16) (m m' : Market (OrderBook M)) (message : Message) :
    List (ℕ × Trade) :=
  (m.place allowedLocates message).toList.flatMap fun locate =>
    ((m'.reported locate).drop (m.reported locate).length).map (locate, ·)

/-- What the logger, which all books share, is given while the messages are handled. -/
def report (newBook : OrderBook M) (allowedLocates : Finset UInt16) :
    Market (OrderBook M) → List (Option Message) → List (ℕ × Trade)
  | _, [] => []
  | m, message :: messages =>
    (m.dispatch newBook allowedLocates message).toList.flatMap fun m' =>
      message.toList.flatMap (m.printed allowedLocates m') ++
        report newBook allowedLocates m' messages

end Market

end Report

end Nanomatch
