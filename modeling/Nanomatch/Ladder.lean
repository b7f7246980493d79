import Mathlib.Logic.Function.Basic
import Nanomatch.OrderBook

/-!
# The price ladder

What the order book is for, without its links, bitmaps and hash table: a first-in first-out queue
of pool slots per side and price level, the data of the order in each slot, a stack of free slots,
and the finite map from ids to slots as the calls that built it. All operations are total.

The ladder keeps the cached top of book, because `rebase_base` scans for the new best level from
the cached one, and whether that finds it is a question about the book.
-/

namespace Nanomatch

/-- The data of a resting order. `price` is relative to the base. -/
structure Resting where
  id : OrderId
  price : ℕ
  qty : ℕ
  side : Side

def Order.resting (o : Order) : Resting := ⟨o.id, o.price, o.qty, o.side⟩

namespace TopOfBook

def best (t : TopOfBook) : Side → ℕ
  | .BUY => t.bestBid
  | .SELL => t.bestAsk

def qty (t : TopOfBook) : Side → ℕ
  | .BUY => t.bidQty
  | .SELL => t.askQty

def setTop (t : TopOfBook) (best qty : ℕ) : Side → TopOfBook
  | .BUY => { t with bestBid := best, bidQty := qty }
  | .SELL => { t with bestAsk := best, askQty := qty }

def setQty (t : TopOfBook) (qty : ℕ) : Side → TopOfBook
  | .BUY => { t with bidQty := qty }
  | .SELL => { t with askQty := qty }

end TopOfBook

def Side.other : Side → Side
  | .BUY => .SELL
  | .SELL => .BUY

/-- Level `i` of side `sd` trades with a taker whose limit is `limit`. -/
def Side.Crosses (limit i : ℕ) : Side → Prop
  | .BUY => limit ≤ i
  | .SELL => i ≤ limit

/-- Level `i` of side `sd` goes before the cached best level `best`. -/
def Side.Better (i best : ℕ) : Side → Prop
  | .BUY => best = UINT32_MAX ∨ best < i
  | .SELL => best = UINT32_MAX ∨ i < best

instance (limit i : ℕ) : (sd : Side) → Decidable (sd.Crosses limit i)
  | .BUY => inferInstanceAs (Decidable (_ ≤ _))
  | .SELL => inferInstanceAs (Decidable (_ ≤ _))

instance (i best : ℕ) : (sd : Side) → Decidable (sd.Better i best)
  | .BUY => inferInstanceAs (Decidable (_ ∨ _))
  | .SELL => inferInstanceAs (Decidable (_ ∨ _))

structure Ladder where
  /-- Levels per side. -/
  band : ℕ
  /-- Slots of the pool. -/
  cap : ℕ
  tob : TopOfBook := {}
  base : ℕ := 0
  baseSet : Bool := false
  live : ℕ := 0
  info : ℕ → Resting := fun _ => ⟨0, 0, 0, .BUY⟩
  queue : Side → ℕ → List ℕ := fun _ _ => []
  free : List ℕ
  /-- The calls made on the id map, latest first. -/
  calls : List IdCall := []
  trades : List Trade := []

namespace Ladder

def new (band cap : ℕ) : Ladder where
  band := band
  cap := cap
  free := List.range cap

variable (a : Ladder)

section Levels

def volume (sd : Side) (i : ℕ) : ℕ := ((a.queue sd i).map fun s => (a.info s).qty).sum % 2 ^ 32

/-- The levels of side `sd` from `start` away from the other side. -/
def outward : Side → ℕ → List ℕ
  | .BUY, start => (List.range (start + 1)).reverse
  | .SELL, start => List.range' start (a.band - start)

/-- The levels with orders from `start` on. -/
def occupied (sd : Side) (start : ℕ) : List ℕ := (a.outward sd start).filter (a.queue sd · ≠ [])

def firstOf (levels : List ℕ) : ℕ := levels.head?.getD UINT32_MAX

/-- The level a search for the best one starts at. -/
def searchStart : Side → ℕ
  | .BUY => if a.tob.bestBid = UINT32_MAX then a.band - 1 else a.tob.bestBid
  | .SELL => if a.tob.bestAsk ≥ a.band then 0 else a.tob.bestAsk

/-- The cached best level and the levels with orders behind it. -/
def candidates (sd : Side) : List ℕ :=
  if a.tob.best sd = UINT32_MAX then [] else a.occupied sd (a.tob.best sd)

def setTop (sd : Side) (best : ℕ) : Ladder :=
  { a with tob := a.tob.setTop best (a.volume sd best) sd }

def updateBest (sd : Side) : Ladder := a.setTop sd (firstOf (a.occupied sd (a.searchStart sd)))

def setTopQty (sd : Side) (i : ℕ) : Ladder := { a with tob := a.tob.setQty (a.volume sd i) sd }

/-- The refresh of the top of book after an order left level `i`. -/
def refreshTop (sd : Side) (i : ℕ) : Ladder :=
  if i = a.tob.best sd then
    if a.queue sd i = [] then a.updateBest sd else a.setTopQty sd i
  else a

end Levels

section Orders

def setQueue (sd : Side) (i : ℕ) (q : List ℕ) : Ladder :=
  { a with queue := fun sd' j => if sd' = sd ∧ j = i then q else a.queue sd' j }

def setInfo (s : ℕ) (o : Resting) : Ladder := { a with info := Function.update a.info s o }

/-- `amount` is taken off the order in slot `s`. -/
def take (s amount : ℕ) : Ladder :=
  a.setInfo s { a.info s with qty := (a.info s).qty - amount }

def unlink (sd : Side) (i s : ℕ) : Ladder := a.setQueue sd i ((a.queue sd i).erase s)

def eraseId (id : OrderId) : Ladder := { a with calls := .erase id :: a.calls }

def release (s : ℕ) : Ladder := { a with free := s :: a.free }

def dropLive : Ladder := { a with live := a.live - 1 }

def trade (t : Trade) : Ladder := { a with trades := a.trades ++ [t] }

/-- The order in slot `s` leaves level `i`. -/
def retire (sd : Side) (i s : ℕ) : Ladder :=
  ((a.unlink sd i s).eraseId (a.info s).id).release s

/-- The trade of `amount` between a taker and the order in slot `s` of level `i`. -/
def fillOne (sd : Side) (i : ℕ) (takerId : OrderId) (s amount : ℕ) : Ladder :=
  let a' := (a.trade ⟨(a.info s).id, takerId, a.base + i, amount⟩).take s amount
  if (a.info s).qty - amount = 0 then (a'.retire sd i s).dropLive else a'

end Orders

section Matching

/-- A taker with quantity `remaining` goes through the orders `queue` of level `i`. -/
def fill (sd : Side) (i : ℕ) (takerId : OrderId) : List ℕ → Ladder → ℕ → Ladder × ℕ
  | [], a, remaining => (a, remaining)
  | s :: queue, a, remaining =>
    if remaining = 0 then (a, 0) else
      let amount := min remaining (a.info s).qty
      fill sd i takerId queue (a.fillOne sd i takerId s amount) (remaining - amount)

/-- A taker goes through the levels `levels` of side `sd`, the first of which is the best. -/
def sweep (sd : Side) (takerId : OrderId) (limit : ℕ) : List ℕ → Ladder → ℕ → Ladder × ℕ
  | [], a, remaining => (a, remaining)
  | i :: levels, a, remaining =>
    if remaining = 0 ∨ ¬ sd.Crosses limit i then (a, remaining) else
      let r := fill sd i takerId (a.queue sd i) a remaining
      if r.1.queue sd i = [] then
        sweep sd takerId limit levels (r.1.setTop sd (firstOf levels)) r.2
      else (r.1.setTopQty sd i, r.2)

/-- A taker trades against side `sd` up to its limit. -/
def matchAgainst (sd : Side) (takerId : OrderId) (limit qty : ℕ) : Ladder × ℕ :=
  sweep sd takerId limit (a.candidates sd) a qty

end Matching

section Rebase

/-- Level `i` lies in the window that starts at `newBase`. -/
def Keeps (newBase i : ℕ) : Prop := newBase ≤ a.base + i ∧ a.base + i < newBase + a.band

instance (newBase i : ℕ) : Decidable (a.Keeps newBase i) := inferInstanceAs (Decidable (_ ∧ _))

/-- The slots of the first `n` levels of side `sd` that fall out of the window. -/
def dropped (newBase : ℕ) (sd : Side) (n : ℕ) : List ℕ :=
  (List.range n).flatMap fun i => if a.Keeps newBase i then [] else a.queue sd i

/-- The queue that moves to level `nr` from the first `n` levels. -/
def shifted (newBase : ℕ) (sd : Side) (n nr : ℕ) : List ℕ :=
  if a.base ≤ newBase + nr ∧ newBase + nr < a.base + n then a.queue sd (newBase + nr - a.base)
  else []

/-- Orders lose their id and their slot. -/
def dropAll : List ℕ → Ladder → Ladder
  | [], a => a
  | s :: slots, a => dropAll slots ((a.eraseId (a.info s).id).release s).dropLive

def moveTo (newBase : ℕ) : Ladder :=
  let d := dropAll (a.dropped newBase .BUY a.band ++ a.dropped newBase .SELL a.band) a
  { d with
    base := newBase
    info := fun s => { a.info s with price := a.base + (a.info s).price - newBase }
    queue := fun sd nr => if nr < a.band then a.shifted newBase sd a.band nr else [] }

def rebase (newBase : ℕ) : Ladder :=
  if newBase = a.base then a else ((a.moveTo newBase).updateBest .BUY).updateBest .SELL

end Rebase

section Ops

def anchor (price : ℕ) : Ladder :=
  if a.baseSet then a else { a with base := OrderBook.centeredBase a.band price, baseSet := true }

/-- The absolute price `price` lies in the window. -/
def InWindow (price : ℕ) : Prop := a.base ≤ price ∧ price < a.base + a.band

instance (price : ℕ) : Decidable (a.InWindow price) := inferInstanceAs (Decidable (_ ∧ _))

/-- An order enters level `i` in slot `s`. -/
def enter (id : OrderId) (sd : Side) (i qty s : ℕ) : Ladder :=
  let a := a.setInfo s ⟨id, i, qty, sd⟩
  let a := a.setQueue sd i (a.queue sd i ++ [s])
  { a with calls := .insert id s :: a.calls, live := add32 a.live 1 }

def rest (id : OrderId) (sd : Side) (i qty : ℕ) : Ladder × Bool :=
  match a.free with
  | [] => (a, false)
  | s :: free =>
    let a' := { a with free }.enter id sd i qty s
    (if sd.Better i (a'.tob.best sd) then a'.setTop sd i else a', true)

/-- The window moves if `price` lies outside it and the book is small. -/
def rebaseFor (price : ℕ) : Ladder :=
  if ¬ a.InWindow price ∧ a.live ≤ BOOTSTRAP_REBASE_LIMIT then
    a.rebase (OrderBook.centeredBase a.band price)
  else a

/-- The order trades against the other side, and what is left of it rests. -/
def place (id : OrderId) (sd : Side) (i qty : ℕ) : Ladder × Bool :=
  let r := a.matchAgainst sd.other id i qty
  if r.2 = 0 then (r.1, false) else r.1.rest id sd i r.2

def insertLimitOrder (id : OrderId) (sd : Side) (price qty : ℕ) : Ladder × Bool :=
  let a := (a.anchor price).rebaseFor price
  if a.InWindow price then a.place id sd (price - a.base) qty else (a, false)

def find (id : OrderId) : ℕ := lastInsert a.calls id

def cancelAt (s : ℕ) : Ladder :=
  (a.retire (a.info s).side (a.info s).price s).refreshTop (a.info s).side (a.info s).price

def cancelOrder (id : OrderId) : Ladder :=
  if a.find id = NULL_IDX then a else a.cancelAt (a.find id)

def processMarketOrder (sd : Side) (qty : ℕ) : Ladder :=
  (a.matchAgainst sd.other 0 (match sd with | .BUY => a.band - 1 | .SELL => 0) qty).1

/-- `amount`, less than its quantity, is taken off the order in slot `s`. -/
def takePartly (s amount : ℕ) : Ladder :=
  if (a.info s).price = a.tob.best (a.info s).side then
    (a.take s amount).setTopQty (a.info s).side (a.info s).price
  else a.take s amount

def executeAt (s fillQty : ℕ) : Ladder × Bool :=
  let o := a.info s
  let t := a.trade ⟨o.id, 0, a.base + o.price, min fillQty o.qty⟩
  if fillQty ≥ o.qty then ((t.retire o.side o.price s).dropLive.refreshTop o.side o.price, true)
  else (t.takePartly s fillQty, false)

def executeOrder (id : OrderId) (fillQty : ℕ) : Ladder × Bool :=
  if a.find id = NULL_IDX then (a, false) else a.executeAt (a.find id) fillQty

def reduceOrderQty (id : OrderId) (cancelQty : ℕ) : Ladder × Bool :=
  if a.find id = NULL_IDX then (a, false)
  else if cancelQty ≥ (a.info (a.find id)).qty then (a.cancelAt (a.find id), true)
  else (a.takePartly (a.find id) cancelQty, false)

end Ops

def step : OrderBook.Op → Ladder × Bool
  | .insertLimitOrder id side price qty => a.insertLimitOrder id side price.toNat qty.toNat
  | .cancelOrder id => (a.cancelOrder id, false)
  | .processMarketOrder side qty => (a.processMarketOrder side qty.toNat, false)
  | .executeOrder id fillQty => a.executeOrder id fillQty.toNat
  | .reduceOrderQty id cancelQty => a.reduceOrderQty id cancelQty.toNat

def run (a : Ladder) (ops : List OrderBook.Op) : Ladder := ops.foldl (fun a op => (a.step op).1) a

end Ladder

end Nanomatch
