import Nanomatch.Bitmap
import Nanomatch.IdMap

/-!
# The order book

`OrderPool` and `OrderBook`, translated from `OrderBook.hpp` and `OrderBook.cpp`. Every access to
the pool, a price level or a bitmap word is checked, and a loop takes fuel, so an operation fails
where the code would leave an array or never return. A reference to a price level is its side and
index; `&level == &bids_[i]` compares the two.

The book is written over any id map with the three operations of `IdMapOps`.
-/

namespace Nanomatch

section Pool

structure OrderPool where
  pool : Cells Order
  freeHead : ℕ

namespace OrderPool

def capacity (p : OrderPool) : ℕ := p.pool.size

/-- The free list runs through all slots in order. -/
def new (capacity : ℕ) : OrderPool where
  pool := ⟨capacity, fun i => { nextIdx := if i + 1 < capacity then i + 1 else NULL_IDX }⟩
  freeHead := 0

def allocate (p : OrderPool) : Option (OrderPool × ℕ) :=
  if p.freeHead = NULL_IDX then some (p, NULL_IDX) else do
    let idx := p.freeHead
    let o ← p.pool.read idx
    let pool ← p.pool.modify idx fun o => { o with nextIdx := NULL_IDX, prevIdx := NULL_IDX }
    some ({ pool, freeHead := o.nextIdx }, idx)

def deallocate (p : OrderPool) (idx : ℕ) : Option OrderPool := do
  let pool ← p.pool.modify idx fun o => { o with nextIdx := p.freeHead }
  some { pool, freeHead := idx }

end OrderPool

end Pool

structure OrderBook (M : Type) where
  tob : TopOfBook := {}
  pool : OrderPool
  idMap : M
  /-- The trades passed to `enqueue_trade`, in order. -/
  logger : List Trade := []
  base : ℕ := 0
  baseSet : Bool := false
  liveOrderCount : ℕ := 0
  bids : Cells PriceLevel
  asks : Cells PriceLevel
  bidBitmap : Bitmap
  askBitmap : Bitmap

def BOOTSTRAP_REBASE_LIMIT : ℕ := 64

namespace OrderBook

variable {M : Type}

/-- A fresh book over the empty id map `idMap`. -/
def new (priceBand maxOrders : ℕ) (idMap : M) : OrderBook M where
  pool := OrderPool.new maxOrders
  idMap := idMap
  bids := Cells.fill priceBand {}
  asks := Cells.fill priceBand {}
  bidBitmap := Bitmap.init priceBand
  askBitmap := Bitmap.init priceBand

section Access

def levels (s : OrderBook M) : Side → Cells PriceLevel
  | .BUY => s.bids
  | .SELL => s.asks

def setLevels (s : OrderBook M) (levels : Cells PriceLevel) : Side → OrderBook M
  | .BUY => { s with bids := levels }
  | .SELL => { s with asks := levels }

def bitmap (s : OrderBook M) : Side → Bitmap
  | .BUY => s.bidBitmap
  | .SELL => s.askBitmap

def setBitmap (s : OrderBook M) (bitmap : Bitmap) : Side → OrderBook M
  | .BUY => { s with bidBitmap := bitmap }
  | .SELL => { s with askBitmap := bitmap }

def readOrder (s : OrderBook M) (idx : ℕ) : Option Order := s.pool.pool.read idx

def modifyOrder (s : OrderBook M) (idx : ℕ) (f : Order → Order) : Option (OrderBook M) := do
  let pool ← s.pool.pool.modify idx f
  some { s with pool := { s.pool with pool } }

def readLevel (s : OrderBook M) (side : Side) (i : ℕ) : Option PriceLevel :=
  (s.levels side).read i

def modifyLevel (s : OrderBook M) (side : Side) (i : ℕ) (f : PriceLevel → PriceLevel) :
    Option (OrderBook M) := do
  s.setLevels (← (s.levels side).modify i f) side

def setBit (s : OrderBook M) (side : Side) (p : ℕ) : Option (OrderBook M) := do
  s.setBitmap (← (s.bitmap side).setBit p) side

def clearBit (s : OrderBook M) (side : Side) (p : ℕ) : Option (OrderBook M) := do
  s.setBitmap (← (s.bitmap side).clearBit p) side

def enqueueTrade (s : OrderBook M) (t : Trade) : OrderBook M := { s with logger := s.logger ++ [t] }

def deallocate (s : OrderBook M) (idx : ℕ) : Option (OrderBook M) := do
  some { s with pool := ← s.pool.deallocate idx }

/-- `if (live_order_count_ > 0) --live_order_count_` -/
def dropLive (s : OrderBook M) : OrderBook M :=
  if s.liveOrderCount > 0 then { s with liveOrderCount := s.liveOrderCount - 1 } else s

def setBidQty (s : OrderBook M) (q : ℕ) : OrderBook M := { s with tob := { s.tob with bidQty := q } }

def setAskQty (s : OrderBook M) (q : ℕ) : OrderBook M := { s with tob := { s.tob with askQty := q } }

variable [IdMapOps M]

def findId (s : OrderBook M) (id : OrderId) : Option ℕ := IdMapOps.find s.idMap id

def insertId (s : OrderBook M) (id : OrderId) (slot : ℕ) : Option (OrderBook M) := do
  some { s with idMap := ← IdMapOps.insert s.idMap id slot }

def eraseId (s : OrderBook M) (id : OrderId) : Option (OrderBook M) := do
  some { s with idMap := ← IdMapOps.erase s.idMap id }

end Access

section Links

def levelAppend (s : OrderBook M) (side : Side) (i idx : ℕ) : Option (OrderBook M) := do
  let level ← s.readLevel side i
  let s ← s.modifyOrder idx fun o => { o with prevIdx := level.tailIdx, nextIdx := NULL_IDX }
  let o ← s.readOrder idx
  let s ←
    (if level.headIdx = NULL_IDX then do
      let s ← s.modifyLevel side i fun l => { l with headIdx := idx }
      if side = .BUY ∧ i = o.price then s.setBit .BUY o.price else s.setBit .SELL o.price
    else s.modifyOrder level.tailIdx fun t => { t with nextIdx := idx })
  s.modifyLevel side i fun l =>
    { l with
      tailIdx := idx
      totalVolume := add32 l.totalVolume o.qty
      orderCount := add32 l.orderCount 1 }

def levelRemove (s : OrderBook M) (side : Side) (i idx : ℕ) : Option (OrderBook M) := do
  let o ← s.readOrder idx
  let s ←
    (if o.prevIdx = NULL_IDX then s.modifyLevel side i fun l => { l with headIdx := o.nextIdx }
    else s.modifyOrder o.prevIdx fun p => { p with nextIdx := o.nextIdx })
  let o ← s.readOrder idx
  let s ←
    (if o.nextIdx = NULL_IDX then s.modifyLevel side i fun l => { l with tailIdx := o.prevIdx }
    else s.modifyOrder o.nextIdx fun n => { n with prevIdx := o.prevIdx })
  let o ← s.readOrder idx
  let s ← s.modifyLevel side i fun l =>
    { l with
      totalVolume := sub32 l.totalVolume o.qty
      orderCount := sub32 l.orderCount 1 }
  let level ← s.readLevel side i
  let s ←
    (if level.empty then
      if side = .BUY ∧ i = o.price then s.clearBit .BUY o.price else s.clearBit .SELL o.price
    else some s)
  s.modifyOrder idx fun o => { o with nextIdx := NULL_IDX, prevIdx := NULL_IDX }

end Links

section TopOfBook

def updateBestBid (s : OrderBook M) : Option (OrderBook M) := do
  let start := if s.tob.bestBid = UINT32_MAX then s.bids.size - 1 else s.tob.bestBid
  let next ← findPrevSetBit s.bidBitmap start
  if next ≠ UINT32_MAX then
    let level ← s.readLevel .BUY next
    some { s with tob := { s.tob with bestBid := next, bidQty := level.totalVolume } }
  else some { s with tob := { s.tob with bestBid := UINT32_MAX, bidQty := 0 } }

def updateBestAsk (s : OrderBook M) : Option (OrderBook M) := do
  let start := if s.tob.bestAsk ≥ s.asks.size then 0 else s.tob.bestAsk
  let next ← findNextSetBit s.askBitmap start
  if next ≠ UINT32_MAX then
    let level ← s.readLevel .SELL next
    some { s with tob := { s.tob with bestAsk := next, askQty := level.totalVolume } }
  else some { s with tob := { s.tob with bestAsk := UINT32_MAX, askQty := 0 } }

end TopOfBook

section Matching

variable [IdMapOps M]

/-- The inner loop of `match_against_asks` and `match_against_bids`, which is the same in both: it
walks the orders of one level from `idx`. -/
def matchLevel (side : Side) (i : ℕ) (takerId : OrderId) :
    ℕ → OrderBook M → ℕ → ℕ → Option (OrderBook M × ℕ)
  | 0, _, _, _ => none
  | fuel + 1, s, idx, remaining =>
    if idx ≠ NULL_IDX ∧ remaining > 0 then do
      let o ← s.readOrder idx
      let next := o.nextIdx
      let matchQty := min remaining o.qty
      let level ← s.readLevel side i
      let s := s.enqueueTrade ⟨o.id, takerId, level.price, matchQty⟩
      let s ← s.modifyOrder idx fun o => { o with qty := o.qty - matchQty }
      let s ← s.modifyLevel side i fun l => { l with totalVolume := sub32 l.totalVolume matchQty }
      let o ← s.readOrder idx
      let s ←
        (if o.qty = 0 then do
          let s ← s.levelRemove side i idx
          let s ← s.eraseId o.id
          let s ← s.deallocate idx
          some s.dropLive
        else some s)
      matchLevel side i takerId fuel s next (remaining - matchQty)
    else some (s, remaining)

/-- The outer loop of `match_against_asks`. -/
def matchAsksLoop (takerId : OrderId) (limit : ℕ) :
    ℕ → OrderBook M → ℕ → Option (OrderBook M × ℕ)
  | 0, _, _ => none
  | fuel + 1, s, remaining =>
    if remaining > 0 then
      let best := s.tob.bestAsk
      if best > limit then some (s, remaining) else do
        let level ← s.readLevel .SELL best
        let (s, remaining) ←
          matchLevel .SELL best takerId (s.pool.capacity + 1) s level.headIdx remaining
        let level ← s.readLevel .SELL best
        let s ← (if level.empty then s.updateBestAsk else some (s.setAskQty level.totalVolume))
        matchAsksLoop takerId limit fuel s remaining
    else some (s, remaining)

/-- The outer loop of `match_against_bids`. -/
def matchBidsLoop (takerId : OrderId) (limit : ℕ) :
    ℕ → OrderBook M → ℕ → Option (OrderBook M × ℕ)
  | 0, _, _ => none
  | fuel + 1, s, remaining =>
    if remaining > 0 then
      let best := s.tob.bestBid
      if best = UINT32_MAX ∨ best < limit then some (s, remaining) else do
        let level ← s.readLevel .BUY best
        if level.empty then some (s, remaining) else do
          let (s, remaining) ←
            matchLevel .BUY best takerId (s.pool.capacity + 1) s level.headIdx remaining
          let level ← s.readLevel .BUY best
          let s ← (if level.empty then s.updateBestBid else some (s.setBidQty level.totalVolume))
          matchBidsLoop takerId limit fuel s remaining
    else some (s, remaining)

def matchAgainstAsks (s : OrderBook M) (takerId : OrderId) (limit qty : ℕ) :
    Option (OrderBook M × ℕ) :=
  matchAsksLoop takerId limit (s.asks.size + 2) s qty

def matchAgainstBids (s : OrderBook M) (takerId : OrderId) (limit qty : ℕ) :
    Option (OrderBook M × ℕ) :=
  matchBidsLoop takerId limit (s.bids.size + 2) s qty

end Matching

section Rebase

variable [IdMapOps M]

/-- The loop of `rebase_base` that drops the orders of a level outside the new window. -/
def dropOrders : ℕ → OrderBook M → ℕ → Option (OrderBook M)
  | 0, _, _ => none
  | fuel + 1, s, j =>
    if j ≠ NULL_IDX then do
      let o ← s.readOrder j
      let next := o.nextIdx
      let s ← s.eraseId o.id
      let s ← s.deallocate j
      dropOrders fuel s.dropLive next
    else some s

/-- The loop of `rebase_base` that relinks the orders of a level into `dst`, at index `nr`. -/
def moveOrders (nr : ℕ) : ℕ → OrderBook M → PriceLevel → ℕ → Option (OrderBook M × PriceLevel)
  | 0, _, _, _ => none
  | fuel + 1, s, dst, j =>
    if j ≠ NULL_IDX then do
      let s ← s.modifyOrder j fun o => { o with price := nr }
      let o ← s.readOrder j
      let next := o.nextIdx
      let (s, dst) ←
        (if dst.headIdx = NULL_IDX then do
          let s ← s.modifyOrder j fun o => { o with prevIdx := NULL_IDX }
          some (s, { dst with headIdx := j })
        else do
          let s ← s.modifyOrder dst.tailIdx fun t => { t with nextIdx := j }
          let s ← s.modifyOrder j fun o => { o with prevIdx := dst.tailIdx }
          some (s, dst))
      let s ← s.modifyOrder j fun o => { o with nextIdx := NULL_IDX }
      let o ← s.readOrder j
      moveOrders nr fuel s
        { dst with
          tailIdx := j
          totalVolume := add32 dst.totalVolume o.qty
          orderCount := add32 dst.orderCount 1 } next
    else some (s, dst)

/-- The body of the level loops of `rebase_base`, the same for bids and asks: level `idx` goes to
the new levels and bitmap, or is dropped. -/
def rebaseLevel (side : Side) (newBase : ℕ) (s : OrderBook M) (newLevels : Cells PriceLevel)
    (newBitmap : Bitmap) (idx : ℕ) : Option (OrderBook M × Cells PriceLevel × Bitmap) := do
  let lvl ← s.readLevel side idx
  if lvl.empty then some (s, newLevels, newBitmap) else
    let absPrice := add32 s.base idx
    let newRel : ℤ := (absPrice : ℤ) - (newBase : ℤ)
    if newRel < 0 ∨ newRel ≥ ((s.levels side).size : ℤ) then do
      let s ← dropOrders (s.pool.capacity + 1) s lvl.headIdx
      some (s, newLevels, newBitmap)
    else do
      let nr := newRel.toNat
      let dst ← newLevels.read nr
      let (s, dst) ←
        moveOrders nr (s.pool.capacity + 1) s { dst with price := absPrice } lvl.headIdx
      let newLevels ← newLevels.modify nr fun _ => dst
      let newBitmap ← newBitmap.setBit nr
      some (s, newLevels, newBitmap)

/-- The first `n` rounds of a level loop of `rebase_base`. -/
def rebaseLevels (side : Side) (newBase : ℕ) (s : OrderBook M) :
    ℕ → Option (OrderBook M × Cells PriceLevel × Bitmap)
  | 0 => some (s, Cells.fill (s.levels side).size {}, Bitmap.init (s.levels side).size)
  | n + 1 => do
    let (s', newLevels, newBitmap) ← rebaseLevels side newBase s n
    rebaseLevel side newBase s' newLevels newBitmap n

def rebaseBase (s : OrderBook M) (newBase : ℕ) : Option (OrderBook M) :=
  if newBase = s.base then some s else do
    let (s, newBids, newBidBitmap) ← rebaseLevels .BUY newBase s s.bids.size
    let (s, newAsks, newAskBitmap) ← rebaseLevels .SELL newBase s s.bids.size
    let s := { s with
      bids := newBids
      asks := newAsks
      bidBitmap := newBidBitmap
      askBitmap := newAskBitmap
      base := newBase }
    let s ← s.updateBestBid
    s.updateBestAsk

end Rebase

section Ops

variable [IdMapOps M]

def toIdx (s : OrderBook M) (p : ℕ) : ℤ := (p : ℤ) - (s.base : ℤ)

def inBand (s : OrderBook M) (idx : ℤ) : Prop := idx ≥ 0 ∧ idx < (s.bids.size : ℤ)

instance (s : OrderBook M) (idx : ℤ) : Decidable (s.inBand idx) :=
  inferInstanceAs (Decidable (_ ∧ _))

/-- The base that puts `price` in the middle of a window of `band` levels. -/
def centeredBase (band price : ℕ) : ℕ :=
  let half := band / 2
  if price < half then 0 else price - half

/-- The anchoring at the top of `insert_limit_order`. -/
def anchor (s : OrderBook M) (price : ℕ) : OrderBook M :=
  if s.baseSet then s else { s with base := centeredBase s.bids.size price, baseSet := true }

/-- The second half of each side of `insert_limit_order`: the unfilled remainder rests at `pidx`.
The top of book moves if `pidx` is better than `best`. -/
def restOrder (s : OrderBook M) (id : OrderId) (side : Side) (price pidx remaining : ℕ)
    (better : OrderBook M → Bool) (setBest : OrderBook M → ℕ → OrderBook M) :
    Option (OrderBook M × Bool) := do
  let (pool, slot) ← s.pool.allocate
  let s := { s with pool }
  if slot = NULL_IDX then some (s, false) else do
    let s ← s.modifyOrder slot fun o => { o with id, price := pidx, qty := remaining, side }
    let level ← s.readLevel side pidx
    let s ←
      (if level.empty then s.modifyLevel side pidx fun l => { l with price := price } else some s)
    let s ← s.levelAppend side pidx slot
    let s ← s.insertId id slot
    let s := { s with liveOrderCount := add32 s.liveOrderCount 1 }
    let level ← s.readLevel side pidx
    some (if better s then setBest s level.totalVolume else s, true)

def insertLimitOrder (s : OrderBook M) (id : OrderId) (side : Side) (price qty : ℕ) :
    Option (OrderBook M × Bool) := do
  let s := s.anchor price
  let s ←
    (if ¬ s.inBand (s.toIdx price) ∧ s.liveOrderCount ≤ BOOTSTRAP_REBASE_LIMIT then
      s.rebaseBase (centeredBase s.bids.size price)
    else some s)
  if ¬ s.inBand (s.toIdx price) then some (s, false) else
    let pidx := (s.toIdx price).toNat
    match side with
    | .BUY => do
      let (s, remaining) ← s.matchAgainstAsks id pidx qty
      if remaining = 0 then some (s, false) else
        s.restOrder id side price pidx remaining
          (fun s => s.tob.bestBid = UINT32_MAX ∨ pidx > s.tob.bestBid)
          (fun s volume => { s with tob := { s.tob with bestBid := pidx, bidQty := volume } })
    | .SELL => do
      let (s, remaining) ← s.matchAgainstBids id pidx qty
      if remaining = 0 then some (s, false) else
        s.restOrder id side price pidx remaining
          (fun s => s.tob.bestAsk = UINT32_MAX ∨ pidx < s.tob.bestAsk)
          (fun s volume => { s with tob := { s.tob with bestAsk := pidx, askQty := volume } })

/-- The refresh of the top of book after an order left the level at `price`, which `cancel_order`
and `execute_order` do alike. -/
def refreshTop (s : OrderBook M) (side : Side) (price : ℕ) : Option (OrderBook M) := do
  let level ← s.readLevel side price
  match side with
  | .BUY =>
    if price = s.tob.bestBid then
      if level.empty then s.updateBestBid else some (s.setBidQty level.totalVolume)
    else some s
  | .SELL =>
    if price = s.tob.bestAsk then
      if level.empty then s.updateBestAsk else some (s.setAskQty level.totalVolume)
    else some s

def cancelOrder (s : OrderBook M) (id : OrderId) : Option (OrderBook M) := do
  let idx ← s.findId id
  if idx = NULL_IDX then some s else do
    let o ← s.readOrder idx
    let side := o.side
    let price := o.price
    let s ← s.levelRemove side price idx
    let s ← s.eraseId id
    let s ← s.deallocate idx
    s.refreshTop side price

def processMarketOrder (s : OrderBook M) (side : Side) (qty : ℕ) : Option (OrderBook M) :=
  match side with
  | .BUY => do
    let (s, _) ← s.matchAgainstAsks 0 (s.asks.size - 1) qty
    some s
  | .SELL => do
    let (s, _) ← s.matchAgainstBids 0 0 qty
    some s

/-- The partial path of `execute_order` and `reduce_order_qty`: `amount`, less than the order's
quantity, is taken off the order, its level and the top of book. -/
def takePartly (s : OrderBook M) (side : Side) (price idx amount : ℕ) : Option (OrderBook M) := do
  let s ← s.modifyOrder idx fun o => { o with qty := o.qty - amount }
  let s ← s.modifyLevel side price fun l => { l with totalVolume := sub32 l.totalVolume amount }
  let level ← s.readLevel side price
  some <|
    if side = .BUY ∧ price = s.tob.bestBid then s.setBidQty level.totalVolume
    else if side = .SELL ∧ price = s.tob.bestAsk then s.setAskQty level.totalVolume
    else s

def executeOrder (s : OrderBook M) (id : OrderId) (fillQty : ℕ) : Option (OrderBook M × Bool) := do
  let idx ← s.findId id
  if idx = NULL_IDX then some (s, false) else do
    let o ← s.readOrder idx
    let side := o.side
    let relPrice := o.price
    let level ← s.readLevel side relPrice
    let absPrice := level.price
    if fillQty ≥ o.qty then do
      let s := s.enqueueTrade ⟨o.id, 0, absPrice, o.qty⟩
      let s ← s.levelRemove side relPrice idx
      let s ← s.eraseId id
      let s ← s.deallocate idx
      let s ← s.dropLive.refreshTop side relPrice
      some (s, true)
    else do
      let s := s.enqueueTrade ⟨o.id, 0, absPrice, fillQty⟩
      let s ← s.takePartly side relPrice idx fillQty
      some (s, false)

def reduceOrderQty (s : OrderBook M) (id : OrderId) (cancelQty : ℕ) :
    Option (OrderBook M × Bool) := do
  let idx ← s.findId id
  if idx = NULL_IDX then some (s, false) else do
    let o ← s.readOrder idx
    if cancelQty ≥ o.qty then do
      let s ← s.cancelOrder id
      some (s, true)
    else do
      let s ← s.takePartly o.side o.price idx cancelQty
      some (s, false)

end Ops

/-- A call of one of the public operations, with the arguments the code's types allow. -/
inductive Op
  | insertLimitOrder (id : OrderId) (side : Side) (price qty : UInt32)
  | cancelOrder (id : OrderId)
  | processMarketOrder (side : Side) (qty : UInt32)
  | executeOrder (id : OrderId) (fillQty : UInt32)
  | reduceOrderQty (id : OrderId) (cancelQty : UInt32)

variable [IdMapOps M]

/-- One call: the book after it, and what it returned (`false` where it returns nothing). -/
def step (s : OrderBook M) : Op → Option (OrderBook M × Bool)
  | .insertLimitOrder id side price qty => s.insertLimitOrder id side price.toNat qty.toNat
  | .cancelOrder id => (s.cancelOrder id).map (·, false)
  | .processMarketOrder side qty => (s.processMarketOrder side qty.toNat).map (·, false)
  | .executeOrder id fillQty => s.executeOrder id fillQty.toNat
  | .reduceOrderQty id cancelQty => s.reduceOrderQty id cancelQty.toNat

/-- The book after a sequence of calls. -/
def run : OrderBook M → List Op → Option (OrderBook M)
  | s, [] => some s
  | s, op :: ops => do
    let (s, _) ← s.step op
    run s ops

/-- The book after a sequence of calls, and what they returned. -/
def runResults : OrderBook M → List Op → Option (OrderBook M × List Bool)
  | s, [] => some (s, [])
  | s, op :: ops => do
    let (s, r) ← s.step op
    let (s, rs) ← runResults s ops
    some (s, r :: rs)

end OrderBook

end Nanomatch
