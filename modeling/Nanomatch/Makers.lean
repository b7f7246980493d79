import Nanomatch.Ladder
import Nanomatch.Lib.Greedy
import Nanomatch.View

/-!
# The orders that a taker meets

`match_against_asks` and `match_against_bids` go from the cached best level towards the taker's
limit, and through each level from its head. The orders on this way are the taker's makers.
-/

namespace Nanomatch

open Greedy

namespace OrderBook

variable {M : Type} (c : OrderBook M)

/-- The levels of side `sd` from `start` away from the other side. -/
def levelsFrom : Side → ℕ → List ℕ
  | .BUY, start => (List.range (start + 1)).reverse
  | .SELL, start => List.range' start (c.asks.size - start)

/-- The slots of the orders of side `sd` from level `start` as far as `limit`, best level first and
head to tail within a level. -/
def makersFrom (sd : Side) (start limit : ℕ) : List ℕ :=
  ((c.levelsFrom sd start).filter (sd.Crosses limit ·)).flatMap (c.slots sd)

/-- All the orders of side `sd` within `limit`. -/
def makers : Side → ℕ → List ℕ
  | .BUY => c.makersFrom .BUY (c.bids.size - 1)
  | .SELL => c.makersFrom .SELL 0

/-- The orders of side `sd` that a taker with limit `limit` meets. -/
def metMakers (sd : Side) (limit : ℕ) : List ℕ :=
  if c.tob.best sd = UINT32_MAX then [] else c.makersFrom sd (c.tob.best sd) limit

def qtyAt (s : ℕ) : ℕ := (c.pool.pool.cell s).qty

section Matched

/-- What the constructor and the width of the code's types fix about a book. -/
structure Sized (band cap : ℕ) : Prop where
  band_pos : 0 < band
  band_lt : band < 2 ^ 32
  cap_lt : cap < 2 ^ 32
  levels : ∀ sd, (c.levels sd).size = band
  bitmap : ∀ sd, (c.bitmap sd).size = (band + 63) / 64
  qty : ∀ sd, ∀ i < band, ∀ s ∈ c.slots sd i, c.qtyAt s < 2 ^ 32

/-- A taker trades with the orders of side `sd`. -/
def matchAgainst [IdMapOps M] : Side → OrderId → ℕ → ℕ → Option (OrderBook M × ℕ)
  | .BUY => c.matchAgainstBids
  | .SELL => c.matchAgainstAsks

/-- The trade of `amount` between the taker and the order in slot `s` of side `sd`. -/
def offer (sd : Side) (takerId : OrderId) (s amount : ℕ) : Trade :=
  ⟨(c.pool.pool.cell s).id, takerId, (c.levelAt sd (c.pool.pool.cell s).price).price, amount⟩

/-- The makers that a taker fills, first to last. -/
def filledMakers (sd : Side) (limit qty : ℕ) : List ℕ := filled c.qtyAt qty (c.makers sd limit)

/-- The maker that a taker fills in part, if there is one. -/
def cutMaker (sd : Side) (limit qty : ℕ) : Option ℕ := cut c.qtyAt qty (c.makers sd limit)

/-- What the taker still wants when it gets to the maker it fills in part. -/
def wanted (sd : Side) (limit qty : ℕ) : ℕ := qty - total c.qtyAt (c.filledMakers sd limit qty)

/-- One trade for each maker that is filled, and one for the maker that is filled in part. -/
def trades (sd : Side) (takerId : OrderId) (limit qty : ℕ) : List Trade :=
  (c.filledMakers sd limit qty).map (fun s => c.offer sd takerId s (c.qtyAt s)) ++
    (c.cutMaker sd limit qty).toList.map (c.offer sd takerId · (c.wanted sd limit qty))

/-- The book `c'` and the quantity `left` are what a taker leaves that fills its quantity from the
makers, first to last. -/
structure Matched [IdMapOps M] (sd : Side) (takerId : OrderId) (limit qty : ℕ) (c' : OrderBook M)
    (left : ℕ) : Prop where
  /-- The makers that trade are a prefix of all, it reaches the quantity if all of them do, and
  no shorter one does. -/
  first : c.filledMakers sd limit qty ++ (c.cutMaker sd limit qty).toList <+: c.makers sd limit
  reach : qty ≤ total c.qtyAt (c.filledMakers sd limit qty ++ (c.cutMaker sd limit qty).toList) ∨
    c.filledMakers sd limit qty ++ (c.cutMaker sd limit qty).toList = c.makers sd limit
  shortest : ∀ l, l <+: c.filledMakers sd limit qty ++ (c.cutMaker sd limit qty).toList →
    l ≠ c.filledMakers sd limit qty ++ (c.cutMaker sd limit qty).toList → total c.qtyAt l < qty
  logger : c'.logger = c.logger ++ c.trades sd takerId limit qty
  left : left + ((c.trades sd takerId limit qty).map Trade.qty).sum = qty
  base : c'.base = c.base
  size : ∀ sd', (c'.levels sd').size = (c.levels sd').size
  /-- The filled makers leave their levels, and nothing else does. -/
  slots : ∀ sd', ∀ i < (c.levels sd').size,
    c'.slots sd' i = (c.slots sd' i).filter (· ∉ c.filledMakers sd limit qty)
  price : ∀ sd', ∀ i < (c.levels sd').size, c'.slots sd' i ≠ [] →
    (c'.levelAt sd' i).price = (c.levelAt sd' i).price
  data : ∀ sd', ∀ i < (c.levels sd').size, ∀ s ∈ c'.slots sd' i,
    (c'.pool.pool.cell s).resting =
      if c.cutMaker sd limit qty = some s then
        { (c.pool.pool.cell s).resting with qty := c.qtyAt s - c.wanted sd limit qty }
      else (c.pool.pool.cell s).resting
  free : c'.freeSlots = (c.filledMakers sd limit qty).reverse ++ c.freeSlots
  ids : runCalls c.idMap ((c.filledMakers sd limit qty).map fun s =>
    IdCall.erase (c.pool.pool.cell s).id).reverse = some c'.idMap
  top : c'.TopExact

end Matched

end OrderBook

end Nanomatch
