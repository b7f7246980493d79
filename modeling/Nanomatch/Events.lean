import Nanomatch.View

/-!
# Events on single orders

A feed cancels, fills or reduces an order that it names by its id. What two such events do to a book
in either order, what one does at once or in two steps, and what is left of an insert after its
order is cancelled, is said by comparing books level by level.
-/

namespace Nanomatch

open WordBits

namespace OrderBook

/-- The call is an event on the order `id`. -/
def Op.On (id : OrderId) : Op → Prop
  | .cancelOrder id' => id' = id
  | .executeOrder id' _ => id' = id
  | .reduceOrderQty id' _ => id' = id
  | .insertLimitOrder _ _ _ _ => False
  | .processMarketOrder _ _ => False

variable {M : Type} [IdMapOps M] (c : OrderBook M)

/-- The levels of `c'` have the queues of those of `c`, in the same slots, with the same orders and
links, and the bitmaps and the id map are the same. -/
structure SameLevels (c' : OrderBook M) : Prop where
  size : ∀ sd, (c'.levels sd).size = (c.levels sd).size
  slots : ∀ sd, ∀ i < (c.levels sd).size, c'.slots sd i = c.slots sd i
  order : ∀ sd, ∀ i < (c.levels sd).size, ∀ s ∈ c.slots sd i, c'.pool.pool.cell s = c.pool.pool.cell s
  ends : ∀ sd, ∀ i < (c.levels sd).size, (c'.levelAt sd i).headIdx = (c.levelAt sd i).headIdx ∧
    (c'.levelAt sd i).tailIdx = (c.levelAt sd i).tailIdx
  totals : ∀ sd, ∀ i < (c.levels sd).size,
    (c'.levelAt sd i).totalVolume = (c.levelAt sd i).totalVolume ∧
    (c'.levelAt sd i).orderCount = (c.levelAt sd i).orderCount
  bit : ∀ sd, (c'.bitmap sd).size = (c.bitmap sd).size ∧
    ∀ p, bitAt (c'.bitmap sd) p = bitAt (c.bitmap sd) p
  ids : ∀ id, c'.findId id = c.findId id

/-- It does not matter which of the calls `f` and `g` comes first. -/
def Commute (f g : Op) : Prop :=
  ∃ cf cg cfg cgf rf rg tf tg,
    (c.step f = some (cf, rf) ∧ cf.step g = some (cfg, rg)) ∧
    (c.step g = some (cg, rg) ∧ cg.step f = some (cgf, rf)) ∧
    (cf.logger = c.logger ++ tf ∧ cfg.logger = cf.logger ++ tg) ∧
    (cg.logger = c.logger ++ tg ∧ cgf.logger = cg.logger ++ tf) ∧
    cfg.SameLevels cgf ∧ cgf.tob = cfg.tob ∧ cgf.liveOrderCount = cfg.liveOrderCount

/-- The calls `op₁` and then `op₂` come to the call `op`. They make the trades `new`, it makes the
trades `new'`. -/
def Splits (op₁ op₂ op : Op) (new new' : List Trade) : Prop :=
  ∃ c₁ c₂ c' r₁ r₂,
    (c.step op₁ = some (c₁, r₁) ∧ c₁.step op₂ = some (c₂, r₂)) ∧
    c.step op = some (c', r₁ || r₂) ∧
    c₂.logger = c.logger ++ new ∧ c'.logger = c.logger ++ new' ∧
    c'.SameLevels c₂ ∧ c₂.tob = c'.tob ∧ c₂.liveOrderCount = c'.liveOrderCount ∧
    c₂.freeSlots = c'.freeSlots

/-- A cancel of `id` takes back the call `op`. -/
def Undoes (op : Op) (id : OrderId) : Prop :=
  ∃ c₁ c₂, c.step op = some (c₁, true) ∧ c₁.step (.cancelOrder id) = some (c₂, false) ∧
    c.SameLevels c₂ ∧ c₂.tob.bestBid = c.tob.bestBid ∧ c₂.tob.bestAsk = c.tob.bestAsk ∧
    c₂.pool.freeHead = c.pool.freeHead ∧ c₂.freeSlots = c.freeSlots ∧ c₂.logger = c.logger

end OrderBook

end Nanomatch
