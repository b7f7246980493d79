import Nanomatch.Proofs.IdMapRuns
import Nanomatch.View

/-!
# The book over its hash table

The book as the constructor makes it, with `IdMap` for its id map, and what it is for the table to
be in step with the orders of the book.
-/

namespace Nanomatch

namespace IdMap

/-- The table fits a pool of `slots` slots: its capacity is a power of two, `mask_` is one less, and
half of it is enough for one entry a slot. A probe of a table of this size, from wherever it starts,
meets an empty entry if it holds no more entries than that. -/
structure SizedFor (t : IdMap) (slots : ℕ) : Prop where
  pow : ∃ e, t.cap = 2 ^ e
  mask : t.mask = t.cap - 1
  cap : 2 * slots ≤ t.cap
  meets : ∀ t' : IdMap, t'.cap = t.cap → t'.mask = t.mask →
    ((Finset.range t.cap).filter t'.Occupied).card ≤ slots →
    ∀ slot < t.cap, ∃ d < t.cap, ¬ t'.Occupied (t'.slotAfter slot d)

end IdMap

namespace OrderBook

/-- `round_up_pow2` of `OrderBook.cpp`. -/
def roundUpPow2 (v : ℕ) : ℕ :=
  if v = 0 then 1 else
    let v := v - 1
    let v := v ||| (v >>> 1)
    let v := v ||| (v >>> 2)
    let v := v ||| (v >>> 4)
    let v := v ||| (v >>> 8)
    let v := v ||| (v >>> 16)
    add32 v 1

/-- The book of the constructor, which sizes the pool and the table by `max_orders`. -/
def create (priceBand maxOrders : ℕ) : OrderBook IdMap :=
  OrderBook.new priceBand (maxOrders % 2 ^ 32)
    (IdMap.new (roundUpPow2 (maxOrders % 2 ^ 32 * 2 % 2 ^ 32)))

section Calls

variable {M : Type} [IdMapOps M] (c : OrderBook M)

/-- The book with its id map under a log. -/
def logged : OrderBook (CallLog M) := { c with idMap := ⟨c.idMap, []⟩ }

/-- The calls that `op` makes on the id map, latest first. -/
def callsOf (op : Op) : Option (List IdCall) := (c.logged.step op).map (·.1.idMap.calls)

/-- The call does not insert the id of a resting order. -/
def NewId : Op → Prop
  | .insertLimitOrder id _ _ _ => ∀ o ∈ c.resting .BUY ++ c.resting .SELL, o.id ≠ id
  | _ => True

instance : (op : Op) → Decidable (c.NewId op)
  | .insertLimitOrder _ _ _ _ => inferInstanceAs (Decidable (∀ o ∈ _, _))
  | .cancelOrder _ => .isTrue trivial
  | .processMarketOrder _ _ => .isTrue trivial
  | .executeOrder _ _ => .isTrue trivial
  | .reduceOrderQty _ _ => .isTrue trivial

end Calls

/-- Every erase that `op` makes is safe in the table it is made on. -/
def SafeErases (c : OrderBook IdMap) (op : Op) : Prop :=
  ∀ calls, c.callsOf op = some calls → SafeCalls c.idMap calls

instance (c : OrderBook IdMap) (op : Op) : Decidable (c.SafeErases op) :=
  inferInstanceAs (Decidable (∀ calls, c.callsOf op = some calls → _))

/-- The table of a book with `maxOrders` slots holds exactly the ids of the resting orders, with
their slots, has room, and answers. -/
structure InStep (c : OrderBook IdMap) (maxOrders : ℕ) : Prop where
  held : ∀ z < c.idMap.cap, c.idMap.Occupied z → ∃ sd, ∃ i < (c.levels sd).size,
    (c.idMap.entries.cell z).val ∈ c.slots sd i ∧
      (c.pool.pool.cell (c.idMap.entries.cell z).val).id = (c.idMap.entries.cell z).key
  once : ∀ sd, ∀ i < (c.levels sd).size, ∀ s ∈ c.slots sd i, ∃! z, z < c.idMap.cap ∧
    c.idMap.Occupied z ∧ c.idMap.entries.cell z = ⟨(c.pool.pool.cell s).id, s⟩
  freed : ∀ z < c.idMap.cap, c.idMap.Occupied z → (c.idMap.entries.cell z).val ∉ c.freeSlots
  cap : 2 * maxOrders ≤ c.idMap.cap
  room : ((Finset.range c.idMap.cap).filter c.idMap.Occupied).card ≤ maxOrders
  find : ∀ id, (c.idMap.find id).isSome
  insert : ∀ id val, (c.idMap.insert id val).isSome
  erase : ∀ id, (c.idMap.erase id).isSome

section Compare

/-- The books `c` and `d`, over one id map each, hold the same orders in the same slots and levels,
show the same top, and have made the same trades. A level without orders keeps the price that it
had last, which nothing reads. -/
structure SameBook {M M' : Type} [IdMapOps M] [IdMapOps M'] (c : OrderBook M) (d : OrderBook M') :
    Prop where
  tob : d.tob = c.tob
  logger : d.logger = c.logger
  window : d.base = c.base ∧ d.baseSet = c.baseSet
  live : d.liveOrderCount = c.liveOrderCount
  free : d.freeSlots = c.freeSlots
  size : ∀ sd, (d.levels sd).size = (c.levels sd).size
  slots : ∀ sd, ∀ i < (c.levels sd).size, d.slots sd i = c.slots sd i
  order : ∀ sd, ∀ i < (c.levels sd).size, ∀ s ∈ c.slots sd i,
    d.pool.pool.cell s = c.pool.pool.cell s
  level : ∀ sd, ∀ i < (c.levels sd).size, c.slots sd i ≠ [] → d.levelAt sd i = c.levelAt sd i
  bit : ∀ sd p, WordBits.bitAt (d.bitmap sd) p = WordBits.bitAt (c.bitmap sd) p
  ids : ∀ id, d.findId id = c.findId id

end Compare

end OrderBook

end Nanomatch
