import Nanomatch.MmapParser

/-!
# The mock feed

`generate_mock_data.py`, which writes the record file that the engine reads by default. The numbers
that `random` gives are a parameter: each call of `randint` or `choice` takes the next one. Integers
are unbounded until `struct.pack` puts them into their fields.
-/

namespace Nanomatch

/-- A tuple of `records`. -/
structure MockRecord where
  orderId : ℕ
  price : ℕ
  qty : ℕ
  side : ℕ
  type : UInt8

namespace MockRecord

def value (r : MockRecord) : RecordField → ℕ
  | .orderId => r.orderId
  | .price => r.price
  | .qty => r.qty
  | .side => r.side
  | .type => r.type.toNat

/-- `struct.pack(RECORD_FORMAT, *rec)`, which raises an error for a number that its field does not
hold. -/
def pack (r : MockRecord) : Option (List UInt8) :=
  if ∀ f ∈ OrderRecord.layout.fields, r.value f < 256 ^ f.width then
    some (OrderRecord.layout.encode .littleEndian r.value)
  else none

end MockRecord

/-- `random.randint(a, b)`, if `random` gives the number `r`. -/
def randint (r a b : ℕ) : ℕ := a + r % (b - a + 1)

/-- The variables of `generate_million_row_stress_test`. -/
structure MockFeed where
  records : List MockRecord := []
  activeIds : List ℕ := []
  nextId : ℕ := 1
  /-- How many numbers were drawn. -/
  drawn : ℕ := 0

namespace MockFeed

variable (random : ℕ → ℕ) (g : MockFeed)

def append (r : MockRecord) : MockFeed := { g with records := g.records ++ [r] }

/-- A limit order under the next id. -/
def limitOrder (price qty side : ℕ) : MockFeed :=
  { g.append ⟨g.nextId, price, qty, side, 'L'.toUInt8⟩ with
    activeIds := g.activeIds ++ [g.nextId]
    nextId := g.nextId + 1 }

/-- One round of the loop that seeds the book. -/
def seedRound : MockFeed :=
  let draw k := random (g.drawn + k)
  let g := g.limitOrder (randint (draw 0) 90 99) (randint (draw 1) 1 100) 0
  let g := g.limitOrder (randint (draw 2) 101 110) (randint (draw 3) 1 100) 1
  { g with drawn := g.drawn + 4 }

/-- `active_ids[target_idx] = active_ids[-1]; active_ids.pop()` -/
def swapPop (ids : List ℕ) (idx : ℕ) : List ℕ := (ids.set idx (ids.getLastD 0)).dropLast

/-- One round of the second loop, where the choice is of `b'L'`, `b'M'` and `b'C'`. -/
def actionRound : MockFeed :=
  let draw k := random (g.drawn + k)
  let side := draw 1 % 2
  match draw 0 % 3 with
  | 0 =>
    let prices := [randint (draw 2) 1 5, randint (draw 3) 95 105, randint (draw 4) 1000 5000]
    let price := prices.getD (draw 5 % 3) 0
    { g.limitOrder price (randint (draw 6) 1 150) side with drawn := g.drawn + 7 }
  | 1 => { g.append ⟨0, 0, randint (draw 2) 5 50, side, 'M'.toUInt8⟩ with drawn := g.drawn + 3 }
  | _ =>
    if g.activeIds = [] then { g with drawn := g.drawn + 2 } else
      let targetIdx := randint (draw 2) 0 (g.activeIds.length - 1)
      let targetId := g.activeIds.getD targetIdx 0
      { g.append ⟨targetId, 0, 0, side, 'C'.toUInt8⟩ with
        activeIds := swapPop g.activeIds targetIdx
        drawn := g.drawn + 3 }

/-- The feed after `seeds` rounds of the first loop and `actions` rounds of the second. -/
def after (seeds actions : ℕ) : MockFeed :=
  (actionRound random)^[actions] ((seedRound random)^[seeds] {})

def recordsAfter (seeds actions : ℕ) : List MockRecord := (after random seeds actions).records

/-- The records of the file that `generate_million_row_stress_test` writes. -/
def generate : List MockRecord := recordsAfter random 10000 980000

end MockFeed

/-- The bytes of the file, if every record packs. -/
def MockRecord.packAll (records : List MockRecord) : Option (List UInt8) :=
  (records.mapM MockRecord.pack).map List.flatten

end Nanomatch
