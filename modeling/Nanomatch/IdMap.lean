import Mathlib.Data.Finset.Card
import Nanomatch.Types

/-!
# The order-id map

`IdMap` is the open-addressing table of `OrderBook.hpp`: linear probing from the hashed slot, a
power-of-two capacity and deletion by backward shift. A probe loop that meets neither its key nor
an empty entry in `cap` steps has been through the whole table and never ends; it fails here.

The book is written over any type with the three operations (`IdMapOps`), so that it can be run
both on this table and on the finite map the table stands for (`FinMap`).
-/

namespace Nanomatch

/-- The operations the book uses on its id map. -/
class IdMapOps (M : Type) where
  insert : M → OrderId → ℕ → Option M
  find : M → OrderId → Option ℕ
  erase : M → OrderId → Option M

/-- A call that changes the id map. -/
inductive IdCall
  | insert (key : OrderId) (val : ℕ)
  | erase (key : OrderId)

def IdCall.key : IdCall → OrderId
  | .insert key _ => key
  | .erase key => key

/-- The value of the last insert of `k` that no later erase of `k` follows, the calls being
listed latest first; the empty mark if there is none. -/
def lastInsert : List IdCall → OrderId → ℕ
  | [], _ => NULL_IDX
  | .insert key val :: calls, k => if key = k then val else lastInsert calls k
  | .erase key :: calls, k => if key = k then NULL_IDX else lastInsert calls k

/-- The keys that are in the map after the calls. -/
def liveKeys (calls : List IdCall) : Finset OrderId :=
  (calls.map IdCall.key).toFinset.filter fun k => lastInsert calls k ≠ NULL_IDX

/-- The finite map from ids to slots that an id map stands for. -/
structure FinMap where
  slot : OrderId → ℕ

namespace FinMap

def init : FinMap := ⟨fun _ => NULL_IDX⟩

instance : IdMapOps FinMap where
  insert m key val := some ⟨fun k => if key = k then val else m.slot k⟩
  find m key := some (m.slot key)
  erase m key := some ⟨fun k => if key = k then NULL_IDX else m.slot k⟩

end FinMap

namespace IdMap

def EMPTY : ℕ := NULL_IDX

structure Entry where
  key : OrderId
  val : ℕ

end IdMap

structure IdMap where
  cap : ℕ
  mask : ℕ
  entries : Cells IdMap.Entry

namespace IdMap

def roundUpPow2 (v : ℕ) : ℕ :=
  if v ≤ 1 then 1 else
    let v := v - 1
    let v := v ||| (v >>> 1)
    let v := v ||| (v >>> 2)
    let v := v ||| (v >>> 4)
    let v := v ||| (v >>> 8)
    let v := v ||| (v >>> 16)
    add32 v 1

def new (cap : ℕ) : IdMap :=
  let cap := roundUpPow2 cap
  { cap, mask := sub32 cap 1, entries := Cells.fill cap ⟨0, EMPTY⟩ }

/-- Murmur finalizer, cut to 32 bits. -/
def hash (key : OrderId) : ℕ :=
  let key := key ^^^ (key >>> 33)
  let key := key * 0xff51afd7ed558ccd
  let key := key ^^^ (key >>> 33)
  key.toNat % 2 ^ 32

/-- `slot = (slot + 1) & mask_` until the slot is empty or holds the key. -/
def probe (t : IdMap) (key : OrderId) : ℕ → ℕ → Option ℕ
  | 0, _ => none
  | fuel + 1, slot => do
    let e ← t.entries.read slot
    if e.val ≠ EMPTY ∧ e.key ≠ key then probe t key fuel (add32 slot 1 &&& t.mask) else some slot

def insert (t : IdMap) (key : OrderId) (val : ℕ) : Option IdMap := do
  let slot ← t.probe key t.cap (hash key &&& t.mask)
  let entries ← t.entries.modify slot fun _ => { key, val }
  some { t with entries }

/-- The loop of `find`. -/
def findFrom (t : IdMap) (key : OrderId) : ℕ → ℕ → Option ℕ
  | 0, _ => none
  | fuel + 1, slot => do
    let e ← t.entries.read slot
    if e.val ≠ EMPTY then
      if e.key = key then some e.val else findFrom t key fuel (add32 slot 1 &&& t.mask)
    else some EMPTY

def find (t : IdMap) (key : OrderId) : Option ℕ := t.findFrom key t.cap (hash key &&& t.mask)

/-- The loop of `erase` that moves entries back into the hole at `cur`. In `cap` rounds of the
table some entry has come back to its home slot, so that many steps end every run of it. -/
def shiftBack : ℕ → IdMap → ℕ → Option IdMap
  | 0, _, _ => none
  | fuel + 1, t, cur => do
    let nxt := add32 cur 1 &&& t.mask
    let e ← t.entries.read nxt
    if e.val = EMPTY then some t else
      let nat := hash e.key &&& t.mask
      if sub32 nxt nat &&& t.mask ≥ sub32 nxt cur &&& t.mask then do
        let entries ← t.entries.modify cur fun _ => e
        let entries ← entries.modify nxt fun e => { e with val := EMPTY }
        shiftBack fuel { t with entries } nxt
      else some t

def erase (t : IdMap) (key : OrderId) : Option IdMap := do
  let slot ← t.probe key t.cap (hash key &&& t.mask)
  let e ← t.entries.read slot
  if e.val = EMPTY then some t else
    let entries ← t.entries.modify slot fun e => { e with val := EMPTY }
    shiftBack (t.cap * t.cap + 1) { t with entries } slot

instance : IdMapOps IdMap where
  insert := IdMap.insert
  find := IdMap.find
  erase := IdMap.erase

end IdMap

/-- One call on an id map. -/
def IdCall.apply {M : Type} [IdMapOps M] (m : M) : IdCall → Option M
  | .insert key val => IdMapOps.insert m key val
  | .erase key => IdMapOps.erase m key

/-- The id map after a list of calls, latest first, from `init`. -/
def runCalls {M : Type} [IdMapOps M] (init : M) : List IdCall → Option M
  | [] => some init
  | c :: calls => do c.apply (← runCalls init calls)

/-- The id map `base` with the calls made on it since, latest first, which are only written down. -/
structure CallLog (M : Type) where
  base : M
  calls : List IdCall := []

instance {M : Type} [IdMapOps M] : IdMapOps (CallLog M) where
  insert log key val := some { log with calls := .insert key val :: log.calls }
  find log key :=
    if key ∈ log.calls.map IdCall.key then some (lastInsert log.calls key)
    else IdMapOps.find log.base key
  erase log key := some { log with calls := .erase key :: log.calls }

end Nanomatch
