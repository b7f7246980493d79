import Mathlib.Data.Fintype.Card
import Nanomatch.IdMap
import Nanomatch.Lib.LinearProbing

/-!
# When the id map is a finite map

The table of `IdMap` is a linear-probing table whose key homes are the hashes, cut by the mask
(`IdMap.table`). `insert` keeps every search good. `erase` shifts back the displaced entries after
the erased one and stops at the first entry that sits in its home slot, although entries after
that one may belong before the hole: those are lost. It loses none exactly when `EraseSafe` holds,
so a run of calls is a finite map's at every point exactly when all its erases are safe.
-/

namespace Nanomatch

namespace IdMap

open LinearProbing

/-- The table has `n` slots, a power of two, and the mask that goes with it. -/
structure Shape (n : ℕ) (t : IdMap) : Prop where
  cap : t.cap = n
  mask : t.mask = n - 1
  size : t.entries.size = n
  pow : ∃ e ≤ 31, n = 2 ^ e

theorem Shape.pos {n : ℕ} {t : IdMap} (h : t.Shape n) : 0 < n := by
  obtain ⟨e, -, rfl⟩ := h.pow
  exact Nat.two_pow_pos e

/-- The entries that are not marked empty. -/
def tableOf (n : ℕ) (entries : Cells Entry) : Table n OrderId ℕ := fun z =>
  if (entries.cell z.val).val = EMPTY then none
  else some ((entries.cell z.val).key, (entries.cell z.val).val)

def table (n : ℕ) (t : IdMap) : Table n OrderId ℕ := tableOf n t.entries

def home (n : ℕ) (key : OrderId) : ZMod n := (hash key : ZMod n)

section Mask

variable {n : ℕ} {t : IdMap} (h : t.Shape n)
include h

theorem Shape.and_mask (a : ℕ) : a % 2 ^ 32 &&& t.mask = (a : ZMod n).val := by
  obtain ⟨e, he, hn⟩ := h.pow
  have : NeZero n := ⟨h.pos.ne'⟩
  rw [h.mask, ZMod.val_natCast, hn, Nat.and_two_pow_sub_one_eq_mod,
    Nat.mod_mod_of_dvd _ (Nat.pow_dvd_pow 2 (by omega))]

theorem Shape.next (z : ZMod n) : add32 z.val 1 &&& t.mask = (z + 1).val := by
  have : NeZero n := ⟨h.pos.ne'⟩
  rw [add32, h.and_mask, Nat.cast_add, ZMod.natCast_zmod_val, Nat.cast_one]

theorem Shape.start (key : OrderId) : hash key &&& t.mask = (home n key).val := by
  have hlt : hash key % 2 ^ 32 = hash key := Nat.mod_eq_of_lt (Nat.mod_lt _ (Nat.two_pow_pos 32))
  rw [← hlt, h.and_mask, home]

theorem Shape.sub (a b : ZMod n) : sub32 a.val b.val &&& t.mask = dist b a := by
  have : NeZero n := ⟨h.pos.ne'⟩
  obtain ⟨e, he, hn⟩ := h.pow
  have h32 : ((2 ^ 32 : ℕ) : ZMod n) = 0 := by
    rw [ZMod.natCast_eq_zero_iff, hn]
    exact Nat.pow_dvd_pow 2 (by omega)
  have hlt : b.val < 2 ^ 32 := by
    have h1 := ZMod.val_lt b
    have h2 : n ≤ 2 ^ 32 := hn ▸ Nat.pow_le_pow_right (by decide) (by omega)
    omega
  rw [sub32, h.and_mask, Nat.cast_sub (by omega), Nat.cast_add, h32, add_zero,
    ZMod.natCast_zmod_val, ZMod.natCast_zmod_val, LinearProbing.dist]

theorem Shape.read (z : ZMod n) : t.entries.read z.val = some (t.entries.cell z.val) := by
  have : NeZero n := ⟨h.pos.ne'⟩
  exact Cells.read_of_lt (by rw [h.size]; exact ZMod.val_lt z)

theorem Shape.modify (z : ZMod n) (f : Entry → Entry) :
    t.entries.modify z.val f = some (t.entries.put z.val (f (t.entries.cell z.val))) := by
  have : NeZero n := ⟨h.pos.ne'⟩
  exact Cells.modify_of_lt (by rw [h.size]; exact ZMod.val_lt z) f

theorem Shape.put (slot : ℕ) (e : Entry) :
    ({ t with entries := t.entries.put slot e } : IdMap).Shape n :=
  ⟨h.cap, h.mask, h.size, h.pow⟩

end Mask

section Loops

variable {n : ℕ} {t : IdMap}

theorem stops_iff {key : OrderId} {z : ZMod n} :
    Stops (t.table n) key z ↔
      ¬ ((t.entries.cell z.val).val ≠ EMPTY ∧ (t.entries.cell z.val).key ≠ key) := by
  simp only [Stops, table, tableOf]
  by_cases he : (t.entries.cell z.val).val = EMPTY <;> simp [he]

theorem tableOf_put [NeZero n] (entries : Cells Entry) (z : ZMod n) (e : Entry) :
    tableOf n (entries.put z.val e)
      = Function.update (tableOf n entries) z
          (if e.val = EMPTY then none else some (e.key, e.val)) := by
  funext y
  by_cases hy : y = z
  · subst hy
    simp [tableOf]
  · have : y.val ≠ z.val := fun hv => hy (ZMod.val_injective n hv)
    simp [tableOf, this, hy]

/-- The probe loop ends where the search does. -/
theorem probe_spec (h : t.Shape n) {key : OrderId} {j : ℕ}
    (hj : FirstStop (home n) (t.table n) key j) :
    ∀ (fuel i : ℕ), i ≤ j → j < i + fuel →
      t.probe key fuel (home n key + (i : ZMod n)).val = some (home n key + (j : ZMod n)).val
  | 0, i, hi, hf => by omega
  | fuel + 1, i, hi, hf => by
    simp only [probe, h.read, Option.bind_eq_bind, Option.bind_some]
    rcases Nat.lt_or_ge i j with hlt | hge
    · rw [if_pos (not_not.1 (stops_iff.not.1 (hj.2 i hlt))), h.next, add_assoc, ← Nat.cast_succ]
      exact probe_spec h hj fuel (i + 1) hlt (by omega)
    · have hij : i = j := by omega
      subst hij
      rw [if_neg (stops_iff.1 hj.1)]

theorem findFrom_spec (h : t.Shape n) {key : OrderId} {j : ℕ}
    (hj : FirstStop (home n) (t.table n) key j) :
    ∀ (fuel i : ℕ), i ≤ j → j < i + fuel →
      t.findFrom key fuel (home n key + (i : ZMod n)).val
        = some (t.entries.cell (home n key + (j : ZMod n)).val).val
  | 0, i, hi, hf => by omega
  | fuel + 1, i, hi, hf => by
    simp only [findFrom, h.read, Option.bind_eq_bind, Option.bind_some]
    rcases Nat.lt_or_ge i j with hlt | hge
    · obtain ⟨hne, hkey⟩ := not_not.1 (stops_iff.not.1 (hj.2 i hlt))
      rw [if_pos hne, if_neg hkey, h.next, add_assoc, ← Nat.cast_succ]
      exact findFrom_spec h hj fuel (i + 1) hlt (by omega)
    · have hij : i = j := by omega
      subst hij
      by_cases hne : (t.entries.cell (home n key + (i : ZMod n)).val).val = EMPTY
      · simp [hne]
      · have hkey := stops_iff.1 hj.1
        simp only [ne_eq, hne, not_false_eq_true, true_and, not_not] at hkey
        simp [hne, hkey]

theorem probe_start (h : t.Shape n) {key : OrderId} {j : ℕ} (hjn : j < n)
    (hj : FirstStop (home n) (t.table n) key j) :
    t.probe key t.cap (hash key &&& t.mask) = some (home n key + (j : ZMod n)).val := by
  have := probe_spec h hj t.cap 0 (by omega) (by rw [h.cap]; omega)
  rwa [Nat.cast_zero, add_zero, ← h.start] at this

theorem find_spec (h : t.Shape n) {key : OrderId} {j : ℕ} (hjn : j < n)
    (hj : FirstStop (home n) (t.table n) key j) :
    t.find key = some (t.entries.cell (home n key + (j : ZMod n)).val).val := by
  have := findFrom_spec h hj t.cap 0 (by omega) (by rw [h.cap]; omega)
  rwa [Nat.cast_zero, add_zero, ← h.start] at this

theorem insert_spec (h : t.Shape n) {key : OrderId} {j : ℕ} (hjn : j < n)
    (hj : FirstStop (home n) (t.table n) key j) {val : ℕ} (hv : val ≠ EMPTY) :
    ∃ t', t.insert key val = some t' ∧ t'.Shape n
      ∧ t'.table n = insertAt (t.table n) (home n key + (j : ZMod n)) key val := by
  have : NeZero n := ⟨h.pos.ne'⟩
  refine ⟨_, ?_, h.put (home n key + (j : ZMod n)).val ⟨key, val⟩, ?_⟩
  · simp only [insert, probe_start h hjn hj, h.modify, Option.bind_eq_bind, Option.bind_some]
  · rw [table, tableOf_put, if_neg hv, insertAt, table]

/-- The shift loop moves the run's entries one by one. -/
theorem shiftBack_spec [NeZero n] {T : Table n OrderId ℕ} {cur : ZMod n} {m : ℕ}
    (hrun : ShiftRun (home n) T cur m) (hm : m + 1 < n) :
    ∀ (fuel i : ℕ) (t : IdMap), t.Shape n → t.table n = shifted T cur i → i ≤ m → m < i + fuel →
      ∃ t', shiftBack fuel t (cur + (i : ZMod n)).val = some t' ∧ t'.Shape n
        ∧ t'.table n = shifted T cur m
  | 0, i, t, _, _, _, _ => by omega
  | fuel + 1, i, t, h, hT, hi, hf => by
    set nxt := cur + ((i + 1 : ℕ) : ZMod n) with hnxt
    have hnext : add32 (cur + (i : ZMod n)).val 1 &&& t.mask = nxt.val := by
      rw [h.next, hnxt, Nat.cast_succ, add_assoc]
    have hdn : dist cur nxt = i + 1 := dist_add_of_lt _ (by omega)
    have hdc : dist cur (cur + (i : ZMod n)) = i := dist_add_of_lt _ (by omega)
    have hTn : t.table n nxt = T nxt := by rw [hT, shifted_of_gt (by omega)]
    have hone : dist (cur + (i : ZMod n)) nxt = 1 := by
      rw [dist_of_le (a := cur) (by omega)]
      omega
    simp only [shiftBack, hnext, h.read, Option.bind_eq_bind, Option.bind_some, h.start, h.sub,
      hone]
    by_cases hemp : (t.entries.cell nxt.val).val = EMPTY
    · -- the run ends at an empty slot
      rw [if_pos hemp]
      have hnone : T nxt = none := by rw [← hTn, table, tableOf, if_pos hemp]
      have him : i = m := by
        by_contra hne
        obtain ⟨k, v, hk, -⟩ := hrun.displaced i (by omega)
        rw [← hnxt, hnone] at hk
        simp at hk
      subst him
      exact ⟨t, rfl, h, hT⟩
    rw [if_neg hemp]
    have hsome : T nxt = some ((t.entries.cell nxt.val).key, (t.entries.cell nxt.val).val) := by
      rw [← hTn, table, tableOf, if_neg hemp]
    have hdisp : Displaced (home n) T nxt ↔ home n (t.entries.cell nxt.val).key ≠ nxt := by
      constructor
      · rintro ⟨k, v, hk, hne⟩
        rw [hsome, Option.some.injEq, Prod.mk.injEq] at hk
        rwa [hk.1]
      · exact fun hne => ⟨_, _, hsome, hne⟩
    by_cases hhome : home n (t.entries.cell nxt.val).key = nxt
    · -- the run ends at an entry in its home slot
      have him : i = m := by
        by_contra hne
        exact hdisp.1 (hrun.displaced i (by omega)) hhome
      subst him
      rw [hhome, dist_self, if_neg (by omega)]
      exact ⟨t, rfl, h, hT⟩
    · have him : i < m := by
        by_contra hge
        have : i = m := by omega
        subst this
        exact hrun.stop (hdisp.2 hhome)
      have hpos : dist (home n (t.entries.cell nxt.val).key) nxt ≥ 1 :=
        Nat.one_le_iff_ne_zero.2 fun h0 => hhome (dist_eq_zero.1 h0)
      rw [if_pos hpos, h.modify]
      simp only [Option.bind_some]
      have h' := h.put (cur + (i : ZMod n)).val (t.entries.cell nxt.val)
      rw [h'.modify]
      simp only [Option.bind_some]
      refine shiftBack_spec hrun hm fuel (i + 1) _ (h'.put _ _) ?_ (by omega) (by omega)
      rw [table, tableOf_put, tableOf_put, if_neg hemp, ← hsome, if_pos rfl, ← table, hT]
      funext z
      rcases lt_trichotomy (dist cur z) i with hz | hz | hz
      · have h1 : z ≠ nxt := by rintro rfl; omega
        have h2 : z ≠ cur + (i : ZMod n) := by rintro rfl; omega
        rw [Function.update_of_ne h1, Function.update_of_ne h2, shifted_of_lt hz,
          shifted_of_lt (by omega)]
      · have h1 : z ≠ nxt := by rintro rfl; omega
        have h2 : z = cur + (i : ZMod n) := eq_of_dist_eq (hz.trans hdc.symm)
        rw [Function.update_of_ne h1, h2, Function.update_self, shifted_of_lt (by omega), hnxt,
          Nat.cast_succ, add_assoc]
      · by_cases h1 : z = nxt
        · rw [h1, Function.update_self, shifted_hole hdn]
        · have h2 : z ≠ cur + (i : ZMod n) := by rintro rfl; omega
          have h3 : dist cur z ≠ i + 1 := fun h3 => h1 (eq_of_dist_eq (h3.trans hdn.symm))
          rw [Function.update_of_ne h1, Function.update_of_ne h2, shifted_of_gt hz,
            shifted_of_gt (by omega)]

end Loops

section Erase

variable {n : ℕ} {t : IdMap}

theorem erase_absent (h : t.Shape n) {key : OrderId} {j : ℕ} (hjn : j < n)
    (hj : FirstStop (home n) (t.table n) key j)
    (hnone : t.table n (home n key + (j : ZMod n)) = none) : t.erase key = some t := by
  have hemp : (t.entries.cell (home n key + (j : ZMod n)).val).val = EMPTY := by
    by_contra hne
    rw [table, tableOf, if_neg hne] at hnone
    simp at hnone
  simp only [erase, probe_start h hjn hj, h.read, Option.bind_eq_bind, Option.bind_some, hemp,
    if_true]

theorem erase_present [NeZero n] (h : t.Shape n) (hT : (t.table n).Reach (home n))
    {e cur : ZMod n} (he : t.table n e = none) {key : OrderId} {val m : ℕ}
    (hcur : t.table n cur = some (key, val)) (hrun : ShiftRun (home n) (t.table n) cur m) :
    ∃ t', t.erase key = some t' ∧ t'.Shape n ∧ t'.table n = shifted (t.table n) cur m := by
  obtain ⟨j, hjn, hj⟩ : ∃ j < n, FirstStop (home n) (t.table n) key j := exists_firstStop he key
  have hjc := hj.holds hT hcur
  have hne : (t.entries.cell cur.val).val ≠ EMPTY := by
    intro hemp
    rw [table, tableOf, if_pos hemp] at hcur
    simp at hcur
  have hm : m + 1 < n := by
    have h1 := hrun.lt_dist hcur he
    have h2 := dist_lt cur e
    omega
  have hbig : m < 0 + (t.cap * t.cap + 1) := by
    rw [h.cap]
    have := Nat.le_mul_self n
    omega
  have h0 : tableOf n (t.entries.put cur.val { t.entries.cell cur.val with val := EMPTY })
      = shifted (t.table n) cur 0 := by
    funext z
    rw [tableOf_put, if_pos rfl]
    by_cases hz : z = cur
    · rw [hz, Function.update_self, shifted_hole (dist_self cur)]
    · have hpos : 0 < dist cur z := Nat.pos_of_ne_zero fun h0 => hz (dist_eq_zero.1 h0).symm
      rw [Function.update_of_ne hz, shifted_of_gt hpos, table]
  obtain ⟨t', ht', hs', hT'⟩ := shiftBack_spec hrun hm (t.cap * t.cap + 1) 0 _
    (h.put cur.val { t.entries.cell cur.val with val := EMPTY }) h0 (Nat.zero_le m) hbig
  rw [Nat.cast_zero, add_zero] at ht'
  refine ⟨t', ?_, hs', hT'⟩
  simp only [erase, probe_start h hjn hj, hjc, h.read, h.modify, Option.bind_eq_bind,
    Option.bind_some, if_neg hne, ht']

end Erase

section Safe

/-- The slot `d` places after `slot`. -/
def slotAfter (t : IdMap) (slot d : ℕ) : ℕ := add32 slot d &&& t.mask

def Occupied (t : IdMap) (slot : ℕ) : Prop := (t.entries.cell slot).val ≠ EMPTY

/-- How far the entry at `slot` sits from its home slot. -/
def displacement (t : IdMap) (slot : ℕ) : ℕ :=
  sub32 slot (hash (t.entries.cell slot).key &&& t.mask) &&& t.mask

/-- Erasing `key` loses no other entry. After the slot of `key` come `m` entries away from their
home slots and then one in its home slot, where the shift stops; every entry of the cluster from
there on has its home there or after. -/
def EraseSafe (t : IdMap) (key : OrderId) : Prop :=
  ∀ slot < t.cap, t.Occupied slot → (t.entries.cell slot).key = key →
    ∀ m < t.cap,
      (∀ j < m, t.Occupied (t.slotAfter slot (j + 1))
        ∧ t.displacement (t.slotAfter slot (j + 1)) ≠ 0) →
      t.displacement (t.slotAfter slot (m + 1)) = 0 →
      ∀ d < t.cap, (∀ i ≤ d, t.Occupied (t.slotAfter slot (m + 1 + i))) →
        t.displacement (t.slotAfter slot (m + 1 + d)) ≤ d

instance (t : IdMap) : DecidablePred t.Occupied := fun _ => inferInstanceAs (Decidable (_ ≠ _))

instance (t : IdMap) (key : OrderId) : Decidable (t.EraseSafe key) :=
  have : ∀ slot m, Decidable ((∀ j < m, t.Occupied (t.slotAfter slot (j + 1))
      ∧ t.displacement (t.slotAfter slot (j + 1)) ≠ 0) →
    t.displacement (t.slotAfter slot (m + 1)) = 0 →
    ∀ d < t.cap, (∀ i ≤ d, t.Occupied (t.slotAfter slot (m + 1 + i))) →
      t.displacement (t.slotAfter slot (m + 1 + d)) ≤ d) := fun _ _ => inferInstance
  inferInstanceAs (Decidable (∀ slot < t.cap, _))

variable {n : ℕ} {t : IdMap}

theorem Shape.slotAfter_eq (h : t.Shape n) (z : ZMod n) (d : ℕ) :
    t.slotAfter z.val d = (z + (d : ZMod n)).val := by
  have : NeZero n := ⟨h.pos.ne'⟩
  rw [slotAfter, add32, h.and_mask, Nat.cast_add, ZMod.natCast_zmod_val]

theorem Shape.displacement_eq (h : t.Shape n) (z : ZMod n) :
    t.displacement z.val = dist (home n (t.entries.cell z.val).key) z := by
  rw [displacement, h.start, h.sub]

theorem occupied_iff {z : ZMod n} : t.Occupied z.val ↔ t.table n z ≠ none := by
  rw [Occupied, table, tableOf]
  split_ifs with h <;> simp [h]

theorem table_eq_some {z : ZMod n} {key : OrderId} {val : ℕ} :
    t.table n z = some (key, val) ↔ t.Occupied z.val ∧ (t.entries.cell z.val).key = key
      ∧ (t.entries.cell z.val).val = val := by
  rw [Occupied, table, tableOf]
  split_ifs with h <;> simp [h]

theorem displaced_iff (h : t.Shape n) {z : ZMod n} :
    Displaced (home n) (t.table n) z ↔ t.Occupied z.val ∧ t.displacement z.val ≠ 0 := by
  rw [h.displacement_eq, Ne, dist_eq_zero]
  constructor
  · rintro ⟨k, v, hz, hne⟩
    obtain ⟨hocc, rfl, -⟩ := table_eq_some.1 hz
    exact ⟨hocc, hne⟩
  · rintro ⟨hocc, hne⟩
    exact ⟨_, _, table_eq_some.2 ⟨hocc, rfl, rfl⟩, hne⟩

/-- The entries reached across the last slot of the run are those whose displacement exceeds
their distance from the entry after the run. -/
theorem eraseSafe_iff [NeZero n] (h : t.Shape n) (hT : (t.table n).Reach (home n))
    {e cur : ZMod n} (he : t.table n e = none) {key : OrderId} {val m : ℕ}
    (hcur : t.table n cur = some (key, val)) (hrun : ShiftRun (home n) (t.table n) cur m) :
    t.EraseSafe key ↔ NoneCrosses (home n) (t.table n) cur m := by
  have hme := hrun.lt_dist hcur he
  have hen := dist_lt cur e
  have hcm : dist cur (cur + (m : ZMod n)) = m := dist_add_of_lt _ hrun.lt
  have hone : ∀ d, m + 1 + d < n →
      dist (cur + (m : ZMod n)) (cur + ((m + 1 + d : ℕ) : ZMod n)) = d + 1 := by
    intro d hd
    have hcd : dist cur (cur + ((m + 1 + d : ℕ) : ZMod n)) = m + 1 + d := dist_add_of_lt _ hd
    rw [dist_of_le (a := cur) (by omega), hcd, hcm]
    omega
  constructor
  · intro hsafe z k v hz hgt
    by_contra hcross
    rw [not_lt] at hcross
    have hzn := dist_lt cur z
    set d := dist cur z - (m + 1) with hd
    have hzd : cur + ((m + 1 + d : ℕ) : ZMod n) = z := by
      rw [show m + 1 + d = dist cur z by omega, add_dist]
    have hmz := hone d (by omega)
    rw [hzd] at hmz
    -- the way from home to `z` covers every slot from the end of the run on
    have hocc : ∀ i ≤ d, t.table n (cur + ((m + 1 + i : ℕ) : ZMod n)) ≠ none := by
      intro i hi
      by_cases hid : i = d
      · rw [hid, hzd, hz]
        simp
      · have hpath := hT.path hz (dist (home n k) z - (d - i)) (by omega)
        have heq : home n k + ((dist (home n k) z - (d - i) : ℕ) : ZMod n)
            = cur + ((m + 1 + i : ℕ) : ZMod n) := by
          have h1 := add_dist (home n k) z
          rw [Nat.cast_sub (by omega), ← add_sub_assoc, h1, sub_eq_iff_eq_add, add_assoc,
            ← Nat.cast_add, show m + 1 + i + (d - i) = m + 1 + d by omega, hzd]
        rwa [heq] at hpath
    obtain ⟨hco, hck, -⟩ := table_eq_some.1 hcur
    have hslot : ∀ i, t.slotAfter cur.val i = (cur + (i : ZMod n)).val := h.slotAfter_eq cur
    have hle := hsafe cur.val (by rw [h.cap]; exact ZMod.val_lt cur) hco hck m
      (by rw [h.cap]; exact hrun.lt)
      (fun j hj => by
        rw [hslot]
        exact (displaced_iff h).1 (hrun.displaced j hj))
      (by
        by_contra hne
        rw [hslot] at hne
        refine hrun.stop ((displaced_iff h).2 ⟨occupied_iff.2 ?_, hne⟩)
        exact hocc 0 (Nat.zero_le d))
      d (by rw [h.cap]; omega)
      (fun i hi => by
        rw [hslot]
        exact occupied_iff.2 (hocc i hi))
    obtain ⟨-, hzk, -⟩ := table_eq_some.1 hz
    rw [hslot, hzd, h.displacement_eq, hzk] at hle
    omega
  · intro hnone slot hslot hocc hkey m' hm' hdisp hzero d hd hcl
    rw [h.cap] at hslot
    have hcv : (slot : ZMod n).val = slot := ZMod.val_natCast_of_lt hslot
    rw [← hcv] at hocc hkey
    have hcur' : (slot : ZMod n) = cur :=
      hT.unique (table_eq_some.2 ⟨hocc, hkey, rfl⟩) hcur
    have hs : ∀ i, t.slotAfter slot i = (cur + (i : ZMod n)).val := by
      intro i
      rw [← hcv, hcur', h.slotAfter_eq]
    simp only [hs] at hdisp hzero hcl ⊢
    -- the run is where the condition says it is
    have hmm : m' = m := by
      rcases lt_trichotomy m' m with hlt | heq | hgt
      · exact absurd hzero ((displaced_iff h).1 (hrun.displaced m' hlt)).2
      · exact heq
      · exact absurd ((displaced_iff h).2 (hdisp m hgt)) hrun.stop
    subst hmm
    have hde : m' + 1 + d < dist cur e := by
      by_contra hge
      have hoc := occupied_iff.1 (hcl (dist cur e - (m' + 1)) (by omega))
      rw [show m' + 1 + (dist cur e - (m' + 1)) = dist cur e by omega, add_dist] at hoc
      exact hoc he
    have hz := hcl d le_rfl
    have hcd : dist cur (cur + ((m' + 1 + d : ℕ) : ZMod n)) = m' + 1 + d :=
      dist_add_of_lt _ (by omega)
    have hlt := hnone _ _ _ (table_eq_some.2 ⟨hz, rfl, rfl⟩) (by omega)
    rw [hone d (by omega)] at hlt
    rw [h.displacement_eq]
    omega

end Safe

end IdMap

end Nanomatch
