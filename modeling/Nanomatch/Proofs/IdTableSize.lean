import Nanomatch.Proofs.IdTableRuns

/-!
# The size of the id map

The constructor doubles `max_orders` and rounds it up, twice, in 32 bits. The largest power of two in
32 bits is `2 ^ 31`, so the table fits the pool up to `2 ^ 30` slots and for no larger number.
-/

namespace Nanomatch

open OrderBook

namespace IdMap

variable {t : IdMap} {slots e : ℕ}

/-- A table that has more entries than are occupied has an empty one. -/
theorem exists_empty {n : ℕ} (h : ((Finset.range n).filter t.Occupied).card < n) :
    ∃ z < n, ¬ t.Occupied z := by
  by_contra hall
  push Not at hall
  have hfull : (Finset.range n).filter t.Occupied = Finset.range n :=
    Finset.filter_true_of_mem fun z hz => hall z (Finset.mem_range.1 hz)
  rw [hfull, Finset.card_range] at h
  exact Nat.lt_irrefl n h

/-- The entry `z` is met on the way from `slot` through the whole table. -/
theorem slotAfter_reaches {slot z : ℕ} (he : e ≤ 31) (hmask : t.mask = 2 ^ e - 1)
    (hslot : slot < 2 ^ e) (hz : z < 2 ^ e) : ∃ d < 2 ^ e, t.slotAfter slot d = z := by
  have hle : 2 ^ e ≤ 2 ^ 31 := Nat.pow_le_pow_right (by decide) he
  have hat : ∀ d < 2 ^ e, t.slotAfter slot d = (slot + d) % 2 ^ e := by
    intro d hd
    unfold slotAfter add32
    rw [hmask, Nat.and_two_pow_sub_one_eq_mod, Nat.mod_eq_of_lt (by omega : slot + d < 2 ^ 32)]
  rcases Nat.lt_or_ge z slot with hlt | hge
  · refine ⟨z + 2 ^ e - slot, by omega, ?_⟩
    rw [hat _ (by omega), show slot + (z + 2 ^ e - slot) = z + 2 ^ e by omega, Nat.add_mod_right,
      Nat.mod_eq_of_lt hz]
  · refine ⟨z - slot, by omega, ?_⟩
    rw [hat _ (by omega), show slot + (z - slot) = z by omega, Nat.mod_eq_of_lt hz]

theorem sizedFor_of_cap (hcap : t.cap = 2 ^ e) (he : e ≤ 31) (hmask : t.mask = t.cap - 1)
    (hslots : 2 * slots ≤ t.cap) : t.SizedFor slots where
  pow := ⟨e, hcap⟩
  mask := hmask
  cap := hslots
  meets t' hcap' hmask' hcard slot hslot := by
    have hpos : 0 < t.cap := hcap ▸ Nat.two_pow_pos e
    obtain ⟨z, hz, hempty⟩ := exists_empty (t := t') (n := t.cap) (by omega)
    rw [hcap] at hmask hslot hz
    obtain ⟨d, hd, hdz⟩ := slotAfter_reaches he (hmask'.trans hmask) hslot hz
    exact ⟨d, hcap ▸ hd, hdz ▸ hempty⟩

theorem roundUpPow2_lt (v : ℕ) : roundUpPow2 v < 2 ^ 32 := by
  unfold roundUpPow2
  split_ifs
  · decide
  · exact Nat.mod_lt _ (by decide)

end IdMap

/-- The table that the constructor makes fits its pool up to `2 ^ 30` orders, and for no larger
number of them. -/
theorem create_sizedFor (band maxOrders : ℕ) (h1 : 1 ≤ maxOrders) (h32 : maxOrders < 2 ^ 32) :
    (create band maxOrders).idMap.SizedFor (create band maxOrders).pool.capacity ↔
      maxOrders ≤ 2 ^ 30 := by
  have hslots : (create band maxOrders).pool.capacity = maxOrders := Nat.mod_eq_of_lt h32
  rw [hslots]
  constructor
  · intro h
    -- a power of two in 32 bits is at most `2 ^ 31`
    obtain ⟨e, he⟩ := h.pow
    have hlt : (create band maxOrders).idMap.cap < 2 ^ 32 := IdMap.roundUpPow2_lt _
    rw [he] at hlt
    have he31 : e < 32 := (Nat.pow_lt_pow_iff_right (by decide)).1 hlt
    have hle : 2 ^ e ≤ 2 ^ 31 := Nat.pow_le_pow_right (by decide) (by omega)
    have hcap := h.cap
    omega
  · intro h30
    obtain ⟨e, he, hsize, hle⟩ := roundUpPow2_double h1 h30
    have hcap : (create band maxOrders).idMap.cap = 2 ^ e := by
      rw [create, hsize]
      exact IdMap.roundUpPow2_two_pow he
    have hpos := Nat.two_pow_pos e
    have hpow : 2 ^ e ≤ 2 ^ 31 := Nat.pow_le_pow_right (by decide) he
    have hmask : (create band maxOrders).idMap.mask = sub32 (create band maxOrders).idMap.cap 1 := rfl
    refine IdMap.sizedFor_of_cap hcap he ?_ (hcap ▸ hle)
    rw [hmask, hcap, sub32]
    omega

theorem create_sizedFor_maxOrders : (create 16384 65536).idMap.SizedFor
    (create 16384 65536).pool.capacity :=
  (create_sizedFor 16384 65536 (by decide) (by decide)).2 (by decide)

/-- One order more than `2 ^ 30`, and the table has one entry. -/
theorem not_forall_create_sizedFor : ¬ ∀ band maxOrders, 1 ≤ maxOrders → maxOrders < 2 ^ 32 →
    (create band maxOrders).idMap.SizedFor (create band maxOrders).pool.capacity := by
  intro h
  have hcap := (h 16384 (2 ^ 30 + 1) (by decide) (by decide)).cap
  have hone : (create 16384 (2 ^ 30 + 1)).idMap.cap = 1 := by decide +kernel
  have hslots : (create 16384 (2 ^ 30 + 1)).pool.capacity = 2 ^ 30 + 1 := by decide +kernel
  omega

end Nanomatch
