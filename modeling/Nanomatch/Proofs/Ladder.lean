import Mathlib.Data.List.Perm.Subperm
import Mathlib.Data.List.Range
import Nanomatch.Ladder

/-!
# Levels and slots of the ladder

The levels a search meets, in order, and where slots may be (`Sep`): a slot is in one queue at
most, the one its order's side and price name, or it is free.
-/

namespace Nanomatch

namespace Ladder

section Levels

variable {a : Ladder} {sd : Side} {start i x : ℕ} {l : List ℕ}

@[simp] theorem mem_outward_buy : i ∈ a.outward .BUY start ↔ i ≤ start := by
  simp only [outward, List.mem_reverse, List.mem_range, Nat.lt_succ_iff]

@[simp] theorem mem_outward_sell : i ∈ a.outward .SELL start ↔ start ≤ i ∧ i < a.band := by
  simp only [outward, List.mem_range'_1]; omega

theorem outward_nodup : ∀ sd, (a.outward sd start).Nodup
  | .BUY => List.nodup_reverse.2 List.nodup_range
  | .SELL => List.nodup_range'

theorem mem_occupied : i ∈ a.occupied sd start ↔ i ∈ a.outward sd start ∧ a.queue sd i ≠ [] := by
  simp [occupied]

theorem occupied_nodup : (a.occupied sd start).Nodup := (outward_nodup sd).filter _

/-- The levels from a later start are the last ones. -/
theorem outward_split : ∀ sd, x ∈ a.outward sd start →
    ∃ pre, a.outward sd start = pre ++ a.outward sd x ∧ x ∉ pre
  | .BUY, h => by
    have hx : x ≤ start := mem_outward_buy.1 h
    refine ⟨(List.range' (x + 1) (start - x)).reverse, ?_, by simp⟩
    have h1 : start + 1 = x + 1 + (start - x) := by omega
    simp only [outward]
    rw [← List.reverse_append, h1, List.range_add, List.range'_eq_map_range]
  | .SELL, h => by
    obtain ⟨hx, hb⟩ := mem_outward_sell.1 h
    refine ⟨List.range' start (x - start), ?_, ?_⟩
    · have h1 : a.band - start = (x - start) + (a.band - x) := by omega
      have h2 : x = start + (x - start) := by omega
      simp only [outward]
      rw [h1, ← List.range'_append_1, ← h2]
    · simp only [List.mem_range'_1]; omega

/-- A search that starts at the first level with orders finds the same levels. -/
theorem occupied_head (h : a.occupied sd start = x :: l) : a.occupied sd x = x :: l := by
  have hx : x ∈ a.occupied sd start := h ▸ List.mem_cons_self
  obtain ⟨pre, hpre, hnot⟩ := outward_split sd (mem_occupied.1 hx).1
  rw [occupied, hpre, List.filter_append] at h
  rcases hf : pre.filter (a.queue sd · ≠ []) with _ | ⟨y, l'⟩
  · rw [hf, List.nil_append] at h
    exact h
  · rw [hf] at h
    have hy : y ∈ pre := List.mem_of_mem_filter (hf ▸ List.mem_cons_self)
    exact absurd ((List.cons.inj h).1 ▸ hy) hnot

/-- The levels with orders after one that lost its last order. -/
theorem occupied_of_emptied {a' : Ladder} (hb : a'.band = a.band)
    (hq : ∀ j, a'.queue sd j = if j = x then [] else a.queue sd j)
    (h : a.occupied sd start = x :: l) : a'.occupied sd start = l := by
  have hd : (x :: l).Nodup := h ▸ occupied_nodup
  have ho : a'.outward sd start = a.outward sd start := by cases sd <;> simp [outward, hb]
  have h1 : a'.occupied sd start = (a.occupied sd start).filter (· ≠ x) := by
    rw [occupied, occupied, ho, List.filter_filter]
    refine List.filter_congr fun j _ => ?_
    by_cases hj : j = x <;> simp [hq, hj]
  rw [h1, h, List.filter_cons_of_neg (by simp)]
  exact List.filter_eq_self.2 fun j hj => by
    simpa using fun hjx : j = x => (List.nodup_cons.1 hd).1 (hjx ▸ hj)

theorem firstOf_mem (h : l ≠ []) : firstOf l ∈ l := by
  rcases l with _ | ⟨y, l⟩
  · exact absurd rfl h
  · simp [firstOf]

end Levels

section Sep

/-- Where slots may be. -/
structure Sep (a : Ladder) : Prop where
  band_pos : 0 < a.band
  band_lt : a.band < 2 ^ 32
  cap_lt : a.cap < 2 ^ 32
  nodup : ∀ sd i, (a.queue sd i).Nodup
  free_nodup : a.free.Nodup
  free_lt : ∀ s ∈ a.free, s < a.cap
  side_eq : ∀ {sd i s}, s ∈ a.queue sd i → (a.info s).side = sd
  price_eq : ∀ {sd i s}, s ∈ a.queue sd i → (a.info s).price = i
  slot_lt : ∀ {sd i s}, s ∈ a.queue sd i → s < a.cap
  level_lt : ∀ {sd i s}, s ∈ a.queue sd i → i < a.band
  no_wrap : ∀ {sd i s}, s ∈ a.queue sd i → a.base + i < 2 ^ 32
  qty_lt : ∀ {sd i s}, s ∈ a.queue sd i → (a.info s).qty < 2 ^ 32
  not_free : ∀ {sd i s}, s ∈ a.queue sd i → s ∉ a.free

variable {a : Ladder} {sd : Side} {i s : ℕ}

/-- Slot `s` is in the queue its order belongs to. -/
def Rests (a : Ladder) (s : ℕ) : Prop := s ∈ a.queue (a.info s).side (a.info s).price

theorem Sep.rests (h : a.Sep) (hs : s ∈ a.queue sd i) : a.Rests s := by
  rw [Rests, h.side_eq hs, h.price_eq hs]
  exact hs

theorem Sep.unique (h : a.Sep) (hs : s ∈ a.queue sd i) {sd' : Side} {j : ℕ}
    (hs' : s ∈ a.queue sd' j) : sd' = sd ∧ j = i :=
  ⟨(h.side_eq hs').symm.trans (h.side_eq hs), (h.price_eq hs').symm.trans (h.price_eq hs)⟩

theorem Sep.queue_eq_nil (h : a.Sep) (hi : a.band ≤ i) : a.queue sd i = [] :=
  List.eq_nil_iff_forall_not_mem.2 fun _ hs => absurd (h.level_lt hs) (by omega)

theorem Sep.lt_band (h : a.Sep) (hi : a.queue sd i ≠ []) : i < a.band := by
  by_contra hb
  exact hi (h.queue_eq_nil (Nat.le_of_not_lt hb))

theorem Sep.level_ne_max (h : a.Sep) (hi : i < a.band) : i ≠ UINT32_MAX := by
  have := h.band_lt
  simp only [UINT32_MAX]
  omega

theorem Sep.length_lt (h : a.Sep) : (a.queue sd i).length < a.cap + 1 := by
  have hsub : a.queue sd i ⊆ List.range a.cap := fun x hx => List.mem_range.2 (h.slot_lt hx)
  have hlen := (List.subperm_of_subset (h.nodup sd i) hsub).length_le
  rw [List.length_range] at hlen
  omega

theorem mem_setQueue {q : List ℕ} {sd' : Side} {j s : ℕ} :
    s ∈ (a.setQueue sd i q).queue sd' j ↔
      if sd' = sd ∧ j = i then s ∈ q else s ∈ a.queue sd' j := by
  simp only [setQueue]; split_ifs <;> rfl

/-- Some orders leave a queue. -/
theorem Sep.setQueue (h : a.Sep) {q : List ℕ} (hq : q.Sublist (a.queue sd i)) :
    (a.setQueue sd i q).Sep := by
  have hmem : ∀ {sd' j s}, s ∈ (a.setQueue sd i q).queue sd' j → s ∈ a.queue sd' j := by
    intro sd' j s hs
    rw [mem_setQueue] at hs
    split_ifs at hs with hc
    · obtain ⟨rfl, rfl⟩ := hc
      exact hq.subset hs
    · exact hs
  exact {
    band_pos := h.band_pos, band_lt := h.band_lt, cap_lt := h.cap_lt
    free_nodup := h.free_nodup, free_lt := h.free_lt
    nodup := fun sd' j => by
      simp only [Ladder.setQueue]
      split_ifs
      · exact (h.nodup sd i).sublist hq
      · exact h.nodup sd' j
    side_eq := fun hs => h.side_eq (hmem hs), price_eq := fun hs => h.price_eq (hmem hs)
    slot_lt := fun hs => h.slot_lt (hmem hs), level_lt := fun hs => h.level_lt (hmem hs)
    no_wrap := fun hs => h.no_wrap (hmem hs), qty_lt := fun hs => h.qty_lt (hmem hs)
    not_free := fun hs => h.not_free (hmem hs) }

theorem mem_unlink (h : a.Sep) (hs : s ∈ a.queue sd i) {sd' : Side} {j x : ℕ} :
    x ∈ (a.unlink sd i s).queue sd' j ↔ x ∈ a.queue sd' j ∧ x ≠ s := by
  rw [unlink, mem_setQueue]
  split_ifs with hc
  · obtain ⟨rfl, rfl⟩ := hc
    rw [(h.nodup _ _).mem_erase_iff, and_comm]
  · refine ⟨fun hx => ⟨hx, ?_⟩, And.left⟩
    rintro rfl
    exact hc (h.unique hs hx)

theorem Sep.unlink (h : a.Sep) : (a.unlink sd i s).Sep := h.setQueue List.erase_sublist

theorem Sep.release (h : a.Sep) (hq : ∀ sd i, s ∉ a.queue sd i) (hf : s ∉ a.free)
    (hs : s < a.cap) : (a.release s).Sep where
  band_pos := h.band_pos
  band_lt := h.band_lt
  cap_lt := h.cap_lt
  nodup := h.nodup
  free_nodup := List.nodup_cons.2 ⟨hf, h.free_nodup⟩
  free_lt := fun x hx => by
    rcases List.mem_cons.1 hx with rfl | hx
    · exact hs
    · exact h.free_lt x hx
  side_eq := h.side_eq
  price_eq := h.price_eq
  slot_lt := h.slot_lt
  level_lt := h.level_lt
  no_wrap := h.no_wrap
  qty_lt := h.qty_lt
  not_free := fun {sd i x} hx hx' => by
    rcases List.mem_cons.1 hx' with rfl | hx'
    · exact hq sd i hx
    · exact h.not_free hx hx'

/-- Everything an order that leaves changes, but for the queues. -/
theorem retire_fields (a : Ladder) (sd : Side) (i s : ℕ) :
    let a' := a.retire sd i s
    a'.band = a.band ∧ a'.cap = a.cap ∧ a'.tob = a.tob ∧ a'.base = a.base ∧ a'.live = a.live ∧
      a'.info = a.info ∧ a'.trades = a.trades ∧ a'.free = s :: a.free ∧
      a'.calls = .erase (a.info s).id :: a.calls :=
  ⟨rfl, rfl, rfl, rfl, rfl, rfl, rfl, rfl, rfl⟩

theorem retire_queue (sd' : Side) (j : ℕ) : (a.retire sd i s).queue sd' j =
    if sd' = sd ∧ j = i then (a.queue sd i).erase s else a.queue sd' j := rfl

theorem mem_retire (h : a.Sep) (hs : s ∈ a.queue sd i) {sd' : Side} {j x : ℕ} :
    x ∈ (a.retire sd i s).queue sd' j ↔ x ∈ a.queue sd' j ∧ x ≠ s := mem_unlink h hs

theorem Sep.eraseId (h : a.Sep) (id : OrderId) : (a.eraseId id).Sep := { h with }

theorem Sep.dropLive (h : a.Sep) : a.dropLive.Sep := { h with }

theorem Sep.trade (h : a.Sep) (t : Trade) : (a.trade t).Sep := { h with }

theorem Sep.setTop (h : a.Sep) (sd : Side) (b : ℕ) : (a.setTop sd b).Sep := { h with }

theorem Sep.retire (h : a.Sep) (hs : s ∈ a.queue sd i) : (a.retire sd i s).Sep :=
  (h.unlink.eraseId _).release (fun _ _ hx => ((mem_unlink h hs).1 hx).2 rfl) (h.not_free hs)
    (h.slot_lt hs)

/-- An order loses quantity, but stays where it belongs. -/
theorem Sep.setInfo (h : a.Sep) {o : Resting} (hside : o.side = (a.info s).side)
    (hprice : o.price = (a.info s).price) (hqty : o.qty ≤ (a.info s).qty) :
    (a.setInfo s o).Sep := by
  have hinfo : ∀ x, ((a.setInfo s o).info x).side = (a.info x).side ∧
      ((a.setInfo s o).info x).price = (a.info x).price ∧
      ((a.setInfo s o).info x).qty ≤ (a.info x).qty := fun x => by
    by_cases hx : x = s
    · subst hx; simp [Ladder.setInfo, hside, hprice, hqty]
    · simp [Ladder.setInfo, hx]
  exact { h with
    side_eq := fun hs => (hinfo _).1.trans (h.side_eq hs)
    price_eq := fun hs => (hinfo _).2.1.trans (h.price_eq hs)
    qty_lt := fun hs => (hinfo _).2.2.trans_lt (h.qty_lt hs) }

theorem Sep.take (h : a.Sep) (s amount : ℕ) : (a.take s amount).Sep :=
  h.setInfo rfl rfl (Nat.sub_le _ _)

end Sep

end Ladder

end Nanomatch
