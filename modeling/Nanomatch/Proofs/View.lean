import Nanomatch.Proofs.Runs

/-!
# What a book that represents a ladder shows

The slots met by walking the links of a book are the ladder's queues and its free stack, so what
holds of the ladder can be said of the book alone. The representation invariant follows.
-/

namespace Nanomatch

open LinkedList WordBits OrderBook Ladder

variable {M : Type} [IdMapOps M] {L : IdMapLaws M} {c : OrderBook M} {a : Ladder} {sd : Side}
  {i s : ℕ}

section Slots

theorem Ladder.Sep.null_not_mem (h : a.Sep) : NULL_IDX ∉ a.queue sd i :=
  fun hs => h.ne_null (h.slot_lt hs) rfl

theorem Ladder.Sep.free_length_le (h : a.Sep) : a.free.length ≤ a.cap := by
  have hsub : a.free ⊆ List.range a.cap := fun x hx => List.mem_range.2 (h.free_lt x hx)
  have hlen := (List.subperm_of_subset h.free_nodup hsub).length_le
  rwa [List.length_range] at hlen

theorem Rep.slots_eq (h : Rep L c a) (hs : a.Sep) (sd : Side) (hi : i < a.band) :
    c.slots sd i = a.queue sd i := by
  have hlen : (a.queue sd i).length < a.cap + 1 := hs.length_lt
  have hcap : c.pool.capacity = a.cap := h.pool
  exact (h.level sd i hi).links.seg.chain.follow_eq hs.null_not_mem (by omega)

theorem Rep.freeSlots_eq (h : Rep L c a) (hs : a.Sep) : c.freeSlots = a.free := by
  have hnull : NULL_IDX ∉ a.free := fun hf => hs.ne_null (hs.free_lt _ hf) rfl
  have hcap : c.pool.capacity = a.cap := h.pool
  exact h.chain.follow_eq hnull (hcap ▸ hs.free_length_le)

/-- The orders in the slots of a level, as the ladder has them. -/
theorem Rep.orders_map (h : Rep L c a) (hs : a.Sep) (sd : Side) (hi : i < a.band) :
    (c.orders sd i).map Order.resting = (a.queue sd i).map a.info := by
  rw [orders, h.slots_eq hs sd hi, List.map_map]
  exact List.map_congr_left fun s hsq => h.data sd i s hsq

/-- An order of a level is the one in some slot of its queue. -/
theorem Rep.mem_orders (h : Rep L c a) (hs : a.Sep) (hi : i < a.band) {o : Order}
    (ho : o ∈ c.orders sd i) : ∃ s ∈ a.queue sd i, o.resting = a.info s := by
  have hmem := List.mem_map_of_mem (f := Order.resting) ho
  rw [h.orders_map hs sd hi] at hmem
  obtain ⟨s, hsq, he⟩ := List.mem_map.1 hmem
  exact ⟨s, hsq, he.symm⟩

theorem Rep.sum_orders (h : Rep L c a) (hs : a.Sep) (sd : Side) (hi : i < a.band) :
    ((c.orders sd i).map Order.qty).sum = ((a.queue sd i).map fun s => (a.info s).qty).sum := by
  have he := congrArg (fun l => (l.map Resting.qty).sum) (h.orders_map hs sd hi)
  simpa [List.map_map, Function.comp_def, Order.resting] using he

end Slots

section Invariant

/-- The lists of the pool that hold a slot. -/
theorem Rep.mem_slotsOf (h : Rep L c a) (hs : a.Sep) {l : Option (Side × Fin a.band)} :
    s ∈ c.slotsOf l ↔ match l with
      | none => s ∈ a.free
      | some (sd, i) => s ∈ a.queue sd i := by
  rcases l with _ | ⟨sd, i⟩
  · exact iff_of_eq (congrArg (s ∈ ·) (h.freeSlots_eq hs))
  · exact iff_of_eq (congrArg (s ∈ ·) (h.slots_eq hs sd i.2))

theorem Rep.partition (h : Rep L c a) (hw : a.Wf) (hlt : s < a.cap) :
    ∃! l : Option (Side × Fin a.band), s ∈ c.slotsOf l := by
  rcases hw.cover s hlt with hf | hr
  · refine ⟨none, (h.mem_slotsOf hw.toSep).2 hf, fun l hl => ?_⟩
    replace hl := (h.mem_slotsOf hw.toSep).1 hl
    rcases l with _ | ⟨sd, i⟩
    · rfl
    · exact absurd hf (hw.not_free hl)
  · have hsq : s ∈ a.queue (a.info s).side (a.info s).price := hr
    refine ⟨some ((a.info s).side, ⟨_, hw.level_lt hsq⟩), (h.mem_slotsOf hw.toSep).2 hsq, ?_⟩
    intro l hl
    replace hl := (h.mem_slotsOf hw.toSep).1 hl
    rcases l with _ | ⟨sd, i⟩
    · exact absurd hl (hw.not_free hsq)
    · obtain ⟨rfl, hi⟩ := hw.unique hsq hl
      exact congrArg some (Prod.ext rfl (Fin.ext hi))

/-- A book that stands for a well-formed ladder is consistent. -/
theorem Rep.consistent (h : Rep L c a) (hw : a.Wf) (hg : L.Good a.calls) :
    c.Consistent a.band a.cap where
  capacity := h.pool
  partition s hlt := h.partition hw hlt
  nodup l := by
    rcases l with _ | ⟨sd, i⟩
    · rw [slotsOf, h.freeSlots_eq hw.toSep]
      exact hw.free_nodup
    · rw [slotsOf, h.slots_eq hw.toSep sd i.2]
      exact hw.nodup sd i
  slot_lt l s hl := by
    rw [h.mem_slotsOf hw.toSep] at hl
    rcases l with _ | ⟨sd, i⟩
    · exact hw.free_lt s hl
    · exact hw.slot_lt hl
  free := (h.freeSlots_eq hw.toSep).symm ▸ h.chain
  links sd i hi := (h.slots_eq hw.toSep sd hi).symm ▸ (h.level sd i hi).links
  count sd i hi := by
    have hlen : (a.queue sd i).length < a.cap + 1 := hw.length_lt
    have hcap := hw.cap_lt
    rw [(h.level sd i hi).count, h.slots_eq hw.toSep sd hi, Nat.mod_eq_of_lt (by omega)]
  volume sd i hi := by rw [(h.level sd i hi).volume, h.sum_orders hw.toSep sd hi]
  order sd i hi o ho := by
    obtain ⟨s, hsq, he⟩ := h.mem_orders hw.toSep hi ho
    have hpos := hw.pos sd i s hsq
    have hprice := hw.price_eq hsq
    have hside := hw.side_eq hsq
    rw [← he] at hpos hprice hside
    exact ⟨hprice, hside, hpos⟩
  bit sd i := by
    rw [h.bit sd i]
    constructor
    · intro hne
      have hi := hw.lt_band hne
      exact ⟨hi, h.slots_eq hw.toSep sd hi ▸ hne⟩
    · rintro ⟨hi, hne⟩
      exact h.slots_eq hw.toSep sd hi ▸ hne
  price sd i hi hne := by
    rw [h.slots_eq hw.toSep sd hi] at hne
    obtain ⟨s, hsq⟩ := List.exists_mem_of_ne_nil _ hne
    rw [h.base]
    exact ⟨h.price sd i hne, hw.no_wrap hsq⟩
  ids id s hid hne := by
    have hs : s = a.find id := Option.some.inj (hid.symm.trans (L.find h.sync hg id))
    subst hs
    obtain ⟨hr, hk⟩ := hw.ids id hne
    have hsq : a.find id ∈ a.queue (a.info (a.find id)).side (a.info (a.find id)).price := hr
    have hi := hw.level_lt hsq
    refine ⟨_, _, hi, h.slots_eq hw.toSep _ hi ▸ hsq, ?_⟩
    exact (congrArg Resting.id (h.data _ _ _ hsq)).trans hk

end Invariant

section Runs

variable {band cap : ℕ} (hband : 0 < band) (hband' : band < 2 ^ 32) (hcap : 0 < cap)
  (hcap' : cap < 2 ^ 32)

include hband hband' hcap hcap'

/-- Every run of a fresh book leaves it consistent. -/
theorem run_consistent (ops : List Op) :
    ∃ c, (fresh band cap).run ops = some c ∧ c.Consistent band cap := by
  obtain ⟨c, hrun, hrep, hw⟩ := run_fresh hband hband' hcap hcap' ops
  obtain ⟨hb, hc⟩ := (new_wf hband hband' hcap').run_sizes ops
  have h := hrep.consistent hw trivial
  rw [hb, hc] at h
  exact ⟨c, hrun, h⟩

end Runs

/-- The run that fills a pool of two slots, moves the window and cancels. -/
theorem run_consistent_small : ∃ c, (fresh 10 2).run
    [.insertLimitOrder 1 .SELL 6 5, .insertLimitOrder 2 .BUY 11 7, .insertLimitOrder 3 .BUY 9 4,
      .cancelOrder 2] = some c ∧ c.Consistent 10 2 :=
  run_consistent (by decide) (by decide) (by decide) (by decide) _

end Nanomatch
