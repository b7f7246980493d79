import Nanomatch.Owners
import Nanomatch.Proofs.IdTableRuns
import Nanomatch.Proofs.ItchBounds
import Nanomatch.Proofs.LedgerRuns
import Nanomatch.Proofs.Makers

/-!
# The ids in a book

In a book over the finite map whose ids are all different, the ids of the resting orders are those
that the map finds. What the calls of the parser do to them follows.
-/

namespace Nanomatch

open Greedy OrderBook Ladder

variable {c : OrderBook FinMap} {a a' : Ladder} {id k : OrderId} {sd : Side} {price qty s : ℕ}

section Ids

/-- The order in the slot of a resting order is one of those that the book shows. -/
theorem Rep.cell_mem_resting (h : Rep finLaws c a) (hw : a.Wf) (hs : a.Rests s) :
    c.pool.pool.cell s ∈ c.resting .BUY ++ c.resting .SELL := by
  have hi := hw.level_lt hs
  have hmem : c.pool.pool.cell s ∈ c.resting (a.info s).side := by
    refine List.mem_flatMap.2 ⟨_, List.mem_range.2 (h.level_lt hi), ?_⟩
    exact List.mem_map_of_mem ((h.slots_eq hw.toSep _ hi).symm ▸ hs)
  rcases hsd : (a.info s).side <;> rw [hsd] at hmem
  · exact List.mem_append_left _ hmem
  · exact List.mem_append_right _ hmem

theorem Rep.hasId_iff_rests (h : Rep finLaws c a) (hw : a.Wf) :
    c.HasId id ↔ ∃ s, a.Rests s ∧ (a.info s).id = id := by
  constructor
  · rintro ⟨o, ho, rfl⟩
    have hside : ∃ sd, o ∈ c.resting sd := (List.mem_append.1 ho).elim (⟨_, ·⟩) (⟨_, ·⟩)
    obtain ⟨sd, ho⟩ := hside
    obtain ⟨i, hi, ho⟩ := List.mem_flatMap.1 ho
    rw [List.mem_range, h.levels] at hi
    obtain ⟨s, hs, he⟩ := h.mem_orders hw.toSep hi ho
    exact ⟨s, hw.toSep.rests hs, (congrArg Resting.id he).symm⟩
  · rintro ⟨s, hs, rfl⟩
    exact ⟨_, h.cell_mem_resting hw hs, congrArg Resting.id (h.data _ _ s hs)⟩

/-- The resting ids are those that the map finds. -/
theorem Rep.hasId_iff (h : Rep finLaws c a) (hw : a.Wf) (hn : a.Named) :
    c.HasId id ↔ a.find id ≠ NULL_IDX := by
  rw [h.hasId_iff_rests hw]
  constructor
  · rintro ⟨s, hs, rfl⟩
    rw [hn s hs]
    exact hw.toSep.ne_null (hw.slot_lt hs)
  · intro hne
    exact ⟨_, hw.ids id hne⟩

theorem Ladder.Leaves.find_ne_null {out : List ℕ} (hl : Leaves out a a') :
    a'.find k ≠ NULL_IDX ↔ a.find k ≠ NULL_IDX ∧ k ∉ out.map fun s => (a.info s).id := by
  rw [hl.find]
  split_ifs with hk <;> simp [hk]

end Ids

section TakesNone

theorem Rep.windowed (h : Rep finLaws c a) (hw : a.Wf) (price : ℕ) :
    ∃ c', c.windowed price = some c' ∧ Rep finLaws c' ((a.anchor price).rebaseFor price) :=
  (h.anchor hw price).rebaseFor (hw.anchor price).1 price trivial

theorem Rep.droppedFor_eq_nil (h : Rep finLaws c a) (hw : a.Wf)
    (hk : c.Moves price → ∀ o ∈ c.resting .BUY ++ c.resting .SELL,
      c.Keeps (centeredBase c.bids.size price) (c.absPrice o)) :
    (a.anchor price).droppedFor price = [] := by
  unfold droppedFor
  split_ifs with hd
  · obtain ⟨hin, hlive, -⟩ := hd
    refine List.eq_nil_iff_forall_not_mem.2 fun s hs => ?_
    have hwa := (hw.anchor price).1
    obtain ⟨hr, hout⟩ := hwa.toSep.mem_droppedSlots.1 hs
    by_cases hset : a.baseSet = true
    · have ha : a.anchor price = a := if_pos hset
      rw [ha] at hin hlive hr hout
      have hkeep := hk ((h.moves_iff price).2 ⟨hset, hin, hlive⟩) _ (h.cell_mem_resting hw hr)
      have hp : (c.pool.pool.cell s).price = (a.info s).price :=
        congrArg Resting.price (h.data _ _ s hr)
      rw [OrderBook.Keeps, absPrice, h.base, h.size, hp] at hkeep
      exact hout hkeep
    · have ha : (a.anchor price).queue = a.queue := by
        unfold Ladder.anchor
        rw [if_neg hset]
      unfold Rests at hr
      rw [ha, hw.unset (Bool.not_eq_true _ ▸ hset)] at hr
      exact List.not_mem_nil hr
  · rfl

theorem Rep.outOfInsert_eq_nil (h : Rep finLaws c a) (hw : a.Wf) (ht : c.TakesNone sd price qty) :
    a.outOfInsert sd price qty = [] := by
  obtain ⟨c', hc', h'⟩ := h.windowed hw price
  have hw' := (hw.anchor price).1.rebaseFor price
  unfold outOfInsert
  simp only
  set a' := (a.anchor price).rebaseFor price
  rw [h.droppedFor_eq_nil hw ht.window, List.nil_append]
  split_ifs with hin
  · have hidx : (c'.toIdx price).toNat = price - a'.base := by
      rw [toIdx, h'.base]
      omega
    have hfirst := ht.makers c' hc' ((h'.inBand_iff price).2 hin)
    rw [hidx, h'.metMakers_eq hw'] at hfirst
    rcases hl : a'.makers sd.other (price - a'.base) with _ | ⟨s, l⟩
    · rfl
    · obtain ⟨i, hi⟩ := mem_makers_queue (hl ▸ List.mem_cons_self : s ∈ a'.makers _ _)
      have hlt := hfirst s (by rw [hl]; rfl)
      rw [h'.qtyAt_eq hi] at hlt
      exact filled_cons_of_lt hlt
  · rfl

end TakesNone

section Ops

/-- The book stands for a well-formed ladder, whose ids are all different. -/
def OrderBook.Standing (c : OrderBook FinMap) : Prop := ∃ a, Rep finLaws c a ∧ a.Wf ∧ a.Named

/-- An insert of a new id that takes no order out. -/
theorem OrderBook.Standing.insert (h : c.Standing) {price qty : UInt32} (hnew : ¬ c.HasId id)
    (ht : c.TakesNone sd price.toNat qty.toNat) :
    ∃ c' r, OrderBookOps.insertLimitOrder c id sd price qty = some (c', r) ∧ c'.Standing ∧
      ∀ k, c'.HasId k ↔ c.HasId k ∨ r = true ∧ k = id := by
  obtain ⟨a, h, hw, hn⟩ := h
  obtain ⟨c', hc', h'⟩ := h.step hw (.insertLimitOrder id sd price qty) trivial
  have hw' := hw.step (.insertLimitOrder id sd price qty)
  have hn' : (a.step (.insertLimitOrder id sd price qty)).1.Named := by
    refine hw.named_step hn _ fun id' sd' price' qty' hop s hs hid => ?_
    obtain ⟨rfl, -, -, -⟩ := Op.insertLimitOrder.inj hop
    exact hnew ((h.hasId_iff_rests hw).2 ⟨s, hs, hid⟩)
  have hout := h.outOfInsert_eq_nil hw ht
  refine ⟨c', _, hc', ⟨_, h', hw', hn'⟩, fun k => ?_⟩
  rw [h'.hasId_iff hw' hn', h.hasId_iff hw hn]
  simp only [Ladder.step] at hw' ⊢
  rcases hr : (a.insertLimitOrder id sd price.toNat qty.toNat).2 with _ | _
  · have hl := hw.insert_leaves hr
    rw [hout] at hl
    simpa using hl.find_ne_null (k := k)
  · obtain ⟨a1, s, hl, he⟩ := hw.insert_enters hr
    rw [hout] at hl
    have hfind := hl.find_ne_null (k := k)
    have hs : s ≠ NULL_IDX := hw'.toSep.ne_null (hw'.slot_lt ((he.rests s).2 (.inr rfl)))
    rw [he.find]
    split_ifs with hk
    · simp [hs, hk]
    · simpa [Ne.symm hk] using hfind

/-- The ids that a call takes out are `id` alone if `gone`, and none otherwise. -/
theorem Rep.standing_step (h : Rep finLaws c a) (hw : a.Wf) (hn : a.Named) {op : Op}
    {c' : OrderBook FinMap} (h' : Rep finLaws c' (a.step op).1)
    (hop : ∀ id sd price qty, op ≠ .insertLimitOrder id sd price qty) {gone : Prop}
    (hout : ∀ k, k ∈ (a.outOf op).map (fun s => (a.info s).id) ↔
      a.find id ≠ NULL_IDX ∧ gone ∧ k = id) :
    c'.Standing ∧ ∀ k, c'.HasId k ↔ c.HasId k ∧ ¬ (gone ∧ k = id) := by
  have hl : Leaves (a.outOf op) a (a.step op).1 := (hw.step_ids op).resolve_right
    fun ⟨_, id, sd, price, qty, _, he, _⟩ => hop id sd price qty he
  have hw' := hw.step op
  have hn' := hn.leaves hl
  refine ⟨⟨_, h', hw', hn'⟩, fun k => ?_⟩
  rw [h'.hasId_iff hw' hn', h.hasId_iff hw hn, hl.find_ne_null, hout]
  refine and_congr_right fun hk => not_congr ⟨And.right, fun hg => ⟨hg.2 ▸ hk, hg⟩⟩

/-- The ids of the order that `id` finds, if it is taken out. -/
theorem Ladder.Wf.mem_found (hw : a.Wf) {gone : Prop} [Decidable gone]  :
    k ∈ (if a.find id ≠ NULL_IDX ∧ gone then [a.find id] else []).map (fun s => (a.info s).id) ↔
      a.find id ≠ NULL_IDX ∧ gone ∧ k = id := by
  split_ifs with hg
  · simp [hg, (hw.ids id hg.1).2]
  · simp only [List.map_nil, List.not_mem_nil, false_iff]
    exact fun hc => hg ⟨hc.1, hc.2.1⟩

theorem OrderBook.Standing.execute (h : c.Standing) (id : OrderId) (fillQty : UInt32) :
    ∃ c' r, OrderBookOps.executeOrder c id fillQty = some (c', r) ∧ c'.Standing ∧
      ∀ k, c'.HasId k ↔ c.HasId k ∧ ¬ (r = true ∧ k = id) := by
  obtain ⟨a, h, hw, hn⟩ := h
  obtain ⟨c', hc', h'⟩ := h.step hw (.executeOrder id fillQty) trivial
  have hgone : (a.step (.executeOrder id fillQty)).2 = true ↔
      a.find id ≠ NULL_IDX ∧ fillQty.toNat ≥ (a.info (a.find id)).qty := by
    simp only [Ladder.step, Ladder.executeOrder, executeAt]
    split_ifs with hid hq
    · simp [hid]
    · simp [hid, hq]
    · simp [hid, hq]
  refine ⟨c', _, hc', h.standing_step hw hn h' (fun _ _ _ _ => Op.noConfusion) fun k => ?_⟩
  simp only [outOf]
  rw [hw.mem_found, hgone]
  tauto

theorem OrderBook.Standing.reduce (h : c.Standing) (id : OrderId) (cancelQty : UInt32) :
    ∃ c' r, OrderBookOps.reduceOrderQty c id cancelQty = some (c', r) ∧ c'.Standing ∧
      ∀ k, c'.HasId k ↔ c.HasId k ∧ ¬ (r = true ∧ k = id) := by
  obtain ⟨a, h, hw, hn⟩ := h
  obtain ⟨c', hc', h'⟩ := h.step hw (.reduceOrderQty id cancelQty) trivial
  have hgone : (a.step (.reduceOrderQty id cancelQty)).2 = true ↔
      a.find id ≠ NULL_IDX ∧ cancelQty.toNat ≥ (a.info (a.find id)).qty := by
    simp only [Ladder.step, Ladder.reduceOrderQty]
    split_ifs with hid hq
    · simp [hid]
    · simp [hid, hq]
    · simp [hid, hq]
  refine ⟨c', _, hc', h.standing_step hw hn h' (fun _ _ _ _ => Op.noConfusion) fun k => ?_⟩
  simp only [outOf]
  rw [hw.mem_found, hgone]
  tauto

theorem OrderBook.Standing.cancel (h : c.Standing) (id : OrderId) :
    ∃ c', OrderBookOps.cancelOrder c id = some c' ∧ c'.Standing ∧
      ∀ k, c'.HasId k ↔ c.HasId k ∧ k ≠ id := by
  obtain ⟨a, h, hw, hn⟩ := h
  obtain ⟨c', hc', h'⟩ := h.cancelOrder hw trivial
  have hout : a.outOf (.cancelOrder id) =
      if a.find id ≠ NULL_IDX ∧ True then [a.find id] else [] := by
    simp only [outOf, and_true, ite_not]
  have hstep := h.standing_step hw hn h' (fun _ _ _ _ => Op.noConfusion) fun k =>
    hout ▸ hw.mem_found
  simp only [true_and] at hstep
  exact ⟨c', hc', hstep⟩

/-- What the parser looks up before it replaces an order. -/
theorem OrderBook.Standing.find (h : c.Standing) (id : OrderId) :
    ∃ idx, c.findId id = some idx ∧ (c.HasId id ↔ idx ≠ NULL_IDX) ∧
      (idx ≠ NULL_IDX → ∃ o, c.readOrder idx = some o) := by
  obtain ⟨a, h, hw, hn⟩ := h
  refine ⟨a.find id, h.findId trivial id, h.hasId_iff hw hn, fun hne => ?_⟩
  obtain ⟨o, ho, -⟩ := h.readOrder_eq hw (hw.ids id hne).1
  exact ⟨o, ho⟩

theorem standing_fresh {band cap : ℕ} (hband : 0 < band) (hband' : band < 2 ^ 32) (hcap : 0 < cap)
    (hcap' : cap < 2 ^ 32) : (fresh band cap).Standing ∧ ∀ k, ¬ (fresh band cap).HasId k := by
  have hw := new_wf hband hband' hcap'
  have h : Rep finLaws (fresh band cap) (Ladder.new band cap) := rep_new hcap rfl
  refine ⟨⟨_, h, hw, new_named band cap⟩, fun k hk => ?_⟩
  obtain ⟨s, hs, -⟩ := (h.hasId_iff_rests hw).1 hk
  exact List.not_mem_nil hs

end Ops

end Nanomatch
