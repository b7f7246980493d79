import Nanomatch.Proofs.LadderGreedy

/-!
# Which orders a call takes out of the book, and which one it puts in

A call takes orders out of their queues together with their ids (`Leaves`), and an insert that
returns true then puts its own order and id in (`Enters`). What is said about the resting orders and
the id map follows from these two.
-/

namespace Nanomatch

open Greedy

namespace Ladder

variable {a a' a'' : Ladder} {sd : Side} {i s x newBase price qty : ℕ} {id t : OrderId}
  {out out' l : List ℕ}

section Leaves

/-- The orders in the slots `out` leave the book with their ids, and nothing else changes. -/
structure Leaves (out : List ℕ) (a a' : Ladder) : Prop where
  rests : ∀ s, a'.Rests s ↔ a.Rests s ∧ s ∉ out
  id : ∀ s, (a'.info s).id = (a.info s).id
  out_rests : ∀ s ∈ out, a.Rests s
  calls : a'.calls = (out.map fun s => IdCall.erase (a.info s).id).reverse ++ a.calls

/-- The order of slot `s` enters the book with the id `id`. -/
structure Enters (id : OrderId) (s : ℕ) (a a' : Ladder) : Prop where
  rests : ∀ x, a'.Rests x ↔ a.Rests x ∨ x = s
  new : ¬ a.Rests s
  lt : s < a.cap
  id_new : (a'.info s).id = id
  id_old : ∀ x ≠ s, (a'.info x).id = (a.info x).id
  calls : a'.calls = .insert id s :: a.calls

/-- No order leaves the book. -/
theorem leaves_nil (hrests : ∀ s, a'.Rests s ↔ a.Rests s) (hid : ∀ s, (a'.info s).id = (a.info s).id)
    (hcalls : a'.calls = a.calls) : Leaves [] a a' where
  rests s := by rw [hrests]; simp
  id := hid
  out_rests _ hs := absurd hs List.not_mem_nil
  calls := hcalls

theorem leaves_of_eq (hq : a'.queue = a.queue) (hinfo : a'.info = a.info)
    (hcalls : a'.calls = a.calls) : Leaves [] a a' :=
  leaves_nil (fun s => by rw [Rests, Rests, hq, hinfo]) (fun s => by rw [hinfo]) hcalls

theorem Leaves.trans (h : Leaves out a a') (h' : Leaves out' a' a'') :
    Leaves (out ++ out') a a'' where
  rests s := by rw [h'.rests, h.rests, List.mem_append, not_or, and_assoc]
  id s := (h'.id s).trans (h.id s)
  out_rests s hs := (List.mem_append.1 hs).elim (h.out_rests s) fun hs =>
    ((h.rests s).1 (h'.out_rests s hs)).1
  calls := by
    have hids : out'.map (fun s => IdCall.erase (a'.info s).id) =
        out'.map fun s => IdCall.erase (a.info s).id :=
      List.map_congr_left fun s _ => congrArg IdCall.erase (h.id s)
    rw [h'.calls, h.calls, hids, List.map_append, List.reverse_append, List.append_assoc]

theorem Leaves.refl (a : Ladder) : Leaves [] a a := leaves_of_eq rfl rfl rfl

/-- What follows without touching the orders does not matter. -/
theorem Leaves.congr (h : Leaves out a a') (hq : a''.queue = a'.queue) (hinfo : a''.info = a'.info)
    (hcalls : a''.calls = a'.calls) : Leaves out a a'' := by
  have h' := h.trans (leaves_of_eq hq hinfo hcalls)
  rwa [List.append_nil] at h'

theorem leaves_take (s amount : ℕ) : Leaves [] a (a.take s amount) :=
  leaves_nil (fun _ => take_rests) (fun x => (take_info s amount x).1) rfl

theorem Sep.leaves_retire (h : a.Sep) (hs : s ∈ a.queue sd i) : Leaves [s] a (a.retire sd i s) where
  rests x := by
    have hinfo : (a.retire sd i s).info = a.info := rfl
    rw [Rests, hinfo, mem_retire h hs, Rests, List.mem_singleton]
  id _ := rfl
  out_rests x hx := List.mem_singleton.1 hx ▸ h.rests hs
  calls := rfl

theorem refreshTop_keeps (a : Ladder) (sd : Side) (i : ℕ) :
    (a.refreshTop sd i).queue = a.queue ∧ (a.refreshTop sd i).info = a.info ∧
      (a.refreshTop sd i).calls = a.calls := by
  unfold refreshTop
  split_ifs <;> exact ⟨rfl, rfl, rfl⟩

end Leaves

section Match

variable {want : ℕ} {r : Ladder × ℕ}

/-- A taker takes the makers out that it fills. -/
theorem Took.leaves (h : Took t want l a r) (hid : ∀ s, (r.1.info s).id = (a.info s).id)
    (hl : ∀ s ∈ l, a.Rests s) : Leaves (filled a.qtyAt want l) a r.1 where
  rests s := by
    by_cases hs : s ∈ filled a.qtyAt want l
    · simp [Rests, h.queue, hs]
    · have hinfo := h.info s hs
      have hside : (r.1.info s).side = (a.info s).side := by
        rw [hinfo]
        split_ifs <;> rfl
      have hprice : (r.1.info s).price = (a.info s).price := by
        rw [hinfo]
        split_ifs <;> rfl
      simp [Rests, h.queue, hside, hprice, hs]
  id := hid
  out_rests s hs := hl s (filled_isPrefix.subset hs)
  calls := h.calls

theorem Wf.leaves_match (h : a.Wf) (sd : Side) (t : OrderId) (limit qty : ℕ) :
    Leaves (filled a.qtyAt qty (a.makers sd limit)) a (a.matchAgainst sd t limit qty).1 := by
  refine (h.match_took sd t limit qty).leaves (h.match_spec sd t limit qty).frame.id fun s hs => ?_
  obtain ⟨i, -, hi⟩ := List.mem_flatMap.1 hs
  exact h.toSep.rests hi

end Match

section Rebase

/-- A move of the window takes the orders out that fall out of it. -/
theorem Core.leaves_moveTo (h : a.Core) (newBase : ℕ) :
    Leaves (a.droppedSlots newBase) a (a.moveTo newBase) where
  rests s := by
    constructor
    · intro hs
      obtain ⟨hnr, i, hi, he, hsq⟩ := mem_moveTo.1 hs
      refine ⟨h.toSep.rests hsq, fun hd => (h.toSep.mem_droppedSlots.1 hd).2 ?_⟩
      rw [h.price_eq hsq]
      exact ⟨by omega, by omega⟩
    · rintro ⟨hs, hd⟩
      refine h.rests_moveTo hs ?_
      by_contra hk
      exact hd (h.toSep.mem_droppedSlots.2 ⟨hs, hk⟩)
  id _ := rfl
  out_rests s hs := (h.toSep.mem_droppedSlots.1 hs).1
  calls := (moveTo_fields a newBase).2.2.2.2.2.2

theorem Core.leaves_rebase (h : a.Core) (newBase : ℕ) :
    Leaves (if newBase = a.base then [] else a.droppedSlots newBase) a (a.rebase newBase) := by
  unfold Ladder.rebase
  split_ifs
  · exact Leaves.refl a
  · exact (h.leaves_moveTo newBase).congr rfl rfl rfl

/-- The slots of the orders that an insert at `price` drops, the window of the book moving. -/
def droppedFor (a : Ladder) (price : ℕ) : List ℕ :=
  if ¬ a.InWindow price ∧ a.live ≤ BOOTSTRAP_REBASE_LIMIT ∧
      OrderBook.centeredBase a.band price ≠ a.base then
    a.droppedSlots (OrderBook.centeredBase a.band price)
  else []

theorem Core.leaves_rebaseFor (h : a.Core) (price : ℕ) :
    Leaves (a.droppedFor price) a (a.rebaseFor price) := by
  have hr := h.leaves_rebase (OrderBook.centeredBase a.band price)
  unfold Ladder.rebaseFor droppedFor
  by_cases hm : ¬ a.InWindow price ∧ a.live ≤ BOOTSTRAP_REBASE_LIMIT
  · rw [if_pos hm]
    by_cases hb : OrderBook.centeredBase a.band price = a.base
    · rw [if_pos hb] at hr
      rwa [if_neg fun hc => hc.2.2 hb]
    · rw [if_neg hb] at hr
      rwa [if_pos ⟨hm.1, hm.2, hb⟩]
  · rw [if_neg hm, if_neg fun hc => hm ⟨hc.1, hc.2.1⟩]
    exact Leaves.refl a

theorem leaves_anchor (price : ℕ) : Leaves [] a (a.anchor price) := by
  unfold Ladder.anchor
  split_ifs
  · exact Leaves.refl a
  · exact leaves_of_eq rfl rfl rfl

end Rebase

section Insert

theorem enters_enter {free : List ℕ} (h : a.Sep) (hf : a.free = s :: free) :
    Enters id s a ({ a with free }.enter id sd i qty s) := by
  have hnew : ¬ a.Rests s := fun hs => h.not_free hs (hf ▸ List.mem_cons_self)
  refine ⟨fun x => ?_, hnew, h.free_lt s (hf ▸ List.mem_cons_self), ?_, fun x hx => ?_, rfl⟩
  · by_cases hx : x = s
    · subst hx
      simp [Rests, enter_info_self, mem_enter]
    · simp [Rests, enter_info_of_ne hx, mem_enter, hx]
  · exact congrArg Resting.id enter_info_self
  · exact congrArg Resting.id (enter_info_of_ne hx)

/-- What follows without touching the orders does not matter. -/
theorem Enters.congr (h : Enters id s a a') (hq : a''.queue = a'.queue) (hinfo : a''.info = a'.info)
    (hcalls : a''.calls = a'.calls) : Enters id s a a'' where
  rests x := by rw [← h.rests, Rests, Rests, hq, hinfo]
  new := h.new
  lt := h.lt
  id_new := by rw [hinfo, h.id_new]
  id_old x hx := by rw [hinfo, h.id_old x hx]
  calls := by rw [hcalls, h.calls]

theorem Sep.enters_rest (h : a.Sep) (hr : (a.rest id sd i qty).2 = true) :
    ∃ s, Enters id s a (a.rest id sd i qty).1 := by
  unfold Ladder.rest at hr ⊢
  split at hr
  · exact absurd hr Bool.false_ne_true
  rename_i s free hf
  refine ⟨s, ?_⟩
  simp only
  split_ifs
  · exact (enters_enter h hf).congr rfl rfl rfl
  · exact enters_enter h hf

/-- The slots of the orders that an insert at `price` takes out of the book: those that a move of
the window drops, and the makers that it fills. -/
def outOfInsert (a : Ladder) (sd : Side) (price qty : ℕ) : List ℕ :=
  let a' := (a.anchor price).rebaseFor price
  (a.anchor price).droppedFor price ++
    if a'.InWindow price then filled a'.qtyAt qty (a'.makers sd.other (price - a'.base)) else []

theorem Wf.leaves_before (h : a.Wf) (price : ℕ) :
    Leaves ((a.anchor price).droppedFor price) a ((a.anchor price).rebaseFor price) :=
  (leaves_anchor price).trans ((h.anchor price).1.toCore.leaves_rebaseFor price)

/-- An insert that returns true. -/
theorem Wf.insert_enters (h : a.Wf) (hr : (a.insertLimitOrder id sd price qty).2 = true) :
    ∃ a' s, Leaves (a.outOfInsert sd price qty) a a' ∧
      Enters id s a' (a.insertLimitOrder id sd price qty).1 := by
  have hbefore := h.leaves_before price
  have hw := (h.anchor price).1.rebaseFor price
  unfold Ladder.insertLimitOrder at hr ⊢
  unfold outOfInsert
  simp only at hr ⊢
  set a1 := (a.anchor price).rebaseFor price
  by_cases hin : a1.InWindow price
  · rw [if_pos hin] at hr ⊢
    rw [if_pos hin]
    unfold Ladder.place at hr ⊢
    simp only at hr ⊢
    split_ifs at hr ⊢
    obtain ⟨s, hs⟩ := (hw.matchAgainst id (price - a1.base) qty).toSep.enters_rest hr
    exact ⟨_, s, hbefore.trans (hw.leaves_match sd.other id (price - a1.base) qty), hs⟩
  · rw [if_neg hin] at hr
    exact absurd hr Bool.false_ne_true

/-- An insert that returns false. -/
theorem Wf.insert_leaves (h : a.Wf) (hr : (a.insertLimitOrder id sd price qty).2 = false) :
    Leaves (a.outOfInsert sd price qty) a (a.insertLimitOrder id sd price qty).1 := by
  have hbefore := h.leaves_before price
  have hw := (h.anchor price).1.rebaseFor price
  unfold Ladder.insertLimitOrder at hr ⊢
  unfold outOfInsert
  simp only at hr ⊢
  set a1 := (a.anchor price).rebaseFor price
  by_cases hin : a1.InWindow price
  · have hmatch := hbefore.trans (hw.leaves_match sd.other id (price - a1.base) qty)
    rw [if_pos hin] at hr ⊢
    rw [if_pos hin]
    unfold Ladder.place at hr ⊢
    simp only at hr ⊢
    split_ifs at hr ⊢
    · exact hmatch
    · rw [(rest_refused hr).1]
      exact hmatch
  · rw [if_neg hin, if_neg hin, List.append_nil]
    exact hbefore

end Insert

section Calls

theorem Sep.leaves_cancelAt (h : a.Sep) (hs : a.Rests s) : Leaves [s] a (a.cancelAt s) := by
  obtain ⟨hq, hinfo, hcalls⟩ := refreshTop_keeps (a.retire (a.info s).side (a.info s).price s)
    (a.info s).side (a.info s).price
  exact (h.leaves_retire hs).congr hq hinfo hcalls

theorem leaves_takePartly (s amount : ℕ) : Leaves [] a (a.takePartly s amount) := by
  unfold Ladder.takePartly
  split_ifs
  · exact (leaves_take s amount).congr rfl rfl rfl
  · exact leaves_take s amount

theorem Wf.leaves_executeAt (h : a.Wf) (hs : a.Rests s) (fillQty : ℕ) :
    Leaves (if fillQty ≥ (a.info s).qty then [s] else []) a (a.executeAt s fillQty).1 := by
  unfold Ladder.executeAt
  simp only
  set t := a.trade ⟨(a.info s).id, 0, a.base + (a.info s).price, min fillQty (a.info s).qty⟩
  have ht : Leaves [] a t := leaves_of_eq rfl rfl rfl
  split_ifs with hle
  · rw [refreshTop_dropLive]
    exact ht.trans (((h.trade _).toSep.leaves_cancelAt hs).congr rfl rfl rfl)
  · exact ht.trans (leaves_takePartly s fillQty)

/-- The slots of the orders that a call takes out of the book. -/
def outOf (a : Ladder) : OrderBook.Op → List ℕ
  | .insertLimitOrder _ sd price qty => a.outOfInsert sd price.toNat qty.toNat
  | .cancelOrder id => if a.find id = NULL_IDX then [] else [a.find id]
  | .processMarketOrder sd qty => filled a.qtyAt qty.toNat
    (a.makers sd.other (match sd with | .BUY => a.band - 1 | .SELL => 0))
  | .executeOrder id fillQty =>
    if a.find id ≠ NULL_IDX ∧ fillQty.toNat ≥ (a.info (a.find id)).qty then [a.find id] else []
  | .reduceOrderQty id cancelQty =>
    if a.find id ≠ NULL_IDX ∧ cancelQty.toNat ≥ (a.info (a.find id)).qty then [a.find id] else []

/-- A call takes orders out, and an insert that returns true then puts its own order in. -/
theorem Wf.step_ids (h : a.Wf) (op : OrderBook.Op) : Leaves (a.outOf op) a (a.step op).1 ∨
    ∃ a' id sd price qty s, op = .insertLimitOrder id sd price qty ∧ (a.step op).2 = true ∧
      Leaves (a.outOf op) a a' ∧ Enters id s a' (a.step op).1 := by
  cases op with
  | insertLimitOrder id sd price qty =>
    by_cases hr : (a.insertLimitOrder id sd price.toNat qty.toNat).2 = true
    · obtain ⟨a', s, h1, h2⟩ := h.insert_enters hr
      exact .inr ⟨a', id, sd, price, qty, s, rfl, hr, h1, h2⟩
    · exact .inl (h.insert_leaves (Bool.not_eq_true _ ▸ hr))
  | cancelOrder id =>
    left
    simp only [Ladder.step, outOf, Ladder.cancelOrder]
    split_ifs with hid
    · exact Leaves.refl a
    · exact h.toSep.leaves_cancelAt (h.ids id hid).1
  | processMarketOrder sd qty => exact .inl (h.leaves_match sd.other 0 _ qty.toNat)
  | executeOrder id fillQty =>
    left
    simp only [Ladder.step, outOf, Ladder.executeOrder]
    by_cases hid : a.find id = NULL_IDX
    · rw [if_pos hid, if_neg fun hc => hc.1 hid]
      exact Leaves.refl a
    · have he := h.leaves_executeAt (h.ids id hid).1 fillQty.toNat
      simp only [ne_eq, hid, not_false_eq_true, true_and, if_false]
      exact he
  | reduceOrderQty id cancelQty =>
    left
    simp only [Ladder.step, outOf, Ladder.reduceOrderQty]
    by_cases hid : a.find id = NULL_IDX
    · rw [if_pos hid, if_neg fun hc => hc.1 hid]
      exact Leaves.refl a
    · rw [if_neg hid]
      by_cases hle : cancelQty.toNat ≥ (a.info (a.find id)).qty
      · rw [if_pos hle, if_pos ⟨hid, hle⟩]
        exact h.toSep.leaves_cancelAt (h.ids id hid).1
      · rw [if_neg hle, if_neg fun hc => hle hc.2]
        exact leaves_takePartly _ _

end Calls

end Ladder

end Nanomatch
