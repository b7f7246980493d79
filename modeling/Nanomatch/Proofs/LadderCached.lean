import Nanomatch.Proofs.Exact
import Nanomatch.Proofs.LadderCount
import Nanomatch.Proofs.LadderGreedy

/-!
# The displayed quantities and the live count of the ladder

Every operation refreshes the quantity it shows of a best level, except an insert that joins that
level; and every operation keeps the live count in step with the free slots, except a cancel.
-/

namespace Nanomatch

open Greedy OrderBook

namespace Ladder

variable {a a' : Ladder} {sd sd' : Side} {i s b qty price want limit : ℕ} {id t : OrderId}

section Qty

/-- The quantity shown for side `sd` is that of its cached best level. -/
def QtyOk (a : Ladder) (sd : Side) : Prop := a.tob.qty sd = a.volume sd (a.tob.best sd)

theorem volume_congr (hq : a'.queue sd i = a.queue sd i)
    (hinfo : ∀ s ∈ a.queue sd i, (a'.info s).qty = (a.info s).qty) :
    a'.volume sd i = a.volume sd i := by
  unfold volume
  rw [hq, List.map_congr_left hinfo]

theorem QtyOk.congr (h : a.QtyOk sd) (hqty : a'.tob.qty sd = a.tob.qty sd)
    (hbest : a'.tob.best sd = a.tob.best sd)
    (hq : a'.queue sd (a.tob.best sd) = a.queue sd (a.tob.best sd))
    (hinfo : ∀ s ∈ a.queue sd (a.tob.best sd), (a'.info s).qty = (a.info s).qty) :
    a'.QtyOk sd := by
  unfold QtyOk
  rw [hqty, hbest, volume_congr hq hinfo]
  exact h

/-- A side whose cached top is set to a level shows that level's quantity. -/
theorem setTop_qtyOk (h : ∀ sd' ≠ sd, a.QtyOk sd') : ∀ sd', (a.setTop sd b).QtyOk sd' := by
  intro sd'
  rcases Side.eq_or_other sd sd' with rfl | rfl
  · cases sd' <;> rfl
  · have hne : sd.other ≠ sd := by cases sd <;> simp [Side.other]
    refine (h sd.other hne).congr ?_ (best_setTop_other _ _ _ _) rfl fun _ _ => rfl
    cases sd <;> rfl

theorem setTopQty_qtyOk (hi : i = a.tob.best sd) (h : ∀ sd' ≠ sd, a.QtyOk sd') :
    ∀ sd', (a.setTopQty sd i).QtyOk sd' := by
  intro sd'
  subst hi
  rcases Side.eq_or_other sd sd' with rfl | rfl
  · cases sd' <;> rfl
  · have hne : sd.other ≠ sd := by cases sd <;> simp [Side.other]
    refine (h sd.other hne).congr ?_ (best_setQty _ _ _ _) rfl fun _ _ => rfl
    cases sd <;> rfl

/-- The refresh after the orders of level `i` changed. -/
theorem refreshTop_qtyOk (h : ∀ sd', a.QtyOk sd' ∨ sd' = sd ∧ a.tob.best sd = i) :
    ∀ sd', (a.refreshTop sd i).QtyOk sd' := by
  have hother : ∀ sd' ≠ sd, a.QtyOk sd' := fun sd' hne =>
    (h sd').resolve_right fun hc => hne hc.1
  unfold refreshTop
  split_ifs with hb hq
  · exact setTop_qtyOk hother
  · exact setTopQty_qtyOk hb hother
  · exact fun sd' => (h sd').resolve_right fun hc => hb hc.2.symm

theorem retire_qtyOk (h : ∀ sd, a.QtyOk sd) (sd' : Side) :
    (a.retire sd i s).QtyOk sd' ∨ sd' = sd ∧ a.tob.best sd = i := by
  by_cases hc : sd' = sd ∧ a.tob.best sd = i
  · exact .inr hc
  · refine .inl ((h sd').congr rfl rfl ?_ fun _ _ => rfl)
    rw [retire_queue, if_neg]
    rintro ⟨rfl, hb⟩
    exact hc ⟨rfl, hb⟩

theorem Wf.cancelAt_qtyOk (h : ∀ sd, a.QtyOk sd) : ∀ sd, (a.cancelAt s).QtyOk sd :=
  refreshTop_qtyOk (retire_qtyOk h)

theorem Wf.takePartly_qtyOk (hw : a.Wf) (hs : a.Rests s) (h : ∀ sd, a.QtyOk sd) (amount : ℕ) :
    ∀ sd, (a.takePartly s amount).QtyOk sd := by
  have htake : ∀ sd', (a.take s amount).QtyOk sd' ∨
      sd' = (a.info s).side ∧ a.tob.best (a.info s).side = (a.info s).price := by
    intro sd'
    by_cases hc : sd' = (a.info s).side ∧ a.tob.best (a.info s).side = (a.info s).price
    · exact .inr hc
    · refine .inl ((h sd').congr rfl rfl rfl fun x hx => ?_)
      have hne : x ≠ s := by
        rintro rfl
        obtain ⟨h1, h2⟩ := hw.unique hx hs
        exact hc ⟨h1.symm, h1 ▸ h2.symm⟩
      rw [take_info_of_ne hne]
  unfold Ladder.takePartly
  split_ifs with hb
  · refine setTopQty_qtyOk hb fun sd' hne => (htake sd').resolve_right fun hc => hne hc.1
  · exact fun sd' => (htake sd').resolve_right fun hc => hb hc.2.symm

theorem sweep_qtyOk {levels : List ℕ} : ∀ {a : Ladder} {want : ℕ}, a.candidates sd = levels →
    a.Core → a.Pos → a.TopOk sd → (∀ sd, a.QtyOk sd) →
    ∀ sd', (sweep sd t limit levels a want).1.QtyOk sd' := by
  induction levels with
  | nil => exact fun _ _ _ _ h => h
  | cons i levels ih =>
    intro a want hl hc hpos htop h
    rw [sweep]
    split_ifs
    · exact h
    obtain ⟨h1, h2, h3, h4, -⟩ := fill_spec (t := t) (a.queue sd i) a want rfl hc hpos
    simp only
    set r := fill sd i t (a.queue sd i) a want
    have hother : ∀ sd' ≠ sd, r.1.QtyOk sd' := by
      intro sd' hne
      refine (h sd').congr (h4 ▸ rfl) (h4 ▸ rfl) (h3.queue _ _ fun he => hne he.1) fun x hx => ?_
      rw [h3.info x fun j _ hj => hne (hc.unique hj hx).1]
    split_ifs with hq
    · have ho : r.1.occupied sd (a.tob.best sd) = levels := by
        refine occupied_of_emptied h3.band (fun j => ?_) (candidates_occupied hl)
        split_ifs with hj
        · rw [hj, hq]
        · exact h3.queue sd j fun hc => hj hc.2
      have hne : ∀ j ∈ levels, r.1.queue sd j ≠ [] := fun j hj => (mem_occupied.1 (ho ▸ hj)).2
      exact ih (candidates_setTop h1.toSep ho) (h1.setTop sd _) h2 (setTop_topOk hne)
        (setTop_qtyOk hother)
    · have hb : a.tob.best sd = i := best_of_candidates hc.toSep htop hl
      exact setTopQty_qtyOk (by rw [h4, hb]) hother

theorem Wf.match_qtyOk (hw : a.Wf) (h : ∀ sd, a.QtyOk sd) :
    ∀ sd', (a.matchAgainst sd t limit qty).1.QtyOk sd' :=
  sweep_qtyOk rfl hw.toCore hw.pos (hw.top sd) h

/-- An order that rests at another level than the cached best one, or does not rest. -/
theorem rest_qtyOk (hs : a.Sep) (h : ∀ sd, a.QtyOk sd)
    (hi : a.free = [] ∨ i ≠ a.tob.best sd) : ∀ sd', (a.rest id sd i qty).1.QtyOk sd' := by
  rw [Ladder.rest]
  split
  · exact h
  rename_i s free hf
  have hne : i ≠ a.tob.best sd := hi.resolve_left (by rw [hf]; exact List.cons_ne_nil _ _)
  have hold : ∀ sd', ({ a with free }.enter id sd i qty s).QtyOk sd' := by
    intro sd'
    refine (h sd').congr rfl rfl (if_neg ?_) fun x hx => ?_
    · rintro ⟨rfl, hb⟩
      exact hne hb.symm
    · have hxs : x ≠ s := fun he => hs.not_free hx (he ▸ hf ▸ List.mem_cons_self)
      rw [enter_info_of_ne hxs]
  simp only
  split_ifs
  · exact setTop_qtyOk fun sd' _ => hold sd'
  · exact hold

theorem rebase_qtyOk (h : ∀ sd, a.QtyOk sd) (newBase : ℕ) :
    ∀ sd', (a.rebase newBase).QtyOk sd' := by
  unfold rebase
  split_ifs
  · exact h
  · refine setTop_qtyOk fun sd' hne => ?_
    obtain rfl : sd' = .BUY := by cases sd' <;> simp at hne ⊢
    rfl

/-- The call leaves an order at the level that is the cached best one of its side. -/
def Joins (a : Ladder) : Op → Prop
  | .insertLimitOrder _ sd price qty =>
    a.InWindow price.toNat ∧ price.toNat = a.base + a.tob.best sd ∧
      total a.qtyAt (a.makers sd.other (a.tob.best sd)) < qty.toNat ∧
      (a.free ≠ [] ∨ a.makers sd.other (a.tob.best sd) ≠ [])
  | _ => False

theorem Wf.ne_best (hw : a.Wf) (hi : i < a.band) (hq : a.queue sd i = []) :
    i ≠ a.tob.best sd := by
  rcases hw.top sd with hb | hb
  · rw [hb]
    exact hw.level_ne_max hi
  · rintro rfl
    exact hb hq

/-- No order rests at a price outside the window, so an insert that moves the window, or sets it,
finds its level empty. -/
theorem Wf.queue_of_moved (hw : a.Wf) (hm : ¬ (a.baseSet = true ∧ a.InWindow price))
    (hin : ((a.anchor price).rebaseFor price).InWindow price) :
    ((a.anchor price).rebaseFor price).queue sd
      (price - ((a.anchor price).rebaseFor price).base) = [] := by
  by_contra hne
  unfold Ladder.anchor Ladder.rebaseFor at hin hne
  split_ifs at hin hne with hset hc hc
  · unfold Ladder.rebase at hin hne
    split_ifs at hin hne
    · exact hc.1 hin
    · obtain ⟨-, i, hi, he, -⟩ := queue_moveTo hne
      have hbase : (((a.moveTo (centeredBase a.band price)).updateBest .BUY).updateBest .SELL).base =
          centeredBase a.band price := rfl
      obtain ⟨h1, h2⟩ := hin
      rw [hbase] at he h1 h2
      exact hc.1 ⟨by omega, by omega⟩
  · exact hm ⟨hset, hin⟩
  · exact absurd (centeredBase_inWindow hw.band_pos price) hc.1
  · exact hne (hw.unset (by simpa using hset) sd _)

theorem Took.free_of_nil {r : Ladder × ℕ} (h : Took t want [] a r) : r.1.free = a.free := h.free

theorem Wf.place_qtyOk (hw : a.Wf) (h : ∀ sd, a.QtyOk sd)
    (hi : i ≠ a.tob.best sd ∨ qty ≤ total a.qtyAt (a.makers sd.other i) ∨
      a.free = [] ∧ a.makers sd.other i = []) : ∀ sd', (a.place id sd i qty).1.QtyOk sd' := by
  have hs : Swept sd.other i a (a.matchAgainst sd.other id i qty) := hw.match_spec _ _ _ _
  have ht : Took id qty (a.makers sd.other i) a (a.matchAgainst sd.other id i qty) :=
    hw.match_took _ _ _ _
  have hbest : (a.matchAgainst sd.other id i qty).1.tob.best sd = a.tob.best sd := by
    have := hs.frame.top
    cases sd <;> exact this
  unfold Ladder.place
  simp only
  split_ifs with hr
  · exact hw.match_qtyOk h
  · refine rest_qtyOk hs.core.toSep (hw.match_qtyOk h) ?_
    rw [hbest]
    rcases hi with hne | hle | ⟨hf, hm⟩
    · exact .inr hne
    · have := ht.left
      omega
    · rw [hm] at ht
      exact .inl (ht.free_of_nil.trans hf)

/-- An insert at a price in the window leaves the window where it is. -/
theorem rebaseFor_of_inWindow (hset : a.baseSet = true) (hin : a.InWindow price) :
    (a.anchor price).rebaseFor price = a := by
  unfold Ladder.anchor Ladder.rebaseFor
  rw [if_pos hset, if_neg fun hc => hc.1 hin]

theorem Wf.insert_qtyOk (hw : a.Wf) (h : ∀ sd, a.QtyOk sd) (id : OrderId) (sd : Side)
    (price qty : UInt32) (hj : ¬ a.Joins (.insertLimitOrder id sd price qty)) :
    ∀ sd', (a.insertLimitOrder id sd price.toNat qty.toNat).1.QtyOk sd' := by
  obtain ⟨hw1, -⟩ := hw.anchor price.toNat
  have hw2 := hw1.rebaseFor price.toNat
  have h1 : ∀ sd, (a.anchor price.toNat).QtyOk sd := by
    unfold Ladder.anchor
    split_ifs <;> exact h
  have h2 : ∀ sd, ((a.anchor price.toNat).rebaseFor price.toNat).QtyOk sd := by
    unfold Ladder.rebaseFor
    split_ifs
    · exact rebase_qtyOk h1 _
    · exact h1
  unfold Ladder.insertLimitOrder
  simp only
  split_ifs with hin
  · refine hw2.place_qtyOk h2 ?_
    by_cases hold : a.baseSet = true ∧ a.InWindow price.toNat
    · rw [rebaseFor_of_inWindow hold.1 hold.2]
      by_cases hb : price.toNat - a.base = a.tob.best sd
      · right
        rw [hb]
        by_contra hc
        push Not at hc
        refine hj ⟨hold.2, ?_, hc.1, ?_⟩
        · have := hold.2.1
          omega
        · by_contra hf
          push Not at hf
          exact hc.2 hf.1 hf.2
      · exact .inl hb
    · refine .inl (hw2.ne_best ?_ (hw.queue_of_moved hold hin))
      obtain ⟨hin1, hin2⟩ := hin
      omega
  · exact h2

/-- Every call but an insert that joins the best level keeps the displayed quantities right. -/
theorem Wf.step_qtyOk (hw : a.Wf) (h : ∀ sd, a.QtyOk sd) : ∀ op : Op, ¬ a.Joins op →
    ∀ sd, (a.step op).1.QtyOk sd
  | .insertLimitOrder id sd price qty, hj => hw.insert_qtyOk h id sd price qty hj
  | .cancelOrder id, _ => by
    simp only [Ladder.step, Ladder.cancelOrder]
    split_ifs
    · exact h
    · exact Wf.cancelAt_qtyOk h
  | .processMarketOrder sd qty, _ => hw.match_qtyOk h
  | .executeOrder id fillQty, _ => by
    simp only [Ladder.step, Ladder.executeOrder, Ladder.executeAt]
    split_ifs with hid
    · exact h
    · rw [refreshTop_dropLive]
      exact fun sd => refreshTop_qtyOk (retire_qtyOk (a := a.trade _) h) sd
    · exact (hw.trade _).takePartly_qtyOk (hw.ids id hid).1 h _
  | .reduceOrderQty id cancelQty, _ => by
    simp only [Ladder.step, Ladder.reduceOrderQty]
    split_ifs with hid
    · exact h
    · exact Wf.cancelAt_qtyOk h
    · exact hw.takePartly_qtyOk (hw.ids id hid).1 h _

end Qty

section Count

/-- The live count is the number of slots that are not free. -/
def Counted (a : Ladder) : Prop := a.live + a.free.length = a.cap

theorem Core.free_length_le (h : a.Core) : a.free.length ≤ a.cap := by
  have := h.held_add_free
  omega

/-- The live count is then the number of resting orders. -/
theorem Counted.live_eq (h : a.Counted) (hc : a.Core) : a.live = a.held := by
  have := hc.held_add_free
  unfold Counted at h
  omega

/-- Orders that leave are taken off the count, and their slots become free. -/
theorem Counted.drop (h : a.Counted) (slots : List ℕ) (hc : a'.Core)
    (hlive : a'.live = a.live - slots.length) (hfree : a'.free = slots.reverse ++ a.free)
    (hcap : a'.cap = a.cap) : a'.Counted := by
  have hle := hc.free_length_le
  unfold Counted at h ⊢
  rw [hfree, List.length_append, List.length_reverse] at hle ⊢
  rw [hcap] at hle ⊢
  omega

theorem refreshTop_counts (sd : Side) (i : ℕ) : (a.refreshTop sd i).live = a.live ∧
    (a.refreshTop sd i).free = a.free ∧ (a.refreshTop sd i).cap = a.cap := by
  unfold refreshTop
  split_ifs <;> exact ⟨rfl, rfl, rfl⟩

/-- An order that leaves by `execute_order` is taken off the count. -/
theorem Wf.leave_counted (hw : a.Wf) (hs : a.Rests s) (h : a.Counted) :
    ((a.retire (a.info s).side (a.info s).price s).dropLive.refreshTop (a.info s).side
      (a.info s).price).Counted := by
  obtain ⟨hlive, hfree, hcap⟩ := refreshTop_counts
    (a := (a.retire (a.info s).side (a.info s).price s).dropLive) (a.info s).side (a.info s).price
  exact h.drop [s] ((hw.toCore.retire hs).dropLive.refreshTop _ _) hlive hfree hcap

theorem takePartly_counted (h : a.Counted) (s amount : ℕ) : (a.takePartly s amount).Counted := by
  unfold takePartly
  split_ifs <;> exact h

theorem rest_counted (h : a.Counted) (hc : a.Core) : (a.rest id sd i qty).1.Counted := by
  rw [Ladder.rest]
  split
  · exact h
  rename_i s free hf
  have hcap := hc.cap_lt
  have hlive : add32 a.live 1 + free.length = a.cap := by
    unfold Counted at h
    rw [hf, List.length_cons] at h
    unfold add32
    omega
  simp only
  split_ifs <;> exact hlive

theorem Wf.match_counted (hw : a.Wf) (h : a.Counted) :
    (a.matchAgainst sd t limit qty).1.Counted := by
  have hs : Swept sd limit a (a.matchAgainst sd t limit qty) := hw.match_spec _ _ _ _
  have ht : Took t qty (a.makers sd limit) a (a.matchAgainst sd t limit qty) :=
    hw.match_took _ _ _ _
  exact h.drop _ hs.core ht.live ht.free hs.frame.cap

theorem Wf.rebase_counted (hw : a.Wf) (h : a.Counted) (newBase : ℕ) :
    (a.rebase newBase).Counted := by
  unfold Ladder.rebase
  split_ifs
  · exact h
  · obtain ⟨-, hcap, -, -, -, hfree, -⟩ := moveTo_fields a newBase
    obtain ⟨-, -, -, -, -, -, -, -, hlive, -⟩ := dropAll_fields (a.droppedSlots newBase) a
    have hmoved : (a.moveTo newBase).Counted :=
      h.drop _ (hw.toCore.moveTo newBase) hlive hfree hcap
    exact hmoved

theorem Wf.insert_counted (hw : a.Wf) (h : a.Counted) :
    (a.insertLimitOrder id sd price qty).1.Counted := by
  obtain ⟨hw1, -⟩ := hw.anchor price
  have h1 : (a.anchor price).Counted := by
    unfold Ladder.anchor
    split_ifs <;> exact h
  have h2 : ((a.anchor price).rebaseFor price).Counted := by
    unfold Ladder.rebaseFor
    split_ifs
    · exact hw1.rebase_counted h1 _
    · exact h1
  have hw2 := hw1.rebaseFor price
  unfold Ladder.insertLimitOrder Ladder.place
  simp only
  split_ifs
  · exact hw2.match_counted h2
  · exact rest_counted (hw2.match_counted h2) (hw2.match_spec _ _ _ _).core
  · exact h2

/-- The call takes an order out by `cancel_order`. -/
def Cancels (a : Ladder) : Op → Prop
  | .cancelOrder id => a.find id ≠ NULL_IDX
  | .reduceOrderQty id cancelQty => a.find id ≠ NULL_IDX ∧
    (a.info (a.find id)).qty ≤ cancelQty.toNat
  | _ => False

/-- Every call but one that cancels keeps the live count. -/
theorem Wf.step_counted (hw : a.Wf) (h : a.Counted) : ∀ op : Op, ¬ a.Cancels op →
    (a.step op).1.Counted
  | .insertLimitOrder _ _ _ _, _ => hw.insert_counted h
  | .cancelOrder id, hc => by
    simp only [Ladder.step, Ladder.cancelOrder]
    rw [if_pos (not_not.1 hc)]
    exact h
  | .processMarketOrder sd qty, _ => hw.match_counted h
  | .executeOrder id fillQty, _ => by
    simp only [Ladder.step, Ladder.executeOrder, Ladder.executeAt]
    split_ifs with hid
    · exact h
    · exact (hw.trade _).leave_counted (s := a.find id) (hw.ids id hid).1 h
    · exact takePartly_counted (a := a.trade _) h _ _
  | .reduceOrderQty id cancelQty, hc => by
    simp only [Ladder.step, Ladder.reduceOrderQty]
    split_ifs with hid hle
    · exact h
    · exact absurd ⟨hid, hle⟩ hc
    · exact takePartly_counted h _ _

/-- After an insert the price is outside the window only if the book was too large to move it. -/
theorem Wf.rebaseFor_refused (hw : a.Wf)
    (hout : ¬ ((a.anchor price).rebaseFor price).InWindow price) :
    a.baseSet = true ∧ ¬ a.InWindow price ∧ BOOTSTRAP_REBASE_LIMIT < a.live ∧
      (a.anchor price).rebaseFor price = a := by
  unfold Ladder.anchor Ladder.rebaseFor at hout ⊢
  split_ifs at hout ⊢ with hset hc hc
  · refine absurd ?_ hout
    unfold Ladder.rebase
    split_ifs with hb
    · have hin := centeredBase_inWindow hw.band_pos price
      rw [hb] at hin
      exact hin
    · obtain ⟨hband, -⟩ := moveTo_fields a (centeredBase a.band price)
      obtain ⟨h1, h2⟩ := centeredBase_inWindow hw.band_pos price
      exact ⟨h1, hband.symm ▸ h2⟩
  · exact ⟨hset, hout, Nat.lt_of_not_le fun hle => hc ⟨hout, hle⟩, rfl⟩
  · exact absurd (centeredBase_inWindow hw.band_pos price) hc.1
  · exact absurd (centeredBase_inWindow hw.band_pos price) hout

theorem Wf.place_window (hw : a.Wf) (id : OrderId) (sd : Side) (i qty : ℕ) :
    (a.place id sd i qty).1.base = a.base ∧ (a.place id sd i qty).1.band = a.band := by
  have hs : Swept sd.other i a (a.matchAgainst sd.other id i qty) := hw.match_spec _ _ _ _
  refine ⟨?_, (hw.place_sizes id sd i qty).1⟩
  unfold Ladder.place
  simp only
  split_ifs
  · exact hs.frame.base
  · exact (rest_keeps _ _ _ _).1.trans hs.frame.base

theorem Wf.insert_refused (hw : a.Wf)
    (hout : ¬ (a.insertLimitOrder id sd price qty).1.InWindow price) :
    a.baseSet = true ∧ ¬ a.InWindow price ∧ BOOTSTRAP_REBASE_LIMIT < a.live ∧
      (a.insertLimitOrder id sd price qty).1 = a := by
  have hw1 := (hw.anchor price).1.rebaseFor price
  unfold Ladder.insertLimitOrder at hout ⊢
  simp only at hout ⊢
  split_ifs at hout ⊢ with hin
  · obtain ⟨hbase, hband⟩ := hw1.place_window id sd
      (price - ((a.anchor price).rebaseFor price).base) qty
    unfold InWindow at hout
    rw [hbase, hband] at hout
    exact absurd hin hout
  · exact hw.rebaseFor_refused hout

end Count

end Ladder

end Nanomatch
