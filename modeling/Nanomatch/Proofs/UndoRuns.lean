import Nanomatch.Proofs.EventRuns

/-!
# A cancel takes back an insert

An insert that trades with nobody takes a slot off the free list and puts its order at the end of a
level; a cancel of its id puts both back. The best levels are exact before and exact after, so they
are the same.
-/

namespace Nanomatch

open LinkedList WordBits OrderBook Ladder

variable {a a' : Ladder} {c : OrderBook FinMap} {sd : Side} {i s price qty limit : ℕ}
  {id t : OrderId} {free : List ℕ}

namespace Ladder

section Best

/-- The orders of a side determine its best level. -/
theorem Exact.best_eq (h : a.Exact sd) (ht : a.TopOk sd) (h' : a'.Exact sd) (ht' : a'.TopOk sd)
    (hq : ∀ i, a'.queue sd i = a.queue sd i) : a'.tob.best sd = a.tob.best sd := by
  rcases ht with hb | hb
  · -- nothing is cached, so there is nothing to cache
    rcases ht' with hb' | hb'
    · rw [hb, hb']
    · rw [hq] at hb'
      exact absurd hb (exact_iff.1 h _ hb').1
  · rcases ht' with hb' | hb'
    · rw [← hq] at hb
      exact absurd hb' (exact_iff.1 h' _ hb).1
    · rw [hq] at hb'
      have hle := (exact_iff.1 h _ hb').2
      rw [← hq] at hb
      have hge := (exact_iff.1 h' _ hb).2
      cases sd with
      | BUY => exact le_antisymm (mem_outward_buy.1 hle) (mem_outward_buy.1 hge)
      | SELL => exact le_antisymm (mem_outward_sell.1 hge).1 (mem_outward_sell.1 hle).1

end Best

section Insert

/-- A taker that no level crosses trades with nobody. -/
theorem matchAgainst_none (h : ∀ j, a.queue sd j ≠ [] → ¬ sd.Crosses limit j) :
    a.matchAgainst sd t limit qty = (a, qty) := by
  unfold matchAgainst
  rcases hc : a.candidates sd with _ | ⟨j, l⟩
  · rfl
  · have hj := (mem_candidates.1 (hc ▸ List.mem_cons_self)).2.2
    rw [sweep, if_pos (.inr (h j hj))]

/-- An insert inside the window at a price that nobody on the other side crosses. -/
theorem Wf.insert_eq_rest (h : a.Wf) (hwin : a.InWindow price) (hqty : 0 < qty)
    (hno : ∀ j, a.queue sd.other j ≠ [] → ¬ sd.other.Crosses (price - a.base) j) :
    (a.anchor price).InWindow price ∧ a.insertLimitOrder id sd price qty =
      (a.anchor price).rest id sd (price - (a.anchor price).base) qty := by
  have hwin' : (a.anchor price).InWindow price := by
    unfold Ladder.anchor
    split_ifs
    · exact hwin
    · exact centeredBase_inWindow h.band_pos price
  have hno' : ∀ j, (a.anchor price).queue sd.other j ≠ [] →
      ¬ sd.other.Crosses (price - (a.anchor price).base) j := by
    unfold Ladder.anchor
    split_ifs with hset
    · exact hno
    · intro j hj
      exact absurd (h.unset (Bool.not_eq_true _ ▸ hset) sd.other j) hj
  have hstay : (a.anchor price).rebaseFor price = a.anchor price :=
    if_neg fun hc => hc.1 hwin'
  refine ⟨hwin', ?_⟩
  unfold Ladder.insertLimitOrder
  simp only [hstay, if_pos hwin']
  unfold Ladder.place
  rw [matchAgainst_none hno']
  exact if_neg (Nat.pos_iff_ne_zero.1 hqty)

end Insert

section Undo

/-- What an order that rests does to the ladder, but for the top of book. -/
structure RestsAt (id : OrderId) (sd : Side) (i s : ℕ) (free : List ℕ) (a a' : Ladder) : Prop where
  band : a'.band = a.band
  queue : ∀ sd' j, a'.queue sd' j =
    if sd' = sd ∧ j = i then a.queue sd i ++ [s] else a.queue sd' j
  id_eq : (a'.info s).id = id
  info : ∀ x ≠ s, a'.info x = a.info x
  find : ∀ k, a'.find k = if id = k then s else a.find k
  free : a'.free = free
  trades : a'.trades = a.trades

theorem rest_restsAt (hf : a.free = s :: free) :
    RestsAt id sd i s free a (a.rest id sd i qty).1 ∧ (a.rest id sd i qty).2 = true := by
  have he : RestsAt id sd i s free a ({ a with free }.enter id sd i qty s) :=
    ⟨rfl, fun _ _ => rfl, congrArg Resting.id enter_info_self, fun _ hx => enter_info_of_ne hx,
      find_enter, rfl, rfl⟩
  unfold Ladder.rest
  rw [hf]
  refine ⟨?_, rfl⟩
  simp only
  split_ifs
  · exact ⟨he.band, he.queue, he.id_eq, he.info, he.find, he.free, he.trades⟩
  · exact he

/-- The slot of the order is put back where it was taken from. -/
theorem RestsAt.cancel {r r' : Ladder} (h : RestsAt id sd i s free a r) (ha : a.Sep)
    (hf : a.free = s :: free) (hid : a.find id = NULL_IDX) (hh : Hit (.cancelOrder id) s r r') :
    Alike a r' ∧ r'.free = a.free ∧ r'.trades = a.trades := by
  have hout : takesOut (r.info s) (.cancelOrder id) := trivial
  have hs : ∀ sd' j, s ∉ a.queue sd' j := fun sd' j hm =>
    ha.not_free hm (hf ▸ List.mem_cons_self)
  refine ⟨⟨hh.band.trans h.band, fun sd' j => ?_, fun sd' j x hx => ?_, fun k => ?_⟩, ?_, ?_⟩
  · rw [hh.queue, if_pos hout, h.queue]
    split_ifs with hc
    · rw [hc.1, hc.2, List.erase_append_right _ (hs sd i), List.erase_cons_head, List.append_nil]
    · exact List.erase_of_not_mem (hs sd' j)
  · have hxs : x ≠ s := fun he => hs sd' j (he ▸ hx)
    rw [hh.info, if_neg fun hc => hxs hc.1, h.info x hxs]
  · rw [hh.find, h.find, h.id_eq]
    by_cases hk : id = k
    · rw [if_pos ⟨hout, hk⟩, ← hk, hid]
    · rw [if_neg fun hc => hk hc.2, if_neg hk]
  · rw [hh.free, if_pos hout, h.free, hf]
  · rw [hh.trades, h.trades]
    exact List.append_nil _

theorem Alike.anchor (a : Ladder) (price : ℕ) : Alike a (a.anchor price) := by
  unfold Ladder.anchor
  split_ifs <;> exact ⟨rfl, fun _ _ => rfl, fun _ _ _ _ => rfl, fun _ => rfl⟩

theorem Alike.trans {b : Ladder} (h : Alike a a') (h' : Alike a' b) : Alike a b where
  band := h'.band.trans h.band
  queue sd i := (h'.queue sd i).trans (h.queue sd i)
  info sd i s hs := (h'.info sd i s (h.queue sd i ▸ hs)).trans (h.info sd i s hs)
  find k := (h'.find k).trans (h.find k)

/-- The ladder `a'` is `a` as far as an insert and a cancel after it are to restore it. -/
structure Restored (a a' : Ladder) : Prop where
  alike : Alike a a'
  best : ∀ sd, a'.tob.best sd = a.tob.best sd
  free : a'.free = a.free
  trades : a'.trades = a.trades

/-- What the calls need of the ladder. -/
structure CanRest (a : Ladder) (id : OrderId) (sd : Side) (price : ℕ) : Prop where
  exact : ∀ sd, a.Exact sd
  window : a.InWindow price
  dead : a.find id = NULL_IDX
  alone : ∀ j, a.queue sd.other j ≠ [] → ¬ sd.other.Crosses (price - a.base) j
  room : a.free ≠ []

theorem Wf.undo (h : a.Wf) (hc : a.CanRest id sd price) {r : Ladder × Bool}
    (hr : r = a.insertLimitOrder id sd price qty) (hw : r.1.Wf) (hqty : 0 < qty) :
    r.2 = true ∧ Restored a (r.1.cancelOrder id) := by
  obtain ⟨hwin, heq⟩ := h.insert_eq_rest hc.window hqty hc.alone
  rw [heq] at hr
  obtain ⟨hb, -⟩ := h.anchor price
  have hlike := Alike.anchor a price
  set b := a.anchor price
  have hbfree : b.free = a.free ∧ b.tob = a.tob ∧ b.trades = a.trades := by
    unfold b Ladder.anchor
    split_ifs <;> exact ⟨rfl, rfl, rfl⟩
  obtain ⟨s, free, hf⟩ := List.exists_cons_of_ne_nil hc.room
  have hbf : b.free = s :: free := hbfree.1.trans hf
  obtain ⟨hrest, htrue⟩ : RestsAt id sd (price - b.base) s free b r.1 ∧ r.2 = true :=
    hr ▸ rest_restsAt hbf
  have hexact : ∀ sd, b.Exact sd := fun sd =>
    (hc.exact sd).mono hlike.band (by rw [hbfree.2.1]) fun j hj => hlike.queue sd j ▸ hj
  have hrexact : ∀ sd, r.1.Exact sd :=
    hr ▸ rest_exact hexact hb.toSep (by obtain ⟨h1, h2⟩ := hwin; omega)
  -- the cancel finds the order that was put in
  have hfind : r.1.find id = s := (hrest.find id).trans (if_pos rfl)
  have hlive : r.1.find id ≠ NULL_IDX := by
    rw [hfind]
    exact hb.toSep.ne_null (hb.free_lt s (hbf ▸ List.mem_cons_self))
  have hdead : b.find id = NULL_IDX := (hlike.find id).trans hc.dead
  have hon : (Op.cancelOrder id).On id := rfl
  have hhit : Hit (.cancelOrder id) (r.1.find id) r.1 (r.1.cancelOrder id) :=
    (hw.step_hit hlive hon).1
  rw [hfind] at hhit
  obtain ⟨hback, hfree, htrades⟩ := hrest.cancel hb.toSep hbf hdead hhit
  have hwf := hw.cancelOrder id
  have hcexact : ∀ sd, (r.1.cancelOrder id).Exact sd := by
    unfold Ladder.cancelOrder
    rw [if_neg hlive]
    exact cancelAt_exact hrexact hw.toSep (hw.ids id hlive).1
  have hall := hlike.trans hback
  exact ⟨htrue, hall,
    fun sd => (hc.exact sd).best_eq (h.top sd) (hcexact sd) (hwf.top sd) (hall.queue sd),
    hfree.trans hbfree.1, htrades.trans hbfree.2.2⟩

end Undo

end Ladder

section Transfer

/-- The ladder of a book whose cached best levels are the best ones is exact. -/
theorem Rep.exact (h : Rep finLaws c a) (hs : a.Sep) (ht : c.TopExact) : ∀ sd, a.Exact sd := by
  rintro (_ | _) <;> refine exact_iff.2 fun j hj => ?_
  · have hocc := (h.mem_occupied hs).2 hj
    have hne : c.tob.bestBid ≠ UINT32_MAX := fun hb => by
      rw [ht.noBid.1 hb] at hocc
      exact hocc
    rw [← h.tob]
    exact ⟨hne, mem_outward_buy.2 ((ht.bid hne).2 hocc)⟩
  · have hocc := (h.mem_occupied hs).2 hj
    have hne : c.tob.bestAsk ≠ UINT32_MAX := fun hb => by
      rw [ht.noAsk.1 hb] at hocc
      exact hocc
    rw [← h.tob]
    exact ⟨hne, mem_outward_sell.2 ⟨(ht.ask hne).2 hocc, hs.lt_band hj⟩⟩

variable {price qty : UInt32}

theorem Rep.undoes (h : Rep finLaws c a) (hw : a.Wf) (hc : a.CanRest id sd price.toNat)
    (hqty : 0 < qty.toNat) : c.Undoes (.insertLimitOrder id sd price qty) id := by
  obtain ⟨c₁, hc₁, hr₁, hw₁⟩ := h.step_eq hw (.insertLimitOrder id sd price qty)
  obtain ⟨c₂, hc₂, hr₂, hw₂⟩ := hr₁.step_eq hw₁ (.cancelOrder id)
  obtain ⟨htrue, hres⟩ := hw.undo hc rfl hw₁ hqty
  have htrue' : (a.step (.insertLimitOrder id sd price qty)).2 = true := htrue
  rw [htrue'] at hc₁
  have hrest : Restored a ((a.step (.insertLimitOrder id sd price qty)).1.step (.cancelOrder id)).1 :=
    hres
  refine ⟨c₁, c₂, hc₁, hc₂, h.sameLevels hr₂ hw.toSep hw₂.toSep hrest.alike, ?_, ?_, ?_, ?_, ?_⟩
  · rw [hr₂.tob, h.tob]
    exact hrest.best .BUY
  · rw [hr₂.tob, h.tob]
    exact hrest.best .SELL
  · rw [hr₂.chain.head_eq, h.chain.head_eq, hrest.free]
  · rw [hr₂.freeSlots_eq hw₂.toSep, h.freeSlots_eq hw.toSep, hrest.free]
  · rw [hr₂.logger, h.logger, hrest.trades]

end Transfer

section Runs

variable {band cap : ℕ} (hband : 0 < band) (hband' : band < 2 ^ 32) (hcap : 0 < cap)
  (hcap' : cap < 2 ^ 32)

include hband hband' hcap hcap'

/-- After every run that leaves the cached best levels exact, a cancel takes back an insert inside the
window that finds a free slot, no live order of its id and no order to trade with. -/
theorem run_undoes (ops : List Op) (hrun : (fresh band cap).run ops = some c) (ht : c.TopExact)
    (id : OrderId) (side : Side) (price qty : UInt32) (hqty : 0 < qty.toNat)
    (hwin : c.inBand (c.toIdx price.toNat)) (hid : c.findId id = some NULL_IDX)
    (hno : ∀ i < (c.levels side.other).size, side.other.Crosses (c.toIdx price.toNat).toNat i →
      c.slots side.other i = [])
    (hfree : c.pool.freeHead ≠ NULL_IDX) : c.Undoes (.insertLimitOrder id side price qty) id := by
  obtain ⟨c', hrun', hrep, hw⟩ := run_fresh hband hband' hcap hcap' ops
  obtain rfl : c' = c := Option.some.inj (hrun'.symm.trans hrun)
  refine hrep.undoes hw
    ⟨hrep.exact hw.toSep ht, (hrep.inBand_iff _).1 hwin, ?_, fun j hj hx => ?_, ?_⟩ hqty
  · rw [hrep.findId_eq, Option.some.injEq] at hid
    exact hid
  · have hlt := hw.toSep.lt_band hj
    have hidx : (c'.toIdx price.toNat).toNat =
        price.toNat - ((Ladder.new band cap).run ops).base := by
      simp only [toIdx, hrep.base]
      omega
    refine hj ?_
    rw [← hrep.slots_eq hw.toSep _ hlt]
    exact hno j ((hrep.levels _).symm ▸ hlt) (hidx.symm ▸ hx)
  · intro hnil
    refine hfree ?_
    rw [hrep.chain.head_eq, hnil]
    rfl

end Runs

section Examples

/-- A bid at 100 and an ask at 103. -/
def quoted : List Op := [.insertLimitOrder 1 .BUY 100 5, .insertLimitOrder 2 .SELL 103 7]

/-- A bid at 101 becomes the best one and is cancelled. -/
theorem run_undoes_quoted : ∃ c, (fresh 16 4).run quoted = some c ∧
    c.Undoes (.insertLimitOrder 3 .BUY 101 9) 3 := by
  obtain ⟨c, hrun, hrep, hw, hs⟩ := Rep.run_sound quoted
    (rep_new (by decide : 0 < 4) (L := finLaws) (m := FinMap.init) rfl)
    (new_wf (by decide) (by decide) (by decide)) (new_sound 16 4) (by decide +kernel)
  have hrun' : (fresh 16 4).run quoted = some c := hrun
  have hval : ((fresh 16 4).run quoted).map (fun c => (decide (c.inBand (c.toIdx 101)),
      c.findId 3, decide (∀ i < (c.levels .SELL).size, Side.SELL.Crosses (c.toIdx 101).toNat i →
        c.slots .SELL i = []), c.pool.freeHead)) = some (true, some NULL_IDX, true, 2) := by
    decide +kernel
  rw [hrun', Option.map_some, Option.some.injEq, Prod.mk.injEq, Prod.mk.injEq, Prod.mk.injEq,
    decide_eq_true_eq, decide_eq_true_eq] at hval
  obtain ⟨hwin, hid, hno, hfree⟩ := hval
  exact ⟨c, hrun', run_undoes (by decide) (by decide) (by decide) (by decide) quoted hrun'
    (hrep.topExact hw hs.exact) 3 .BUY 101 9 (by decide) hwin hid hno (by rw [hfree]; decide)⟩

end Examples

end Nanomatch
