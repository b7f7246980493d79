import Nanomatch.Proofs.Ladder

/-!
# Matching on the ladder

`Core` adds to `Sep` that no slot is lost and that an id found in the map is the id of a resting
order. A match keeps it, works on the levels that its taker's limit crosses, and ends with no
quantity left or no such level left.
-/

namespace Nanomatch

namespace Ladder

section Core

/-- No slot is lost, and the map holds resting orders only. -/
structure Core (a : Ladder) : Prop extends Sep a where
  cover : ∀ s < a.cap, s ∈ a.free ∨ a.Rests s
  ids : ∀ id, a.find id ≠ NULL_IDX → a.Rests (a.find id) ∧ (a.info (a.find id)).id = id
  unset : a.baseSet = false → ∀ sd i, a.queue sd i = []

/-- Every resting order has quantity left. -/
def Pos (a : Ladder) : Prop := ∀ sd i, ∀ s ∈ a.queue sd i, 0 < (a.info s).qty

/-- The cached best level of side `sd` holds an order. -/
def TopOk (a : Ladder) (sd : Side) : Prop :=
  a.tob.best sd = UINT32_MAX ∨ a.queue sd (a.tob.best sd) ≠ []

variable {a : Ladder} {sd : Side} {i s : ℕ}

theorem Core.trade (h : a.Core) (t : Trade) : (a.trade t).Core := { h with }

theorem Core.dropLive (h : a.Core) : a.dropLive.Core := { h with }

theorem Core.setTop (h : a.Core) (sd : Side) (b : ℕ) : (a.setTop sd b).Core := { h with }

theorem Core.setTopQty (h : a.Core) (sd : Side) (i : ℕ) : (a.setTopQty sd i).Core := { h with }

theorem Core.updateBest (h : a.Core) (sd : Side) : (a.updateBest sd).Core := h.setTop _ _

theorem Core.refreshTop (h : a.Core) (sd : Side) (i : ℕ) : (a.refreshTop sd i).Core := by
  unfold Ladder.refreshTop
  split_ifs
  · exact h.updateBest sd
  · exact h.setTopQty sd i
  · exact h

theorem take_info_self (s amount : ℕ) :
    (a.take s amount).info s = { a.info s with qty := (a.info s).qty - amount } :=
  Function.update_self _ _ _

theorem take_info_of_ne {x : ℕ} (hx : x ≠ s) (amount : ℕ) : (a.take s amount).info x = a.info x :=
  Function.update_of_ne hx _ _

theorem take_info (s amount x : ℕ) :
    ((a.take s amount).info x).id = (a.info x).id ∧
    ((a.take s amount).info x).price = (a.info x).price ∧
    ((a.take s amount).info x).side = (a.info x).side ∧
    ((a.take s amount).info x).qty = if x = s then (a.info x).qty - amount else (a.info x).qty := by
  by_cases hx : x = s
  · subst hx; simp [Ladder.take, setInfo]
  · simp [Ladder.take, setInfo, hx]

theorem take_rests {amount x : ℕ} : (a.take s amount).Rests x ↔ a.Rests x := by
  obtain ⟨-, hp, hsd, -⟩ := take_info (a := a) s amount x
  rw [Rests, Rests, hp, hsd]
  exact Iff.rfl

theorem Core.take (h : a.Core) (s amount : ℕ) : (a.take s amount).Core :=
  { h.toSep.take s amount with
    cover := fun x hx => (h.cover x hx).imp_right take_rests.2
    ids := fun id hid => by
      obtain ⟨h1, h2⟩ := h.ids id hid
      exact ⟨take_rests.2 h1, (take_info s amount _).1.trans h2⟩
    unset := h.unset }

theorem Core.retire (h : a.Core) (hs : s ∈ a.queue sd i) : (a.retire sd i s).Core := by
  have hrests : ∀ {x}, x ≠ s → a.Rests x → (a.retire sd i s).Rests x := fun hx hr =>
    (mem_retire h.toSep hs).2 ⟨hr, hx⟩
  refine { h.toSep.retire hs with cover := ?_, ids := ?_, unset := ?_ }
  · intro x hx
    by_cases hxs : x = s
    · exact .inl (hxs ▸ List.mem_cons_self)
    · exact (h.cover x hx).imp (List.mem_cons_of_mem s) (hrests hxs)
  · intro id hid
    have hne : (a.info s).id ≠ id := fun he => hid (if_pos he)
    have hf : (a.retire sd i s).find id = a.find id := if_neg hne
    rw [hf] at hid ⊢
    obtain ⟨h1, h2⟩ := h.ids id hid
    exact ⟨hrests (fun hx => hne (hx ▸ h2)) h1, h2⟩
  · intro hb sd' j
    refine List.eq_nil_iff_forall_not_mem.2 fun x hx => ?_
    have h1 := ((mem_retire h.toSep hs).1 hx).1
    simp [h.unset hb] at h1

theorem Core.fillOne (h : a.Core) (hs : s ∈ a.queue sd i) (takerId : OrderId) (amount : ℕ) :
    (a.fillOne sd i takerId s amount).Core := by
  have h1 := (h.trade ⟨(a.info s).id, takerId, a.base + i, amount⟩).take s amount
  simp only [Ladder.fillOne]
  split_ifs
  · exact (h1.retire hs).dropLive
  · exact h1

end Core

section Frame

/-- `a'` differs from `a` only in the levels `L` of side `sd`: their queues lost some orders, the
orders in them some quantity, and the side's cached top may have moved. -/
structure Frame (sd : Side) (L : ℕ → Prop) (a a' : Ladder) : Prop where
  band : a'.band = a.band
  cap : a'.cap = a.cap
  base : a'.base = a.base
  baseSet : a'.baseSet = a.baseSet
  top : a'.tob.best sd.other = a.tob.best sd.other
  sub : ∀ i, (a'.queue sd i).Sublist (a.queue sd i)
  queue : ∀ sd' i, ¬ (sd' = sd ∧ L i) → a'.queue sd' i = a.queue sd' i
  info : ∀ s, (∀ i, L i → s ∉ a.queue sd i) → a'.info s = a.info s
  id : ∀ s, (a'.info s).id = (a.info s).id
  calls : a.calls <:+ a'.calls

variable {a a' a'' : Ladder} {sd : Side} {L : ℕ → Prop} {i s : ℕ}

theorem Frame.refl (sd : Side) (L : ℕ → Prop) (a : Ladder) : Frame sd L a a :=
  ⟨rfl, rfl, rfl, rfl, rfl, fun _ => List.Sublist.refl _, fun _ _ _ => rfl, fun _ _ => rfl,
    fun _ => rfl, List.suffix_refl _⟩

theorem Frame.trans (h : Frame sd L a a') (h' : Frame sd L a' a'') : Frame sd L a a'' where
  band := h'.band.trans h.band
  cap := h'.cap.trans h.cap
  base := h'.base.trans h.base
  baseSet := h'.baseSet.trans h.baseSet
  top := h'.top.trans h.top
  sub i := (h'.sub i).trans (h.sub i)
  queue sd' i hL := (h'.queue sd' i hL).trans (h.queue sd' i hL)
  info s hs := (h'.info s fun i hi hm => hs i hi ((h.sub i).subset hm)).trans (h.info s hs)
  id s := (h'.id s).trans (h.id s)
  calls := h.calls.trans h'.calls

theorem Frame.mono {L' : ℕ → Prop} (h : Frame sd L a a') (hL : ∀ i, L i → L' i) :
    Frame sd L' a a' where
  band := h.band
  cap := h.cap
  base := h.base
  baseSet := h.baseSet
  top := h.top
  sub := h.sub
  queue sd' i hn := h.queue sd' i fun hc => hn ⟨hc.1, hL i hc.2⟩
  info s hs := h.info s fun i hi => hs i (hL i hi)
  id := h.id
  calls := h.calls

theorem best_setTop (t : TopOfBook) (b q : ℕ) (sd : Side) : (t.setTop b q sd).best sd = b := by
  cases sd <;> rfl

theorem best_setTop_other (t : TopOfBook) (b q : ℕ) (sd : Side) :
    (t.setTop b q sd).best sd.other = t.best sd.other := by
  cases sd <;> rfl

theorem best_setQty (t : TopOfBook) (q : ℕ) (sd sd' : Side) :
    (t.setQty q sd).best sd' = t.best sd' := by
  cases sd <;> cases sd' <;> rfl

theorem frame_setTop (b : ℕ) : Frame sd L a (a.setTop sd b) :=
  { Frame.refl sd L a with top := best_setTop_other _ _ _ _ }

theorem frame_setTopQty (j : ℕ) : Frame sd L a (a.setTopQty sd j) :=
  { Frame.refl sd L a with top := best_setQty _ _ _ _ }

/-- Everything a single trade changes, but for the queues and the orders. -/
theorem fillOne_fields (a : Ladder) (sd : Side) (i s : ℕ) (t : OrderId) (m : ℕ) :
    let a' := a.fillOne sd i t s m
    a'.band = a.band ∧ a'.cap = a.cap ∧ a'.base = a.base ∧ a'.baseSet = a.baseSet ∧
      a'.tob = a.tob ∧ a'.info = (a.take s m).info ∧ a.calls <:+ a'.calls := by
  simp only [fillOne]
  split_ifs <;>
    simp [retire, unlink, setQueue, trade, Ladder.take, eraseId, setInfo, release, dropLive]

theorem fillOne_queue {takerId : OrderId} {amount : ℕ} (sd' : Side) (j : ℕ) :
    (a.fillOne sd i takerId s amount).queue sd' j =
      if sd' = sd ∧ j = i ∧ (a.info s).qty ≤ amount then (a.queue sd i).erase s
      else a.queue sd' j := by
  by_cases hq : (a.info s).qty ≤ amount
  · simp [fillOne, Nat.sub_eq_zero_of_le hq, hq, retire, unlink, setQueue, trade, Ladder.take,
      eraseId, setInfo, release, dropLive]
  · simp [fillOne, Nat.sub_ne_zero_of_lt (Nat.lt_of_not_le hq), hq, trade, Ladder.take, setInfo]

theorem fillOne_frame {takerId : OrderId} {amount : ℕ} (hs : s ∈ a.queue sd i) :
    Frame sd (· = i) a (a.fillOne sd i takerId s amount) := by
  obtain ⟨hband, hcap, hbase, hset, htob, hinfo, hcalls⟩ :=
    fillOne_fields a sd i s takerId amount
  refine ⟨hband, hcap, hbase, hset, by rw [htob], ?_, ?_, ?_, ?_, hcalls⟩
  · intro j
    rw [fillOne_queue]
    split_ifs with h
    · rw [h.2.1]
      exact List.erase_sublist
    · exact List.Sublist.refl _
  · intro sd' j hn
    rw [fillOne_queue, if_neg]
    exact fun h => hn ⟨h.1, h.2.1⟩
  · intro x hx
    have hxs : x ≠ s := fun h => hx i rfl (h ▸ hs)
    rw [hinfo, Ladder.take, setInfo]
    exact Function.update_of_ne hxs _ _
  · intro x
    rw [hinfo, (take_info s amount x).1]

theorem fillOne_pos {takerId : OrderId} {amount : ℕ} (h : a.Sep) (hpos : a.Pos)
    (hs : s ∈ a.queue sd i) : (a.fillOne sd i takerId s amount).Pos := by
  intro sd' j x hx
  rw [(fillOne_fields a sd i s takerId amount).2.2.2.2.2.1, (take_info s amount x).2.2.2]
  have hxa : x ∈ a.queue sd' j := by
    rw [fillOne_queue] at hx
    split_ifs at hx with hc
    · rw [hc.1, hc.2.1]; exact List.mem_of_mem_erase hx
    · exact hx
  split_ifs with hxs
  · subst hxs
    obtain ⟨rfl, rfl⟩ := h.unique hs hxa
    rw [fillOne_queue] at hx
    split_ifs at hx with hc
    · exact absurd hx (h.nodup _ _).not_mem_erase
    · have : ¬ (a.info x).qty ≤ amount := fun hle => hc ⟨rfl, rfl, hle⟩
      omega
  · exact hpos sd' j x hxa

end Frame

section Fill

variable {sd : Side} {i : ℕ} {t : OrderId}

theorem fill_zero : ∀ (queue : List ℕ) (a : Ladder), fill sd i t queue a 0 = (a, 0)
  | [], _ => rfl
  | _ :: _, _ => rfl

/-- What holds after a taker went through a level. -/
structure Filled (sd : Side) (i : ℕ) (a : Ladder) (r : Ladder × ℕ) : Prop where
  core : r.1.Core
  pos : r.1.Pos
  frame : Frame sd (· = i) a r.1
  tob : r.1.tob = a.tob
  done : r.2 = 0 ∨ r.1.queue sd i = []

theorem fill_le : ∀ (queue : List ℕ) (a : Ladder) (remaining : ℕ),
    (fill sd i t queue a remaining).2 ≤ remaining
  | [], _, _ => le_rfl
  | s :: queue, a, remaining => by
    rw [fill]
    split_ifs
    · exact Nat.zero_le _
    · exact (fill_le queue _ _).trans (Nat.sub_le _ _)

theorem fill_spec : ∀ (queue : List ℕ) (a : Ladder) (remaining : ℕ), a.queue sd i = queue →
    a.Core → a.Pos → Filled sd i a (fill sd i t queue a remaining)
  | [], a, remaining, hq, hc, hpos => ⟨hc, hpos, Frame.refl _ _ _, rfl, .inr hq⟩
  | s :: queue, a, remaining, hq, hc, hpos => by
    rw [fill]
    split_ifs with hr
    · exact ⟨hc, hpos, Frame.refl _ _ _, rfl, .inl rfl⟩
    · have hs : s ∈ a.queue sd i := hq ▸ List.mem_cons_self
      set amount := min remaining (a.info s).qty with hamount
      have hc' := hc.fillOne hs t amount
      have hpos' : (a.fillOne sd i t s amount).Pos := fillOne_pos hc.toSep hpos hs
      have hfr : Frame sd (· = i) a (a.fillOne sd i t s amount) := fillOne_frame hs
      have htob : (a.fillOne sd i t s amount).tob = a.tob :=
        (fillOne_fields a sd i s t amount).2.2.2.2.1
      by_cases hle : (a.info s).qty ≤ amount
      · have hq' : (a.fillOne sd i t s amount).queue sd i = queue := by
          rw [fillOne_queue, if_pos ⟨rfl, rfl, hle⟩, hq, List.erase_cons_head]
        obtain ⟨h1, h2, h3, h4, h5⟩ := fill_spec queue _ (remaining - amount) hq' hc' hpos'
        exact ⟨h1, h2, hfr.trans h3, h4.trans htob, h5⟩
      · have hrem : remaining - amount = 0 := by omega
        simp only [hrem, fill_zero]
        exact ⟨hc', hpos', hfr, htob, .inl rfl⟩

end Fill

section Sweep

variable {sd : Side} {takerId : OrderId} {limit : ℕ}

theorem candidates_of_top {a : Ladder} (h : a.TopOk sd) (hb : a.tob.best sd ≠ UINT32_MAX)
    (hlt : a.tob.best sd < a.band) : ∃ l, a.candidates sd = a.tob.best sd :: l := by
  have hq := h.resolve_left hb
  have hmem : a.tob.best sd ∈ a.outward sd (a.tob.best sd) := by
    cases sd
    · exact mem_outward_buy.2 le_rfl
    · exact mem_outward_sell.2 ⟨le_rfl, hlt⟩
  rw [candidates, if_neg hb, occupied]
  cases sd with
  | BUY =>
    refine ⟨((List.range a.tob.bestBid).reverse).filter (a.queue .BUY · ≠ []), ?_⟩
    have hq' : a.queue .BUY a.tob.bestBid ≠ [] := hq
    simp [outward, TopOfBook.best, List.range_succ, hq']
  | SELL =>
    have hlt' : a.tob.bestAsk < a.band := hlt
    refine ⟨(List.range' (a.tob.bestAsk + 1) (a.band - a.tob.bestAsk - 1)).filter
      (a.queue .SELL · ≠ []), ?_⟩
    have hq' : a.queue .SELL a.tob.bestAsk ≠ [] := hq
    have h1 : a.band - a.tob.bestAsk = a.band - a.tob.bestAsk - 1 + 1 := by omega
    rw [outward, TopOfBook.best, h1, List.range'_succ]
    simp [hq']

theorem firstOf_ne {a : Ladder} (h : a.Sep) {l : List ℕ} (hl : ∀ i ∈ l, a.queue sd i ≠ [])
    (hne : l ≠ []) : firstOf l ≠ UINT32_MAX := by
  have h1 := h.lt_band (hl _ (firstOf_mem hne))
  have h2 := h.band_lt
  simp only [UINT32_MAX]
  omega

/-- The next levels are the candidates once the best level lost its last order. -/
theorem candidates_setTop {a : Ladder} (h : a.Sep) {start : ℕ} {l : List ℕ}
    (hl : a.occupied sd start = l) : (a.setTop sd (firstOf l)).candidates sd = l := by
  have hmem : ∀ i ∈ l, a.queue sd i ≠ [] := fun i hi => (mem_occupied.1 (hl ▸ hi)).2
  have hbest : (a.setTop sd (firstOf l)).tob.best sd = firstOf l := best_setTop _ _ _ _
  rw [candidates, hbest]
  rcases l with _ | ⟨x, l⟩
  · exact if_pos rfl
  · rw [if_neg (firstOf_ne h hmem (List.cons_ne_nil x l))]
    exact occupied_head hl

theorem setTop_topOk {a : Ladder} {l : List ℕ} (hl : ∀ i ∈ l, a.queue sd i ≠ []) :
    (a.setTop sd (firstOf l)).TopOk sd := by
  have hbest : (a.setTop sd (firstOf l)).tob.best sd = firstOf l := best_setTop _ _ _ _
  rw [TopOk, hbest]
  rcases l with _ | ⟨x, l⟩
  · exact .inl rfl
  · exact .inr (hl _ (firstOf_mem (List.cons_ne_nil x l)))

theorem candidates_occupied {a : Ladder} {x : ℕ} {l : List ℕ} (h : a.candidates sd = x :: l) :
    a.occupied sd (a.tob.best sd) = x :: l := by
  rw [candidates] at h
  split_ifs at h with hb
  exact h

theorem best_of_candidates {a : Ladder} {x : ℕ} {l : List ℕ} (hs : a.Sep) (h : a.TopOk sd)
    (hl : a.candidates sd = x :: l) : a.tob.best sd = x := by
  have hb : a.tob.best sd ≠ UINT32_MAX := fun hb => by
    rw [candidates, if_pos hb] at hl
    exact absurd hl (List.cons_ne_nil x l).symm
  obtain ⟨l', hl'⟩ := candidates_of_top h hb (hs.lt_band (h.resolve_left hb))
  exact (List.cons.inj (hl'.symm.trans hl)).1

/-- What holds after a taker went through a side of the book. -/
structure Swept (sd : Side) (limit : ℕ) (a : Ladder) (r : Ladder × ℕ) : Prop where
  core : r.1.Core
  pos : r.1.Pos
  frame : Frame sd (fun i => sd.Crosses limit i) a r.1
  top : r.1.TopOk sd
  /-- No level ahead of the cached best one is forgotten. -/
  kept : ∀ i ∈ a.candidates sd, r.1.queue sd i ≠ [] → i ∈ r.1.candidates sd
  done : r.2 = 0 ∨ ∀ i l, r.1.candidates sd = i :: l → ¬ sd.Crosses limit i

theorem sweep_le : ∀ (levels : List ℕ) (a : Ladder) (remaining : ℕ),
    (sweep sd takerId limit levels a remaining).2 ≤ remaining
  | [], _, _ => le_rfl
  | i :: levels, a, remaining => by
    have h1 : (fill sd i takerId (a.queue sd i) a remaining).2 ≤ remaining := fill_le _ _ _
    rw [sweep]
    simp only
    split_ifs
    · exact le_rfl
    · exact (sweep_le levels _ _).trans h1
    · exact h1

theorem sweep_spec {t : OrderId} {l : ℕ} : ∀ (levels : List ℕ) (a : Ladder) (remaining : ℕ),
    a.candidates sd = levels → a.Core → a.Pos → a.TopOk sd →
    Swept sd l a (sweep sd t l levels a remaining)
  | [], a, remaining, hl, hc, hpos, htop =>
    ⟨hc, hpos, Frame.refl _ _ _, htop, fun _ hi _ => hi, .inr fun i is hi => by
      rw [sweep, hl] at hi; exact absurd hi (List.cons_ne_nil i is).symm⟩
  | i :: levels, a, remaining, hl, hc, hpos, htop => by
    have hstop : ∀ i' is, a.candidates sd = i' :: is → i' = i := fun i' is h => by
      rw [hl] at h; exact (List.cons.inj h).1.symm
    rw [sweep]
    split_ifs with hr
    · exact ⟨hc, hpos, Frame.refl _ _ _, htop, fun _ hi _ => hi,
        hr.imp_right fun hx i' is h => hstop i' is h ▸ hx⟩
    push Not at hr
    obtain ⟨h1, h2, h3, h4, h5⟩ := fill_spec (t := t) _ a remaining rfl hc hpos
    simp only
    set r := fill sd i t (a.queue sd i) a remaining
    split_ifs with hq
    · have ho : r.1.occupied sd (a.tob.best sd) = levels := by
        refine occupied_of_emptied h3.band (fun j => ?_) (candidates_occupied hl)
        split_ifs with hj
        · rw [hj, hq]
        · exact h3.queue sd j fun hc => hj hc.2
      have hcand := candidates_setTop h1.toSep ho
      have hne : ∀ j ∈ levels, r.1.queue sd j ≠ [] := fun j hj => (mem_occupied.1 (ho ▸ hj)).2
      have hs := sweep_spec (t := t) (l := l) levels _ r.2 hcand (h1.setTop sd _) h2 (setTop_topOk hne)
      refine ⟨hs.core, hs.pos, ?_, hs.top, ?_, hs.done⟩
      · exact ((h3.mono fun j hj => hj ▸ hr.2).trans (frame_setTop _)).trans hs.frame
      · intro j hj hjq
        refine hs.kept j ?_ hjq
        rw [hcand]
        rcases List.mem_cons.1 (hl ▸ hj) with rfl | hj
        · have hsub := hs.frame.sub j
          rw [show (r.1.setTop sd (firstOf levels)).queue sd j = [] from hq] at hsub
          exact absurd (List.sublist_nil.1 hsub) hjq
        · exact hj
    · have hb : a.tob.best sd = i := best_of_candidates hc.toSep htop hl
      have hbest : (r.1.setTopQty sd i).tob.best sd = i := by
        rw [setTopQty, best_setQty, h4, hb]
      refine ⟨h1.setTopQty sd i, h2, (h3.mono fun j hj => hj ▸ hr.2).trans (frame_setTopQty i),
        .inr ?_, ?_, .inl (h5.resolve_right hq)⟩
      · simp only [hbest]
        exact hq
      intro j hj hjq
      have hlt := h1.toSep.lt_band hq
      have hmax := h1.toSep.band_lt
      rw [candidates, hbest, if_neg (by simp only [UINT32_MAX]; omega)]
      have hj' := (mem_occupied.1 (hb ▸ candidates_occupied hl ▸ hl ▸ hj)).1
      refine mem_occupied.2 ⟨?_, hjq⟩
      cases sd with
      | BUY => exact hj'
      | SELL => simpa [setTopQty, h3.band] using hj'

end Sweep

end Ladder

end Nanomatch
