import Nanomatch.Proofs.RefineMatch
import Nanomatch.Proofs.RefineRebase

/-!
# The book refines the ladder

Every operation on a book that represents a well-formed ladder succeeds, returns what the ladder's
operation returns and leaves a book that represents the ladder after it, as long as the calls made
on the id map are good. So does every run (`Rep.run`).
-/

namespace Nanomatch

open LinkedList WordBits OrderBook Ladder

variable {M : Type} [IdMapOps M] {L : IdMapLaws M} {c : OrderBook M} {a : Ladder} {sd : Side}
  {i s price qty : ℕ} {id : OrderId}

theorem Ladder.Wf.bestBid (hw : a.Wf) : a.tob.bestBid = UINT32_MAX ∨ a.tob.bestBid < a.band :=
  (hw.top .BUY).imp_right fun hq => hw.toSep.lt_band hq

namespace Rep

section Leave

/-- `cancel_order` and the full path of `execute_order`: the order leaves and the top of book is
refreshed. -/
theorem leave (h : Rep L c a) (hw : a.Wf) (hs : a.Rests s)
    (hg : L.Good (a.retire (a.info s).side (a.info s).price s).calls) :
    ∃ c1 c2 c3, c.levelRemove (a.info s).side (a.info s).price s = some c1 ∧
      c1.eraseId (a.info s).id = some c2 ∧ c2.deallocate s = some c3 ∧
      (∃ c4, c3.refreshTop (a.info s).side (a.info s).price = some c4 ∧ Rep L c4 (a.cancelAt s)) ∧
      ∃ c4, c3.dropLive.refreshTop (a.info s).side (a.info s).price = some c4 ∧
        Rep L c4 ((a.retire (a.info s).side (a.info s).price s).dropLive.refreshTop
          (a.info s).side (a.info s).price) := by
  obtain ⟨c1, c2, c3, h1, h2, h3, hr3⟩ := h.retire hw.toSep hs hg
  have hs3 := hw.toSep.retire hs
  have hi := hw.toSep.level_lt hs
  exact ⟨c1, c2, c3, h1, h2, h3, hr3.refreshTop hs3 hi hw.bestBid,
    hr3.dropLive.refreshTop hs3.dropLive hi hw.bestBid⟩

theorem refreshTop_calls (sd : Side) (i : ℕ) : (a.refreshTop sd i).calls = a.calls := by
  unfold Ladder.refreshTop
  split_ifs <;> rfl

theorem cancelAt_calls (s : ℕ) :
    (a.cancelAt s).calls = (a.retire (a.info s).side (a.info s).price s).calls :=
  refreshTop_calls _ _

theorem readOrder_eq (h : Rep L c a) (hw : a.Wf) (hs : a.Rests s) :
    ∃ o, c.readOrder s = some o ∧ o.id = (a.info s).id ∧ o.price = (a.info s).price ∧
      o.qty = (a.info s).qty ∧ o.side = (a.info s).side := by
  obtain ⟨o, ho, -, hd⟩ := h.readOrder hw.toSep hs
  exact ⟨o, ho, by rw [← hd]; rfl, by rw [← hd]; rfl, by rw [← hd]; rfl, by rw [← hd]; rfl⟩

theorem cancelOrder (h : Rep L c a) (hw : a.Wf) (hg : L.Good (a.cancelOrder id).calls) :
    ∃ c', c.cancelOrder id = some c' ∧ Rep L c' (a.cancelOrder id) := by
  have hga : L.Good a.calls := by
    refine L.good_of_suffix ?_ hg
    unfold Ladder.cancelOrder
    split_ifs
    · exact List.suffix_refl _
    · rw [cancelAt_calls]; exact List.suffix_cons _ _
  unfold Ladder.cancelOrder at hg ⊢
  split_ifs at hg ⊢ with hid
  · exact ⟨c, bind_some (h.findId hga id) (if_pos hid), h⟩
  obtain ⟨hr, hinfo⟩ := hw.ids id hid
  obtain ⟨o, ho, -, hprice, -, hside⟩ := h.readOrder_eq hw hr
  obtain ⟨c1, c2, c3, h1, h2, h3, ⟨c4, h4, hr4⟩, -⟩ := h.leave hw hr (cancelAt_calls _ ▸ hg)
  rw [hinfo] at h2
  refine ⟨c4, bind_some (h.findId hga id) ?_, hr4⟩
  rw [if_neg hid]
  refine bind_some ho ?_
  rw [hprice, hside]
  exact bind_some h1 (bind_some h2 (bind_some h3 h4))

theorem takePartly (h : Rep L c a) (hw : a.Wf) (hs : a.Rests s) {amount : ℕ}
    (hle : amount ≤ (a.info s).qty) :
    ∃ c', c.takePartly (a.info s).side (a.info s).price s amount = some c' ∧
      Rep L c' (a.takePartly s amount) := by
  obtain ⟨c1, c2, h1, h2, hr⟩ := h.take hw.toSep hs hle
  have hi : (a.info s).price < (a.take s amount).band := hw.toSep.level_lt hs
  have hread : c2.readLevel (a.info s).side (a.info s).price = some _ := hr.readLevel hi
  have htob : c2.tob = a.tob := hr.tob
  cases hsd : (a.info s).side with
  | BUY =>
    rw [hsd] at hread h2
    by_cases hb : (a.info s).price = a.tob.bestBid
    · refine ⟨_, bind_some h1 (bind_some h2 (bind_some hread rfl)), ?_⟩
      have hb' : (a.info s).price = c2.tob.bestBid := by rw [htob]; exact hb
      have hba : (a.info s).price = a.tob.best .BUY := hb
      rw [if_pos ⟨rfl, hb'⟩, Ladder.takePartly, hsd, if_pos hba]
      exact hr.bidQty hi
    · refine ⟨_, bind_some h1 (bind_some h2 (bind_some hread rfl)), ?_⟩
      have hb' : ¬ (a.info s).price = c2.tob.bestBid := by rw [htob]; exact hb
      have hba : ¬ (a.info s).price = a.tob.best .BUY := hb
      rw [if_neg fun h => hb' h.2, if_neg fun h => Side.noConfusion h.1, Ladder.takePartly, hsd,
        if_neg hba]
      exact hr
  | SELL =>
    rw [hsd] at hread h2
    by_cases hb : (a.info s).price = a.tob.bestAsk
    · refine ⟨_, bind_some h1 (bind_some h2 (bind_some hread rfl)), ?_⟩
      have hb' : (a.info s).price = c2.tob.bestAsk := by rw [htob]; exact hb
      have hba : (a.info s).price = a.tob.best .SELL := hb
      rw [if_neg fun h => Side.noConfusion h.1, if_pos ⟨rfl, hb'⟩, Ladder.takePartly, hsd,
        if_pos hba]
      exact hr.askQty hi
    · refine ⟨_, bind_some h1 (bind_some h2 (bind_some hread rfl)), ?_⟩
      have hb' : ¬ (a.info s).price = c2.tob.bestAsk := by rw [htob]; exact hb
      have hba : ¬ (a.info s).price = a.tob.best .SELL := hb
      rw [if_neg fun h => Side.noConfusion h.1, if_neg fun h => hb' h.2, Ladder.takePartly, hsd,
        if_neg hba]
      exact hr

theorem takePartly_calls (s amount : ℕ) : (a.takePartly s amount).calls = a.calls := by
  unfold Ladder.takePartly
  split_ifs <;> rfl

theorem executeOrder (h : Rep L c a) (hw : a.Wf) {fillQty : ℕ}
    (hg : L.Good (a.executeOrder id fillQty).1.calls) :
    ∃ c', c.executeOrder id fillQty = some (c', (a.executeOrder id fillQty).2) ∧
      Rep L c' (a.executeOrder id fillQty).1 := by
  have hga : L.Good a.calls := by
    refine L.good_of_suffix ?_ hg
    unfold Ladder.executeOrder Ladder.executeAt
    simp only
    split_ifs
    · exact List.suffix_refl _
    · rw [refreshTop_calls]; exact List.suffix_cons _ _
    · rw [takePartly_calls]; exact List.suffix_refl _
  unfold Ladder.executeOrder at hg ⊢
  split_ifs at hg ⊢ with hid
  · exact ⟨c, bind_some (h.findId hga id) (if_pos hid), h⟩
  obtain ⟨hr, hinfo⟩ := hw.ids id hid
  obtain ⟨o, ho, hoid, hprice, hqty, hside⟩ := h.readOrder_eq hw hr
  have hi := hw.toSep.level_lt hr
  have habs := h.price _ _ (List.ne_nil_of_mem hr)
  unfold Ladder.executeAt at hg ⊢
  simp only at hg ⊢
  split_ifs at hg ⊢ with hle
  · set t : Trade := ⟨(a.info (a.find id)).id, 0, a.base + (a.info (a.find id)).price,
      min fillQty (a.info (a.find id)).qty⟩ with ht
    have hmin : min fillQty (a.info (a.find id)).qty = (a.info (a.find id)).qty :=
      Nat.min_eq_right hle
    rw [refreshTop_calls] at hg
    obtain ⟨c1, c2, c3, h1, h2, h3, -, ⟨c4, h4, hr4⟩⟩ := (h.trade t).leave (hw.trade t) hr hg
    rw [show (a.trade t).info = a.info from rfl, hinfo] at h2
    refine ⟨c4, bind_some (h.findId hga id) ?_, hr4⟩
    rw [if_neg hid]
    refine bind_some ho ?_
    simp only [hoid, hprice, hqty, hside]
    refine bind_some (h.readLevel hi) ?_
    rw [if_pos hle, habs]
    rw [ht, hmin] at h1
    exact bind_some h1 (bind_some h2 (bind_some h3 (bind_some h4 rfl)))
  · set t : Trade := ⟨(a.info (a.find id)).id, 0, a.base + (a.info (a.find id)).price,
      min fillQty (a.info (a.find id)).qty⟩ with ht
    have hmin : min fillQty (a.info (a.find id)).qty = fillQty :=
      Nat.min_eq_left (Nat.le_of_not_le hle)
    obtain ⟨c1, h1, hr1⟩ := (h.trade t).takePartly (hw.trade t) hr
      (show fillQty ≤ _ from Nat.le_of_not_le hle)
    refine ⟨c1, bind_some (h.findId hga id) ?_, hr1⟩
    rw [if_neg hid]
    refine bind_some ho ?_
    simp only [hoid, hprice, hqty, hside]
    refine bind_some (h.readLevel hi) ?_
    rw [if_neg hle, habs]
    rw [ht, hmin] at h1
    exact bind_some h1 rfl

theorem reduceOrderQty (h : Rep L c a) (hw : a.Wf) {cancelQty : ℕ}
    (hg : L.Good (a.reduceOrderQty id cancelQty).1.calls) :
    ∃ c', c.reduceOrderQty id cancelQty = some (c', (a.reduceOrderQty id cancelQty).2) ∧
      Rep L c' (a.reduceOrderQty id cancelQty).1 := by
  have hga : L.Good a.calls := by
    refine L.good_of_suffix ?_ hg
    unfold Ladder.reduceOrderQty
    split_ifs
    · exact List.suffix_refl _
    · rw [cancelAt_calls]; exact List.suffix_cons _ _
    · rw [takePartly_calls]
  unfold Ladder.reduceOrderQty at hg ⊢
  split_ifs at hg ⊢ with hid hle
  · exact ⟨c, bind_some (h.findId hga id) (if_pos hid), h⟩
  all_goals
    obtain ⟨hr, hinfo⟩ := hw.ids id hid
    obtain ⟨o, ho, -, hprice, hqty, hside⟩ := h.readOrder_eq hw hr
  · have hcancel : a.cancelOrder id = a.cancelAt (a.find id) := if_neg hid
    obtain ⟨c1, h1, hr1⟩ := h.cancelOrder hw (hcancel ▸ hg)
    refine ⟨c1, bind_some (h.findId hga id) ?_, hcancel ▸ hr1⟩
    rw [if_neg hid]
    refine bind_some ho ?_
    rw [hqty, if_pos hle]
    exact bind_some h1 rfl
  · obtain ⟨c1, h1, hr1⟩ := h.takePartly hw hr (Nat.le_of_not_le hle)
    refine ⟨c1, bind_some (h.findId hga id) ?_, hr1⟩
    rw [if_neg hid]
    refine bind_some ho ?_
    rw [hqty, if_neg hle, hside, hprice]
    exact bind_some h1 rfl

theorem processMarketOrder (h : Rep L c a) (hw : a.Wf)
    (hg : L.Good (a.processMarketOrder sd qty).calls) :
    ∃ c', c.processMarketOrder sd qty = some c' ∧ Rep L c' (a.processMarketOrder sd qty) := by
  cases sd with
  | BUY =>
    have hlim : a.band - 1 < UINT32_MAX := by
      have := hw.band_lt
      simp only [UINT32_MAX]
      omega
    have hsize : c.asks.size = a.band := h.levels .SELL
    obtain ⟨c', h', hr'⟩ := h.matchAgainstAsks hw hlim qty hg
    have hrun : c.matchAgainstAsks 0 (c.asks.size - 1) qty =
        some (c', (a.matchAgainst .SELL 0 (a.band - 1) qty).2) := by rw [hsize]; exact h'
    exact ⟨c', bind_some hrun rfl, hr'⟩
  | SELL =>
    obtain ⟨c', h', hr'⟩ := h.matchAgainstBids hw qty hg
    exact ⟨c', bind_some h' rfl, hr'⟩

end Leave

section Insert

variable (better : OrderBook M → Bool) (setBest : OrderBook M → ℕ → OrderBook M)

/-- The remainder of an order rests. -/
theorem rest (h : Rep L c a) (hw : a.Wf) (hi : i < a.band) (hprice : price = a.base + i)
    (hbetter : ∀ c : OrderBook M, better c = true ↔ sd.Better i (c.tob.best sd))
    (hbest : ∀ (c : OrderBook M) (volume : ℕ),
      setBest c volume = { c with tob := c.tob.setTop i volume sd })
    (hg : L.Good (a.rest id sd i qty).1.calls) :
    ∃ c', c.restOrder id sd price i qty better setBest = some (c', (a.rest id sd i qty).2) ∧
      Rep L c' (a.rest id sd i qty).1 := by
  have hs := hw.toSep
  rw [Ladder.rest] at hg ⊢
  split at hg
  · rename_i hf
    exact ⟨c, bind_some (h.allocate_none hf) (if_pos rfl), h⟩
  rename_i s free hf
  simp only at hg ⊢
  have hsf : s ∈ a.free := hf ▸ List.mem_cons_self
  have hlt := hs.free_lt s hsf
  have hq : ∀ sd i, s ∉ a.queue sd i := fun sd i hx => hs.not_free hx hsf
  have hnf : s ∉ free := (List.nodup_cons.1 (hf ▸ hs.free_nodup)).1
  have hg' : L.Good (.insert id s :: a.calls) := by
    split_ifs at hg <;> exact hg
  obtain ⟨pool, hpool, h1⟩ := h.allocate hs hf
  have hlt1 : s < ({ c with pool } : OrderBook M).pool.pool.size := by rw [h1.pool]; exact hlt
  set o : Order := { pool.pool.cell s with id, price := i, qty := qty, side := sd } with ho
  set a2 : Ladder := { a with free }.setInfo s ⟨id, i, qty, sd⟩ with ha2
  have h2 : Rep L (({ c with pool } : OrderBook M).setOrder s o) a2 :=
    h1.setSpare hq ⟨id, i, qty, sd⟩ fun hx => absurd hx hnf
  set c2 := ({ c with pool } : OrderBook M).setOrder s o
  have hs2 : a2.Sep := by
    have hne : ∀ {sd j x}, x ∈ a.queue sd j → a2.info x = a.info x := fun hx =>
      Function.update_of_ne (fun he => hq _ _ (he ▸ hx)) _ _
    exact { hs with
      free_nodup := (List.nodup_cons.1 (hf ▸ hs.free_nodup)).2
      free_lt := fun x hx => hs.free_lt x (hf ▸ List.mem_cons_of_mem s hx)
      side_eq := fun hx => by rw [hne hx]; exact hs.side_eq hx
      price_eq := fun hx => by rw [hne hx]; exact hs.price_eq hx
      qty_lt := fun hx => by rw [hne hx]; exact hs.qty_lt hx
      not_free := fun hx hx' => hs.not_free hx (hf ▸ List.mem_cons_of_mem s hx') }
  have hinfo : a2.info s = ⟨id, i, qty, sd⟩ := Function.update_self _ _ _
  obtain ⟨c3, hc3, h3, hp3, hd3⟩ : ∃ c3, (if (c2.levelAt sd i).empty then
      c2.modifyLevel sd i fun l => { l with price := price } else some c2) = some c3 ∧
      Rep L c3 a2 ∧ (c3.levelAt sd i).price = a.base + i ∧ c3.pool = c2.pool := by
    by_cases he : a2.queue sd i = []
    · refine ⟨c2.setLevel sd i { c2.levelAt sd i with price }, ?_, h2.setLevelPrice hi price he, ?_,
        setLevel_pool _ _ _ _⟩
      · rw [if_pos ((h2.empty_iff hi).2 he)]
        exact modifyLevel_of_lt (h2.level_lt hi) _
      · rw [levelAt_setLevel, if_pos ⟨rfl, rfl⟩]
        exact hprice
    · exact ⟨c2, if_neg (mt (h2.empty_iff hi).1 he), h2, h2.price sd i he, rfl⟩
  have hd : (c3.pool.pool.cell s).resting = a2.info s := by
    rw [hd3, hinfo]
    simp [c2, ho, Order.resting]
  obtain ⟨c4, hc4, h4⟩ := h3.levelAppend hs2 hq hnf hlt hi hd (by rw [hinfo]) hp3
  obtain ⟨c5, hc5, h5⟩ := h4.insertId id hg'
  have h6 := h5.addLive
  set c6 : OrderBook M := { c5 with liveOrderCount := add32 c5.liveOrderCount 1 }
  have hvol : (c6.levelAt sd i).totalVolume = _ := h6.volume_eq hi
  have hread : c6.readLevel sd i = some _ := h6.readLevel hi
  have hrun : c.restOrder id sd price i qty better setBest =
      some (if better c6 then setBest c6 (c6.levelAt sd i).totalVolume else c6, true) := by
    refine bind_some hpool ((if_neg (hs.ne_null hlt)).trans ?_)
    refine bind_some (modifyOrder_of_lt hlt1 _) (bind_some (h2.readLevel hi) (bind_some hc3 ?_))
    exact bind_some hc4 (bind_some hc5 (bind_some hread rfl))
  refine ⟨_, hrun, ?_⟩
  have hb : better c6 = true ↔ sd.Better i (({ a with free }.enter id sd i qty s).tob.best sd) := by
    rw [hbetter, h6.tob]
    rfl
  split_ifs with hb1 hb2 hb2
  · rw [hbest]
    exact h6.setTop_found hi _ rfl
  · exact absurd (hb.1 hb1) hb2
  · exact absurd (hb.2 hb2) hb1
  · exact h6

theorem anchor (h : Rep L c a) (hw : a.Wf) (price : ℕ) : Rep L (c.anchor price) (a.anchor price) := by
  have hsize : c.bids.size = a.band := h.levels .BUY
  unfold OrderBook.anchor Ladder.anchor
  rw [h.baseSet, hsize]
  split_ifs with hset
  · exact h
  · exact h.setBase (hw.unset (by simpa using hset))

theorem inBand_iff (h : Rep L c a) (price : ℕ) :
    c.inBand (c.toIdx price) ↔ a.InWindow price := by
  have hsize : c.bids.size = a.band := h.levels .BUY
  simp only [inBand, toIdx, InWindow, h.base, hsize]
  omega

theorem rebaseFor (h : Rep L c a) (hw : a.Wf) (price : ℕ) (hg : L.Good (a.rebaseFor price).calls) :
    ∃ c', (if ¬ c.inBand (c.toIdx price) ∧ c.liveOrderCount ≤ BOOTSTRAP_REBASE_LIMIT then
        c.rebaseBase (centeredBase c.bids.size price) else some c) = some c' ∧
      Rep L c' (a.rebaseFor price) := by
  have hsize : c.bids.size = a.band := h.levels .BUY
  unfold Ladder.rebaseFor at hg ⊢
  have hiff : (¬ c.inBand (c.toIdx price) ∧ c.liveOrderCount ≤ BOOTSTRAP_REBASE_LIMIT) ↔
      (¬ a.InWindow price ∧ a.live ≤ BOOTSTRAP_REBASE_LIMIT) := by
    rw [h.live]
    exact and_congr_left fun _ => not_congr (h.inBand_iff price)
  rw [hsize]
  split_ifs at hg ⊢ with h1 h2 h2
  · exact h.rebaseBase hw _ hg
  · exact absurd (hiff.1 h1) h2
  · exact absurd (hiff.2 h2) h1
  · exact ⟨c, rfl, h⟩

theorem rest_calls (id : OrderId) (sd : Side) (i qty : ℕ) :
    a.calls <:+ (a.rest id sd i qty).1.calls := by
  rw [Ladder.rest]
  split
  · exact List.suffix_refl _
  · simp only
    split_ifs <;> exact List.suffix_cons _ _

/-- The side that an order of side `sd` trades against, up to the level of its price. -/
theorem matchOther (h : Rep L c a) (hw : a.Wf) (id : OrderId) (sd : Side) (qty : ℕ) (hi : i < a.band)
    (hg : L.Good (a.matchAgainst sd.other id i qty).1.calls) :
    ∃ c', (match sd with
        | .BUY => c.matchAgainstAsks id i qty
        | .SELL => c.matchAgainstBids id i qty) =
        some (c', (a.matchAgainst sd.other id i qty).2) ∧
      Rep L c' (a.matchAgainst sd.other id i qty).1 := by
  cases sd with
  | BUY =>
    have hlim : i < UINT32_MAX := by
      have := hw.band_lt
      simp only [UINT32_MAX]
      omega
    exact h.matchAgainstAsks hw hlim qty hg
  | SELL => exact h.matchAgainstBids hw qty hg

theorem place (h : Rep L c a) (hw : a.Wf) (hi : i < a.band) (hprice : price = a.base + i)
    (hbetter : ∀ c : OrderBook M, better c = true ↔ sd.Better i (c.tob.best sd))
    (hbest : ∀ (c : OrderBook M) (volume : ℕ),
      setBest c volume = { c with tob := c.tob.setTop i volume sd })
    (hg : L.Good (a.place id sd i qty).1.calls) :
    ∃ c', (match sd with
        | .BUY => c.matchAgainstAsks id i qty
        | .SELL => c.matchAgainstBids id i qty).bind (fun r =>
          if r.2 = 0 then some (r.1, false)
          else r.1.restOrder id sd price i r.2 better setBest) =
        some (c', (a.place id sd i qty).2) ∧ Rep L c' (a.place id sd i qty).1 := by
  have hswept : Swept sd.other i a (a.matchAgainst sd.other id i qty) := hw.match_spec _ _ _ _
  have hwm : (a.matchAgainst sd.other id i qty).1.Wf := hw.matchAgainst _ _ _
  unfold Ladder.place at hg ⊢
  simp only at hg ⊢
  split_ifs at hg ⊢ with hz
  · obtain ⟨c', h', hr'⟩ := h.matchOther hw id sd qty hi hg
    exact ⟨c', bind_some h' (if_pos hz), hr'⟩
  · obtain ⟨c', h', hr'⟩ := h.matchOther hw id sd qty hi (L.good_of_suffix (rest_calls _ _ _ _) hg)
    have hprice' : price = (a.matchAgainst sd.other id i qty).1.base + i := by
      rw [hswept.frame.base]; exact hprice
    obtain ⟨c'', h'', hr''⟩ := hr'.rest better setBest hwm (by rw [hswept.frame.band]; exact hi)
      hprice' hbetter hbest hg
    exact ⟨c'', bind_some h' ((if_neg hz).trans h''), hr''⟩

theorem place_calls (id : OrderId) (sd : Side) (i qty : ℕ) (hw : a.Wf) :
    a.calls <:+ (a.place id sd i qty).1.calls := by
  have hswept : Swept sd.other i a (a.matchAgainst sd.other id i qty) := hw.match_spec _ _ _ _
  unfold Ladder.place
  simp only
  split_ifs
  · exact hswept.frame.calls
  · exact hswept.frame.calls.trans (rest_calls _ _ _ _)

theorem insertLimitOrder (h : Rep L c a) (hw : a.Wf)
    (hg : L.Good (a.insertLimitOrder id sd price qty).1.calls) :
    ∃ c', c.insertLimitOrder id sd price qty = some (c', (a.insertLimitOrder id sd price qty).2) ∧
      Rep L c' (a.insertLimitOrder id sd price qty).1 := by
  obtain ⟨hw1, -⟩ := hw.anchor price
  have hw2 := hw1.rebaseFor price
  have h1 := h.anchor hw price
  unfold Ladder.insertLimitOrder at hg ⊢
  simp only at hg ⊢
  set a2 := (a.anchor price).rebaseFor price
  have hg2 : L.Good a2.calls := by
    split_ifs at hg
    · exact L.good_of_suffix (place_calls _ _ _ _ hw2) hg
    · exact hg
  obtain ⟨c2, hc2, h2⟩ := h1.rebaseFor hw1 price hg2
  have hin := h2.inBand_iff price
  split_ifs at hg ⊢ with hwin
  · obtain ⟨hwin1, hwin2⟩ := hwin
    have hi : price - a2.base < a2.band := by omega
    have hbase : c2.base = a2.base := h2.base
    have hidx : (c2.toIdx price).toNat = price - a2.base := by
      simp only [toIdx, hbase]
      omega
    have hprice : price = a2.base + (price - a2.base) := by omega
    cases sd with
    | BUY =>
      obtain ⟨c3, hc3, h3⟩ := h2.place
        (fun s => s.tob.bestBid = UINT32_MAX ∨ price - a2.base > s.tob.bestBid)
        (fun s volume => { s with tob := { s.tob with bestBid := price - a2.base, bidQty := volume } })
        hw2 hi hprice
        (fun c => decide_eq_true_iff) (fun _ _ => rfl) hg
      refine ⟨c3, bind_some hc2 ?_, h3⟩
      rw [if_neg (not_not.2 (hin.2 ⟨hwin1, hwin2⟩)), hidx]
      exact hc3
    | SELL =>
      obtain ⟨c3, hc3, h3⟩ := h2.place
        (fun s => s.tob.bestAsk = UINT32_MAX ∨ price - a2.base < s.tob.bestAsk)
        (fun s volume => { s with tob := { s.tob with bestAsk := price - a2.base, askQty := volume } })
        hw2 hi hprice
        (fun c => decide_eq_true_iff) (fun _ _ => rfl) hg
      refine ⟨c3, bind_some hc2 ?_, h3⟩
      rw [if_neg (not_not.2 (hin.2 ⟨hwin1, hwin2⟩)), hidx]
      exact hc3
  · exact ⟨c2, bind_some hc2 (if_pos (mt hin.1 hwin)), h2⟩

end Insert

section Runs

theorem step (h : Rep L c a) (hw : a.Wf) : ∀ op : Op, L.Good (a.step op).1.calls →
    ∃ c', c.step op = some (c', (a.step op).2) ∧ Rep L c' (a.step op).1
  | .insertLimitOrder _ _ _ _, hg => h.insertLimitOrder hw hg
  | .cancelOrder _, hg => by
    obtain ⟨c', h', hr⟩ := h.cancelOrder hw hg
    exact ⟨c', by rw [OrderBook.step, h']; rfl, hr⟩
  | .processMarketOrder _ _, hg => by
    obtain ⟨c', h', hr⟩ := h.processMarketOrder hw hg
    exact ⟨c', by rw [OrderBook.step, h']; rfl, hr⟩
  | .executeOrder _ _, hg => h.executeOrder hw hg
  | .reduceOrderQty _ _, hg => h.reduceOrderQty hw hg

end Runs

end Rep

end Nanomatch
