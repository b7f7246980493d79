import Nanomatch.Proofs.RefineTop

/-!
# Matching on the ladder

The loops of `match_against_asks` and `match_against_bids` end, and do to the book what the
recursions over a queue and over the levels with orders do to the ladder.
-/

namespace Nanomatch

open LinkedList WordBits OrderBook Ladder

variable {M : Type} [IdMapOps M] {L : IdMapLaws M} {c : OrderBook M} {a : Ladder} {sd : Side}
  {i s : ℕ} {takerId : OrderId}

namespace Rep

section Retire

/-- An order leaves its level, the id map and the pool. -/
theorem retire (h : Rep L c a) (hs : a.Sep) (hsq : s ∈ a.queue sd i)
    (hg : L.Good (a.retire sd i s).calls) :
    ∃ c1 c2 c3, c.levelRemove sd i s = some c1 ∧ c1.eraseId (a.info s).id = some c2 ∧
      c2.deallocate s = some c3 ∧ Rep L c3 (a.retire sd i s) := by
  obtain ⟨c1, h1, hr1⟩ := h.levelRemove hs hsq
  obtain ⟨c2, h2, hr2⟩ := hr1.eraseId (a.info s).id hg
  obtain ⟨c3, h3, hr3⟩ := hr2.deallocate (fun sd' j hx => ((mem_unlink hs hsq).1 hx).2 rfl)
    (hs.not_free hsq) (hs.slot_lt hsq)
  exact ⟨c1, c2, c3, h1, h2, h3, hr3⟩

end Retire

section Level

/-- One round of `matchLevel` that trades. -/
theorem matchLevel_round (h : Rep L c a) (hs : a.Sep) (hsq : s ∈ a.queue sd i) {want : ℕ}
    (hr : 0 < want) (takerId : OrderId) (fuel : ℕ)
    (hg : L.Good (a.fillOne sd i takerId s (min want (a.info s).qty)).calls) :
    ∃ c', Rep L c' (a.fillOne sd i takerId s (min want (a.info s).qty)) ∧
      matchLevel sd i takerId (fuel + 1) c s want =
        matchLevel sd i takerId fuel c' (c.nextOf s) (want - min want (a.info s).qty) := by
  have hi := hs.level_lt hsq
  have hlt := h.slot_lt hs hsq
  have hnull := hs.ne_null (hs.slot_lt hsq)
  have hdata := h.data sd i s hsq
  have hqty : (c.pool.pool.cell s).qty = (a.info s).qty := congrArg Resting.qty hdata
  have hid : (c.pool.pool.cell s).id = (a.info s).id := congrArg Resting.id hdata
  set amount := min want (a.info s).qty with hamount
  set t : Trade := ⟨(a.info s).id, takerId, a.base + i, amount⟩ with ht
  have h0 := h.trade t
  have hs0 := hs.trade t
  have hamt : amount ≤ ((a.trade t).info s).qty := Nat.min_le_right _ _
  obtain ⟨c1, c2, h1, h2, hr2⟩ := h0.take hs0 hsq hamt
  have hs2 := hs0.take s amount
  have hsq2 : s ∈ ((a.trade t).take s amount).queue sd i := hsq
  obtain ⟨o, ho, -, hod⟩ := hr2.readOrder hs2 hsq2
  have hinfo : ((a.trade t).take s amount).info s =
      { a.info s with qty := (a.info s).qty - amount } := take_info_self _ _
  have hoqty : o.qty = (a.info s).qty - amount := by
    have := congrArg Resting.qty hod
    rw [hinfo] at this
    exact this
  have hoid : o.id = (a.info s).id := by
    have := congrArg Resting.id hod
    rw [hinfo] at this
    exact this
  have htrade : (⟨(c.pool.pool.cell s).id, takerId, (c.levelAt sd i).price,
      min want (c.pool.pool.cell s).qty⟩ : Trade) = t := by
    rw [hid, hqty, h.price sd i (List.ne_nil_of_mem hsq)]
  obtain ⟨c', hc', hrep⟩ : ∃ c', (if o.qty = 0 then
      (c2.levelRemove sd i s).bind fun c => (c.eraseId o.id).bind fun c =>
        (c.deallocate s).bind fun c => some c.dropLive
      else some c2) = some c' ∧ Rep L c' (a.fillOne sd i takerId s amount) := by
    simp only [fillOne, ← ht, hoqty] at hg ⊢
    split_ifs at hg ⊢ with hz
    · obtain ⟨c3, c4, c5, h3, h4, h5, hr5⟩ := hr2.retire hs2 hsq2 hg
      rw [hinfo] at h4
      refine ⟨c5.dropLive, bind_some h3 (bind_some ?_ (bind_some h5 rfl)), hr5.dropLive⟩
      rw [hoid]
      exact h4
    · exact ⟨c2, rfl, hr2⟩
  refine ⟨c', hrep, ?_⟩
  rw [matchLevel, if_pos ⟨hnull, hr⟩]
  refine bind_some (readOrder_of_lt hlt) (bind_some (h.readLevel hi) ?_)
  rw [htrade, hqty]
  refine bind_some h1 (bind_some h2 (bind_some ho (bind_some hc' rfl)))

theorem matchLevel_spec : ∀ (queue : List ℕ) (c : OrderBook M) (a : Ladder) (want fuel : ℕ),
    a.queue sd i = queue → Rep L c a → a.Core → a.Pos → queue.length < fuel →
    L.Good (fill sd i takerId queue a want).1.calls →
    ∃ c', matchLevel sd i takerId fuel c (queue.headD NULL_IDX) want =
        some (c', (fill sd i takerId queue a want).2) ∧
      Rep L c' (fill sd i takerId queue a want).1
  | [], c, a, want, fuel + 1, _, h, _, _, _, _ => by
    refine ⟨c, ?_, h⟩
    rw [matchLevel, if_neg (fun hc => hc.1 rfl)]
    rfl
  | s :: queue, c, a, want, fuel + 1, hq, h, hc, hpos, hf, hg => by
    have hsq : s ∈ a.queue sd i := hq ▸ List.mem_cons_self
    rw [fill] at hg ⊢
    split_ifs at hg ⊢ with hr
    · refine ⟨c, ?_, h⟩
      rw [hr, matchLevel, if_neg (fun hc => absurd hc.2 (lt_irrefl 0))]
    simp only at hg ⊢
    set amount := min want (a.info s).qty with hamount
    have hnext : c.nextOf s = queue.headD NULL_IDX :=
      (hq ▸ (h.levelRep hc.toSep hsq).links :
        Dll c.nextOf c.prevOf NULL_IDX (c.levelAt sd i).headIdx (s :: queue) _).next_head
    have hc' : (a.fillOne sd i takerId s amount).Core := hc.fillOne hsq takerId amount
    have hpos' : (a.fillOne sd i takerId s amount).Pos := fillOne_pos hc.toSep hpos hsq
    by_cases hle : (a.info s).qty ≤ amount
    · have hq' : (a.fillOne sd i takerId s amount).queue sd i = queue := by
        rw [fillOne_queue, if_pos ⟨rfl, rfl, hle⟩, hq, List.erase_cons_head]
      have hcalls := (fill_spec (t := takerId) queue _ (want - amount) hq' hc' hpos').frame.calls
      obtain ⟨c1, hr1, hrun⟩ := h.matchLevel_round hc.toSep hsq (Nat.pos_of_ne_zero hr) takerId fuel
        (L.good_of_suffix hcalls hg)
      obtain ⟨c2, h2, hr2⟩ := matchLevel_spec queue c1 _ (want - amount) fuel hq' hr1 hc' hpos'
        (Nat.lt_of_succ_lt_succ hf) hg
      refine ⟨c2, ?_, hr2⟩
      rw [List.headD_cons, hrun, hnext, h2]
    · have hrem : want - amount = 0 := by omega
      rw [hrem, fill_zero] at hg ⊢
      obtain ⟨c1, hr1, hrun⟩ := h.matchLevel_round hc.toSep hsq (Nat.pos_of_ne_zero hr) takerId fuel
        hg
      refine ⟨c1, ?_, hr1⟩
      have hfuel : fuel = fuel - 1 + 1 := by
        simp only [List.length_cons] at hf
        omega
      rw [List.headD_cons, hrun, ← hamount, hrem, hfuel, matchLevel,
        if_neg (fun hc => absurd hc.2 (lt_irrefl 0))]

/-- A taker goes through the best level of side `sd`. -/
theorem matchBest (h : Rep L c a) (sd : Side) (t : OrderId) (hc : a.Core) (hpos : a.Pos)
    (hi : i < a.band) (want : ℕ)
    (hg : L.Good (fill sd i t (a.queue sd i) a want).1.calls) :
    ∃ c', matchLevel sd i t (c.pool.capacity + 1) c (c.levelAt sd i).headIdx want =
        some (c', (fill sd i t (a.queue sd i) a want).2) ∧
      Rep L c' (fill sd i t (a.queue sd i) a want).1 := by
  have hcap : c.pool.capacity = a.cap := h.pool
  rw [(h.level sd i hi).links.head_eq, hcap]
  exact matchLevel_spec _ c a want _ rfl h hc hpos hc.toSep.length_lt hg

end Level

section Sides

variable {limit : ℕ}

theorem candidates_eq_nil {a : Ladder} (hs : a.Sep) (htop : a.TopOk sd)
    (hl : a.candidates sd = []) : a.tob.best sd = UINT32_MAX := by
  by_contra hb
  obtain ⟨l, hl'⟩ := candidates_of_top htop hb (hs.lt_band (htop.resolve_left hb))
  rw [hl] at hl'
  exact absurd hl' (List.cons_ne_nil _ l).symm

theorem candidates_length (sd : Side) (hs : a.Sep) : (a.candidates sd).length ≤ a.band := by
  have hnd : (a.candidates sd).Nodup := by
    rw [candidates]
    split_ifs
    · exact List.nodup_nil
    · exact occupied_nodup
  have hsub : a.candidates sd ⊆ List.range a.band := fun x hx => by
    rw [candidates] at hx
    split_ifs at hx
    · exact absurd hx List.not_mem_nil
    · exact List.mem_range.2 (hs.lt_band (mem_occupied.1 hx).2)
  have hlen := (List.subperm_of_subset hnd hsub).length_le
  rwa [List.length_range] at hlen

/-- After the best level lost its last order, a search for the next one starts there. -/
theorem emptied_spec {t : OrderId} {levels : List ℕ} {m : ℕ} (hl : a.candidates sd = i :: levels)
    (hc : a.Core) (hpos : a.Pos) (htop : a.TopOk sd)
    (hq : (fill sd i t (a.queue sd i) a m).1.queue sd i = []) :
    let r := fill sd i t (a.queue sd i) a m
    r.1.updateBest sd = r.1.setTop sd (firstOf levels) ∧
      (r.1.setTop sd (firstOf levels)).candidates sd = levels ∧
      (r.1.setTop sd (firstOf levels)).TopOk sd := by
  obtain ⟨h1, h2, h3, h4, -⟩ : Filled sd i a (fill sd i t (a.queue sd i) a m) :=
    fill_spec _ a m rfl hc hpos
  intro r
  have hb := best_of_candidates hc.toSep htop hl
  have hocc := candidates_occupied hl
  have hi : i < a.band := hc.toSep.lt_band (mem_occupied.1 (hocc ▸ List.mem_cons_self)).2
  have ho : r.1.occupied sd i = levels := by
    refine occupied_of_emptied h3.band (fun j => ?_) (hb ▸ hocc)
    split_ifs with hj
    · rw [hj, hq]
    · exact h3.queue sd j fun hc => hj hc.2
  have hstart : r.1.searchStart sd = i := by
    have hmax := hc.toSep.level_ne_max hi
    have htob : r.1.tob = a.tob := h4
    have hband : r.1.band = a.band := h3.band
    cases sd with
    | BUY =>
      have hb' : a.tob.bestBid = i := hb
      rw [searchStart, htob, hb', if_neg hmax]
    | SELL =>
      have hb' : a.tob.bestAsk = i := hb
      rw [searchStart, htob, hband, hb', if_neg (Nat.not_le_of_lt hi)]
  refine ⟨by rw [updateBest, hstart, ho], candidates_setTop h1.toSep ho, ?_⟩
  exact setTop_topOk fun j hj => (mem_occupied.1 (ho ▸ hj)).2

theorem matchAsksLoop_spec (hlim : limit < UINT32_MAX) : ∀ (levels : List ℕ) (c : OrderBook M)
    (a : Ladder) (want fuel : ℕ), a.candidates .SELL = levels → Rep L c a → a.Core → a.Pos →
    a.TopOk .SELL → levels.length + 1 < fuel →
    L.Good (sweep .SELL takerId limit levels a want).1.calls →
    ∃ c', matchAsksLoop takerId limit fuel c want =
        some (c', (sweep .SELL takerId limit levels a want).2) ∧
      Rep L c' (sweep .SELL takerId limit levels a want).1
  | [], c, a, want, fuel + 1, hl, h, hc, _, htop, _, _ => by
    have hbest : c.tob.bestAsk = UINT32_MAX := by
      rw [h.tob]; exact candidates_eq_nil hc.toSep htop hl
    refine ⟨c, ?_, h⟩
    rw [matchAsksLoop]
    simp only [hbest, if_pos hlim, ite_self]
    rfl
  | i :: levels, c, a, want, fuel + 1, hl, h, hc, hpos, htop, hf, hg => by
    have hb : a.tob.best .SELL = i := best_of_candidates hc.toSep htop hl
    have hbest : c.tob.bestAsk = i := by rw [h.tob]; exact hb
    have hi : i < a.band :=
      hc.toSep.lt_band (mem_occupied.1 (candidates_occupied hl ▸ List.mem_cons_self)).2
    rw [sweep] at hg ⊢
    rw [matchAsksLoop]
    simp only [hbest]
    by_cases hr : want = 0
    · rw [if_neg (by omega), if_pos (.inl hr)]
      exact ⟨c, rfl, h⟩
    rw [if_pos (Nat.pos_of_ne_zero hr)]
    by_cases hx : i > limit
    · have hnx : ¬ Side.Crosses limit i .SELL := Nat.not_le_of_lt hx
      rw [if_pos hx, if_pos (.inr hnx)]
      exact ⟨c, rfl, h⟩
    have hcross : Side.Crosses limit i .SELL := Nat.le_of_not_lt hx
    have hgo : ¬ (want = 0 ∨ ¬ Side.Crosses limit i .SELL) := by
      rintro (h | h)
      · exact hr h
      · exact h hcross
    rw [if_neg hx, if_neg hgo]
    rw [if_neg hgo] at hg
    simp only at hg ⊢
    obtain ⟨h1, h2, h3, h4, h5⟩ : Filled .SELL i a
        (fill .SELL i takerId (a.queue .SELL i) a want) := fill_spec _ a want rfl hc hpos
    have hemp := emptied_spec (t := takerId) (m := want) hl hc hpos htop
    have hbest := h.matchBest .SELL takerId hc hpos hi want
    set r := fill .SELL i takerId (a.queue .SELL i) a want
    by_cases hq : r.1.queue .SELL i = []
    · rw [if_pos hq] at hg ⊢
      obtain ⟨heq, hcand, htop'⟩ := hemp hq
      have hcalls := (sweep_spec (t := takerId) (l := limit) levels _ r.2 hcand (h1.setTop _ _) h2
        htop').frame.calls
      obtain ⟨c1, hrun, hr1⟩ := hbest (L.good_of_suffix hcalls hg)
      obtain ⟨c2, hup, hr2⟩ := hr1.updateBestAsk h1.toSep
      rw [heq] at hr2
      obtain ⟨c3, hloop, hr3⟩ := matchAsksLoop_spec hlim levels c2 _ r.2 fuel hcand hr2
        (h1.setTop _ _) h2 htop' (Nat.lt_of_succ_lt_succ hf) hg
      refine ⟨c3, bind_some (h.readLevel hi) (bind_some hrun ?_), hr3⟩
      refine bind_some (hr1.readLevel (h3.band ▸ hi)) ?_
      rw [if_pos ((hr1.empty_iff (h3.band ▸ hi)).2 hq)]
      exact bind_some hup hloop
    · rw [if_neg hq] at hg ⊢
      have hz : r.2 = 0 := h5.resolve_right hq
      obtain ⟨c1, hrun, hr1⟩ := hbest hg
      refine ⟨_, bind_some (h.readLevel hi) (bind_some hrun ?_), hr1.askQty (h3.band ▸ hi)⟩
      refine bind_some (hr1.readLevel (h3.band ▸ hi)) ?_
      rw [if_neg (mt (hr1.empty_iff (h3.band ▸ hi)).1 hq)]
      refine bind_some rfl ?_
      have hfuel : fuel = fuel - 1 + 1 := by
        simp only [List.length_cons] at hf
        omega
      rw [hz, hfuel, matchAsksLoop, if_neg (lt_irrefl 0)]

theorem matchBidsLoop_spec : ∀ (levels : List ℕ) (c : OrderBook M)
    (a : Ladder) (want fuel : ℕ), a.candidates .BUY = levels → Rep L c a → a.Core → a.Pos →
    a.TopOk .BUY → levels.length + 1 < fuel →
    L.Good (sweep .BUY takerId limit levels a want).1.calls →
    ∃ c', matchBidsLoop takerId limit fuel c want =
        some (c', (sweep .BUY takerId limit levels a want).2) ∧
      Rep L c' (sweep .BUY takerId limit levels a want).1
  | [], c, a, want, fuel + 1, hl, h, hc, _, htop, _, _ => by
    have hbest : c.tob.bestBid = UINT32_MAX := by
      rw [h.tob]; exact candidates_eq_nil hc.toSep htop hl
    refine ⟨c, ?_, h⟩
    rw [matchBidsLoop]
    simp only [hbest, true_or, if_true, ite_self]
    rfl
  | i :: levels, c, a, want, fuel + 1, hl, h, hc, hpos, htop, hf, hg => by
    have hb : a.tob.best .BUY = i := best_of_candidates hc.toSep htop hl
    have hbest : c.tob.bestBid = i := by rw [h.tob]; exact hb
    have hiq : a.queue .BUY i ≠ [] := (mem_occupied.1 (candidates_occupied hl ▸ List.mem_cons_self)).2
    have hi : i < a.band := hc.toSep.lt_band hiq
    have hmax := hc.toSep.level_ne_max hi
    rw [sweep] at hg ⊢
    rw [matchBidsLoop]
    simp only [hbest]
    by_cases hr : want = 0
    · rw [if_neg (by omega), if_pos (.inl hr)]
      exact ⟨c, rfl, h⟩
    rw [if_pos (Nat.pos_of_ne_zero hr)]
    by_cases hx : i < limit
    · have hnx : ¬ Side.Crosses limit i .BUY := Nat.not_le_of_lt hx
      rw [if_pos (.inr hx), if_pos (.inr hnx)]
      exact ⟨c, rfl, h⟩
    have hcross : Side.Crosses limit i .BUY := Nat.le_of_not_lt hx
    have hgo : ¬ (want = 0 ∨ ¬ Side.Crosses limit i .BUY) := by
      rintro (h | h)
      · exact hr h
      · exact h hcross
    rw [if_neg (fun h => h.elim hmax hx), if_neg hgo]
    rw [if_neg hgo] at hg
    simp only at hg ⊢
    obtain ⟨h1, h2, h3, h4, h5⟩ : Filled .BUY i a
        (fill .BUY i takerId (a.queue .BUY i) a want) := fill_spec _ a want rfl hc hpos
    have hemp := emptied_spec (t := takerId) (m := want) hl hc hpos htop
    have hbest := h.matchBest .BUY takerId hc hpos hi want
    have hfull : ¬ (c.levelAt .BUY i).empty = true := mt (h.empty_iff hi).1 hiq
    set r := fill .BUY i takerId (a.queue .BUY i) a want
    by_cases hq : r.1.queue .BUY i = []
    · rw [if_pos hq] at hg ⊢
      obtain ⟨heq, hcand, htop'⟩ := hemp hq
      have hcalls := (sweep_spec (t := takerId) (l := limit) levels _ r.2 hcand (h1.setTop _ _) h2
        htop').frame.calls
      obtain ⟨c1, hrun, hr1⟩ := hbest (L.good_of_suffix hcalls hg)
      have hbb : r.1.tob.bestBid = i := by
        have htob : r.1.tob = a.tob := h4
        rw [htob]; exact hb
      obtain ⟨c2, hup, hr2⟩ := hr1.updateBestBid h1.toSep (.inr (by rw [hbb, h3.band]; exact hi))
      rw [heq] at hr2
      obtain ⟨c3, hloop, hr3⟩ := matchBidsLoop_spec levels c2 _ r.2 fuel hcand hr2
        (h1.setTop _ _) h2 htop' (Nat.lt_of_succ_lt_succ hf) hg
      refine ⟨c3, bind_some (h.readLevel hi) ?_, hr3⟩
      rw [if_neg hfull]
      refine bind_some hrun (bind_some (hr1.readLevel (h3.band ▸ hi)) ?_)
      rw [if_pos ((hr1.empty_iff (h3.band ▸ hi)).2 hq)]
      exact bind_some hup hloop
    · rw [if_neg hq] at hg ⊢
      have hz : r.2 = 0 := h5.resolve_right hq
      obtain ⟨c1, hrun, hr1⟩ := hbest hg
      refine ⟨_, bind_some (h.readLevel hi) ?_, hr1.bidQty (h3.band ▸ hi)⟩
      rw [if_neg hfull]
      refine bind_some hrun (bind_some (hr1.readLevel (h3.band ▸ hi)) ?_)
      rw [if_neg (mt (hr1.empty_iff (h3.band ▸ hi)).1 hq)]
      refine bind_some rfl ?_
      have hfuel : fuel = fuel - 1 + 1 := by
        simp only [List.length_cons] at hf
        omega
      rw [hz, hfuel, matchBidsLoop, if_neg (lt_irrefl 0)]

theorem matchAgainstAsks (h : Rep L c a) (hw : a.Wf) (hlim : limit < UINT32_MAX) (qty : ℕ)
    (hg : L.Good (a.matchAgainst .SELL takerId limit qty).1.calls) :
    ∃ c', c.matchAgainstAsks takerId limit qty =
        some (c', (a.matchAgainst .SELL takerId limit qty).2) ∧
      Rep L c' (a.matchAgainst .SELL takerId limit qty).1 := by
  have hlen := candidates_length .SELL hw.toSep
  have hsize : c.asks.size = a.band := h.levels .SELL
  exact matchAsksLoop_spec hlim _ c a qty _ rfl h hw.toCore hw.pos (hw.top .SELL) (by omega) hg

theorem matchAgainstBids (h : Rep L c a) (hw : a.Wf) (qty : ℕ)
    (hg : L.Good (a.matchAgainst .BUY takerId limit qty).1.calls) :
    ∃ c', c.matchAgainstBids takerId limit qty =
        some (c', (a.matchAgainst .BUY takerId limit qty).2) ∧
      Rep L c' (a.matchAgainst .BUY takerId limit qty).1 := by
  have hlen := candidates_length .BUY hw.toSep
  have hsize : c.bids.size = a.band := h.levels .BUY
  exact matchBidsLoop_spec _ c a qty _ rfl h hw.toCore hw.pos (hw.top .BUY) (by omega) hg

end Sides

end Rep

end Nanomatch
