import Nanomatch.Proofs.RepSteps

/-!
# The top of book on the ladder

The bitmap scans find the first level with orders away from where they start, so the updates of
the cached best levels are the ladder's.
-/

namespace Nanomatch

open LinkedList WordBits OrderBook Ladder

variable {M : Type} [IdMapOps M] {L : IdMapLaws M} {c : OrderBook M} {a : Ladder} {sd : Side}
  {i s start r : ℕ}

section Scans

theorem firstOf_eq_max {l : List ℕ} (h : ∀ i, i ∉ l) : firstOf l = UINT32_MAX := by
  rw [List.eq_nil_iff_forall_not_mem.2 h]
  rfl

/-- The first level of a search that finds one. -/
theorem occupied_eq_cons (hr : r ∈ a.occupied sd start) :
    ∃ l, a.occupied sd start = firstOf (a.occupied sd start) :: l := by
  rcases h : a.occupied sd start with _ | ⟨x, l⟩
  · rw [h] at hr; exact absurd hr List.not_mem_nil
  · exact ⟨l, rfl⟩

theorem isPrev_firstOf (h : IsPrev (fun q => a.queue .BUY q ≠ []) start r) :
    r = firstOf (a.occupied .BUY start) := by
  rcases h with ⟨rfl, hnone⟩ | ⟨hle, hr, hmax⟩
  · exact (firstOf_eq_max fun i hi => hnone i (mem_outward_buy.1 (mem_occupied.1 hi).1)
      (mem_occupied.1 hi).2).symm
  · have hmem : r ∈ a.occupied .BUY start := mem_occupied.2 ⟨mem_outward_buy.2 hle, hr⟩
    obtain ⟨l, hl⟩ := occupied_eq_cons hmem
    have hfirst := mem_occupied.1 (hl ▸ List.mem_cons_self :
      firstOf (a.occupied .BUY start) ∈ a.occupied .BUY start)
    have h1 : r ≤ firstOf (a.occupied .BUY start) :=
      mem_outward_buy.1 (mem_occupied.1 (occupied_head hl ▸ hl ▸ hmem)).1
    by_contra hne
    exact hmax _ (lt_of_le_of_ne h1 hne) (mem_outward_buy.1 hfirst.1) hfirst.2

theorem isNext_firstOf (h : IsNext (fun q => q < a.band ∧ a.queue .SELL q ≠ []) start r) :
    r = firstOf (a.occupied .SELL start) := by
  rcases h with ⟨rfl, hnone⟩ | ⟨hle, hr, hmin⟩
  · refine (firstOf_eq_max fun i hi => ?_).symm
    obtain ⟨h1, h2⟩ := mem_occupied.1 hi
    obtain ⟨h3, h4⟩ := mem_outward_sell.1 h1
    exact hnone i h3 ⟨h4, h2⟩
  · have hmem : r ∈ a.occupied .SELL start :=
      mem_occupied.2 ⟨mem_outward_sell.2 ⟨hle, hr.1⟩, hr.2⟩
    obtain ⟨l, hl⟩ := occupied_eq_cons hmem
    have hfirst := mem_occupied.1 (hl ▸ List.mem_cons_self :
      firstOf (a.occupied .SELL start) ∈ a.occupied .SELL start)
    have h1 : firstOf (a.occupied .SELL start) ≤ r :=
      (mem_outward_sell.1 (mem_occupied.1 (occupied_head hl ▸ hl ▸ hmem)).1).1
    obtain ⟨h3, h4⟩ := mem_outward_sell.1 hfirst.1
    by_contra hne
    exact hmin _ h3 (lt_of_le_of_ne h1 (Ne.symm hne)) ⟨h4, hfirst.2⟩

end Scans

namespace Rep

theorem readLevel (h : Rep L c a) (hi : i < a.band) :
    c.readLevel sd i = some (c.levelAt sd i) := readLevel_of_lt (h.level_lt hi)

theorem volume_eq (h : Rep L c a) (hi : i < a.band) :
    (c.levelAt sd i).totalVolume = a.volume sd i := (h.level sd i hi).volume

/-- The cached top of side `sd` after a search that found `r`. -/
theorem setTop_found (h : Rep L c a) (hi : r < a.band) (t : TopOfBook)
    (ht : t = c.tob.setTop r (c.levelAt sd r).totalVolume sd) :
    Rep L { c with tob := t } (a.setTop sd r) :=
  { h with tob := by rw [ht, h.volume_eq hi, h.tob]; rfl }

theorem setTop_none (h : Rep L c a) (hs : a.Sep) (t : TopOfBook)
    (ht : t = c.tob.setTop UINT32_MAX 0 sd) : Rep L { c with tob := t } (a.setTop sd UINT32_MAX) := by
  have hmax : a.queue sd UINT32_MAX = [] := hs.queue_eq_nil (by
    have := hs.band_lt
    simp only [UINT32_MAX]
    omega)
  have hvol : a.volume sd UINT32_MAX = 0 := by rw [volume, hmax]; rfl
  exact { h with tob := by rw [ht, h.tob]; simp only [Ladder.setTop, hvol] }

theorem bidQty (h : Rep L c a) (hi : i < a.band) :
    Rep L (c.setBidQty (c.levelAt .BUY i).totalVolume) (a.setTopQty .BUY i) :=
  { h with tob := by simp only [setBidQty, h.volume_eq hi, h.tob]; rfl }

theorem askQty (h : Rep L c a) (hi : i < a.band) :
    Rep L (c.setAskQty (c.levelAt .SELL i).totalVolume) (a.setTopQty .SELL i) :=
  { h with tob := by simp only [setAskQty, h.volume_eq hi, h.tob]; rfl }

theorem firstOf_lt (hs : a.Sep) (h : firstOf (a.occupied sd start) ≠ UINT32_MAX) :
    firstOf (a.occupied sd start) < a.band := by
  refine hs.lt_band (mem_occupied.1 (firstOf_mem fun he => h ?_)).2
  rw [he]; rfl

theorem updateBestBid (h : Rep L c a) (hs : a.Sep)
    (hb : a.tob.bestBid = UINT32_MAX ∨ a.tob.bestBid < a.band) :
    ∃ c', c.updateBestBid = some c' ∧ Rep L c' (a.updateBest .BUY) := by
  have hpos := hs.band_pos
  have hsize : c.bids.size = a.band := h.levels .BUY
  have hbm : c.bidBitmap.size = (a.band + 63) / 64 := h.bitmap .BUY
  have hstart : (if c.tob.bestBid = UINT32_MAX then c.bids.size - 1 else c.tob.bestBid) =
      a.searchStart .BUY := by rw [h.tob, hsize]; rfl
  have hlt : a.searchStart .BUY < a.band := by
    simp only [searchStart]
    split_ifs with hm
    · omega
    · exact hb.resolve_left hm
  have hword : a.searchStart .BUY / 64 < c.bidBitmap.size := by rw [hbm]; omega
  obtain ⟨r, hr, hspec⟩ := findPrevSetBit_spec c.bidBitmap hword
  have hbit : (fun q => bitAt c.bidBitmap q = true) = fun q => a.queue .BUY q ≠ [] :=
    funext fun q => propext (h.bit .BUY q)
  rw [hbit] at hspec
  have hfirst := isPrev_firstOf hspec
  have hrun : c.updateBestBid = if r ≠ UINT32_MAX then (c.readLevel .BUY r).bind fun level =>
      some { c with tob := { c.tob with bestBid := r, bidQty := level.totalVolume } }
      else some { c with tob := { c.tob with bestBid := UINT32_MAX, bidQty := 0 } } := by
    rw [OrderBook.updateBestBid, hstart]
    exact bind_some hr rfl
  rw [hrun, updateBest, ← hfirst]
  split_ifs with hm
  · have hrlt : r < a.band := by rw [hfirst] at hm ⊢; exact firstOf_lt hs hm
    exact ⟨_, bind_some (h.readLevel hrlt) rfl, h.setTop_found hrlt _ rfl⟩
  · obtain rfl : r = UINT32_MAX := not_not.1 hm
    exact ⟨_, rfl, h.setTop_none hs _ rfl⟩

theorem updateBestAsk (h : Rep L c a) (hs : a.Sep) :
    ∃ c', c.updateBestAsk = some c' ∧ Rep L c' (a.updateBest .SELL) := by
  have hpos := hs.band_pos
  have hsize : c.asks.size = a.band := h.levels .SELL
  have hbm : c.askBitmap.size = (a.band + 63) / 64 := h.bitmap .SELL
  have hstart : (if c.tob.bestAsk ≥ c.asks.size then 0 else c.tob.bestAsk) =
      a.searchStart .SELL := by rw [h.tob, hsize]; rfl
  have hlt : a.searchStart .SELL < a.band := by
    simp only [searchStart]
    split_ifs with hm
    · omega
    · omega
  have hword : a.searchStart .SELL / 64 < c.askBitmap.size := by rw [hbm]; omega
  obtain ⟨r, hr, hspec⟩ := findNextSetBit_spec c.askBitmap hword
  have hbit : (fun q => q / 64 < c.askBitmap.size ∧ bitAt c.askBitmap q = true) =
      fun q => q < a.band ∧ a.queue .SELL q ≠ [] := by
    funext q
    have hq : bitAt c.askBitmap q = true ↔ a.queue .SELL q ≠ [] := h.bit .SELL q
    rw [hq, hbm]
    refine propext ⟨fun h => ⟨hs.lt_band h.2, h.2⟩, fun h => ⟨by omega, h.2⟩⟩
  rw [hbit] at hspec
  have hfirst := isNext_firstOf hspec
  have hrun : c.updateBestAsk = if r ≠ UINT32_MAX then (c.readLevel .SELL r).bind fun level =>
      some { c with tob := { c.tob with bestAsk := r, askQty := level.totalVolume } }
      else some { c with tob := { c.tob with bestAsk := UINT32_MAX, askQty := 0 } } := by
    rw [OrderBook.updateBestAsk, hstart]
    exact bind_some hr rfl
  rw [hrun, updateBest, ← hfirst]
  split_ifs with hm
  · have hrlt : r < a.band := by rw [hfirst] at hm ⊢; exact firstOf_lt hs hm
    exact ⟨_, bind_some (h.readLevel hrlt) rfl, h.setTop_found hrlt _ rfl⟩
  · obtain rfl : r = UINT32_MAX := not_not.1 hm
    exact ⟨_, rfl, h.setTop_none hs _ rfl⟩

/-- The refresh of the top of book after an order left level `i`. -/
theorem refreshTop (h : Rep L c a) (hs : a.Sep) (hi : i < a.band)
    (hb : a.tob.bestBid = UINT32_MAX ∨ a.tob.bestBid < a.band) :
    ∃ c', c.refreshTop sd i = some c' ∧ Rep L c' (a.refreshTop sd i) := by
  have hemp : (c.levelAt sd i).empty = true ↔ a.queue sd i = [] := h.empty_iff hi
  cases sd with
  | BUY =>
    have hbest : c.tob.bestBid = a.tob.best .BUY := by rw [h.tob]; rfl
    have hrun : c.refreshTop .BUY i = if i = c.tob.bestBid then
        if (c.levelAt .BUY i).empty then c.updateBestBid
        else some (c.setBidQty (c.levelAt .BUY i).totalVolume) else some c :=
      bind_some (h.readLevel hi) rfl
    rw [hrun, Ladder.refreshTop, hbest]
    split_ifs with h1 h2 h3 h3
    · exact h.updateBestBid hs hb
    · exact absurd (hemp.1 h2) h3
    · exact absurd (hemp.2 h3) h2
    · exact ⟨_, rfl, h.bidQty hi⟩
    · exact ⟨_, rfl, h⟩
  | SELL =>
    have hbest : c.tob.bestAsk = a.tob.best .SELL := by rw [h.tob]; rfl
    have hrun : c.refreshTop .SELL i = if i = c.tob.bestAsk then
        if (c.levelAt .SELL i).empty then c.updateBestAsk
        else some (c.setAskQty (c.levelAt .SELL i).totalVolume) else some c :=
      bind_some (h.readLevel hi) rfl
    rw [hrun, Ladder.refreshTop, hbest]
    split_ifs with h1 h2 h3 h3
    · exact h.updateBestAsk hs
    · exact absurd (hemp.1 h2) h3
    · exact absurd (hemp.2 h3) h2
    · exact ⟨_, rfl, h.askQty hi⟩
    · exact ⟨_, rfl, h⟩

end Rep

end Nanomatch
