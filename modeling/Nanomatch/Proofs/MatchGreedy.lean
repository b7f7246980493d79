import Nanomatch.Proofs.Makers
import Nanomatch.Proofs.MatchFrame

/-!
# A match fills the makers first to last

Carries `Took` to the books themselves. A consistent book represents the ladder that is read off
it, so what a match does to the ladder it does to every consistent book, whatever calls led to it.
-/

namespace Nanomatch

open LinkedList WordBits Greedy OrderBook Ladder

variable {M : Type} {c : OrderBook M} {band cap i s : ℕ} {sd : Side}

section Read

/-- The laws of a log of which nothing is known yet. -/
def emptyLog : IdMapLaws (CallLog FinMap) := logLaws FinMap.init [] fun _ => rfl

/-- The ladder that a book with `band` levels a side and `cap` slots stands for. -/
def Ladder.ofBook (c : OrderBook M) (band cap : ℕ) : Ladder where
  band := band
  cap := cap
  tob := c.tob
  base := c.base
  baseSet := true
  live := c.liveOrderCount
  info s := (c.pool.pool.cell s).resting
  queue sd i := if i < band then c.slots sd i else []
  free := c.freeSlots
  trades := c.logger

theorem queue_ofBook (sd : Side) (hi : i < band) : (ofBook c band cap).queue sd i = c.slots sd i :=
  if_pos hi

theorem mem_queue_ofBook : s ∈ (ofBook c band cap).queue sd i ↔ i < band ∧ s ∈ c.slots sd i := by
  unfold ofBook
  by_cases hi : i < band <;> simp [hi]

theorem queue_ofBook_ne_nil :
    (ofBook c band cap).queue sd i ≠ [] ↔ i < band ∧ c.slots sd i ≠ [] := by
  unfold ofBook
  by_cases hi : i < band <;> simp [hi]

/-- The cached best level of a book holds orders. -/
theorem topOk_ofBook (hsz : c.Sized band cap) (ht : c.TopExact) :
    ∀ sd, (ofBook c band cap).TopOk sd := by
  have hocc : ∀ {sd i}, i ∈ c.occupied sd → (ofBook c band cap).queue sd i ≠ [] := by
    rintro sd i ⟨hi, hq⟩
    exact queue_ofBook_ne_nil.2 ⟨hsz.levels sd ▸ hi, hq⟩
  rintro (_ | _)
  · by_cases hb : c.tob.bestBid = UINT32_MAX
    · exact .inl hb
    · exact .inr (hocc (ht.bid hb).1)
  · by_cases hb : c.tob.bestAsk = UINT32_MAX
    · exact .inl hb
    · exact .inr (hocc (ht.ask hb).1)

/-- The ladder of a book whose cached best levels are the best ones is exact. -/
theorem exact_ofBook (hsz : c.Sized band cap) (ht : c.TopExact) :
    ∀ sd, (ofBook c band cap).Exact sd := by
  have hocc : ∀ {sd i}, (ofBook c band cap).queue sd i ≠ [] → i ∈ c.occupied sd := by
    intro sd i hq
    obtain ⟨hi, hq⟩ := queue_ofBook_ne_nil.1 hq
    exact ⟨(hsz.levels sd).symm ▸ hi, hq⟩
  rintro (_ | _) <;> refine exact_iff.2 fun i hq => ?_
  · have hne : c.tob.bestBid ≠ UINT32_MAX := fun hb => by
      have := hocc hq
      rw [ht.noBid.1 hb] at this
      exact this
    exact ⟨hne, mem_outward_buy.2 ((ht.bid hne).2 (hocc hq))⟩
  · have hne : c.tob.bestAsk ≠ UINT32_MAX := fun hb => by
      have := hocc hq
      rw [ht.noAsk.1 hb] at this
      exact this
    exact ⟨hne, mem_outward_sell.2 ⟨(ht.ask hne).2 (hocc hq), (queue_ofBook_ne_nil.1 hq).1⟩⟩

variable [IdMapOps M] (h : c.Consistent band cap)

include h

/-- A slot is in one level of one side, or free. -/
theorem OrderBook.Consistent.order_of (hi : i < band) (hs : s ∈ c.slots sd i) :
    (c.pool.pool.cell s).price = i ∧ (c.pool.pool.cell s).side = sd ∧ 0 < c.qtyAt s :=
  h.order sd i hi _ (List.mem_map_of_mem hs)

theorem OrderBook.Consistent.length_lt (hcap : cap < 2 ^ 32) (hi : i < band) :
    (c.slots sd i).length < 2 ^ 32 := by
  have hsub : c.slots sd i ⊆ List.range cap := fun x hx =>
    List.mem_range.2 (h.slot_lt (some (sd, ⟨i, hi⟩)) x hx)
  have hnd : (c.slots sd i).Nodup := h.nodup (some (sd, ⟨i, hi⟩))
  have hlen := (List.subperm_of_subset hnd hsub).length_le
  rw [List.length_range] at hlen
  omega

theorem wf_ofBook (hsz : c.Sized band cap) (ht : c.TopExact) : (ofBook c band cap).Wf where
  band_pos := hsz.band_pos
  band_lt := hsz.band_lt
  cap_lt := hsz.cap_lt
  nodup sd i := by
    by_cases hi : i < band
    · rw [queue_ofBook sd hi]
      exact h.nodup (some (sd, ⟨i, hi⟩))
    · rw [show (ofBook c band cap).queue sd i = [] from if_neg hi]
      exact List.nodup_nil
  free_nodup := h.nodup none
  free_lt := h.slot_lt none
  side_eq hs := by
    obtain ⟨hi, hs⟩ := mem_queue_ofBook.1 hs
    exact (h.order_of hi hs).2.1
  price_eq hs := by
    obtain ⟨hi, hs⟩ := mem_queue_ofBook.1 hs
    exact (h.order_of hi hs).1
  slot_lt hs := by
    obtain ⟨hi, hs⟩ := mem_queue_ofBook.1 hs
    exact h.slot_lt (some (_, ⟨_, hi⟩)) _ hs
  level_lt hs := (mem_queue_ofBook.1 hs).1
  no_wrap hs := by
    obtain ⟨hi, hs⟩ := mem_queue_ofBook.1 hs
    exact (h.price _ _ hi (List.ne_nil_of_mem hs)).2
  qty_lt hs := by
    obtain ⟨hi, hs⟩ := mem_queue_ofBook.1 hs
    exact hsz.qty _ _ hi _ hs
  not_free := by
    rintro sd i s hs hf
    obtain ⟨hi, hs⟩ := mem_queue_ofBook.1 hs
    have hlt := h.slot_lt none s hf
    have hone : none = some (sd, (⟨i, hi⟩ : Fin band)) := (h.partition s hlt).unique hf hs
    exact absurd hone (by simp)
  cover := by
    intro s hs
    obtain ⟨l, hl, -⟩ := h.partition s hs
    rcases l with _ | ⟨sd, i⟩
    · exact .inl hl
    · obtain ⟨hp, hsd, -⟩ := h.order_of i.2 hl
      right
      have hq : (ofBook c band cap).queue sd i = c.slots sd i := queue_ofBook sd i.2
      have hinfo : (ofBook c band cap).info s = (c.pool.pool.cell s).resting := rfl
      rw [Rests, hinfo]
      simp only [Order.resting, hp, hsd, hq]
      exact hl
  ids id hid := absurd rfl hid
  unset hb := Bool.noConfusion hb
  pos sd i s hs := by
    obtain ⟨hi, hs⟩ := mem_queue_ofBook.1 hs
    exact (h.order_of hi hs).2.2
  top := topOk_ofBook hsz ht

/-- The book over an empty log represents the ladder. -/
theorem rep_ofBook (hsz : c.Sized band cap) :
    Rep emptyLog (c.onMap (⟨FinMap.init, []⟩ : CallLog FinMap) true) (ofBook c band cap) where
  tob := rfl
  base := rfl
  baseSet := rfl
  live := rfl
  logger := rfl
  pool := h.capacity
  levels := hsz.levels
  bitmap := hsz.bitmap
  level sd i hi := by
    have hi : i < band := hi
    rw [queue_ofBook sd hi]
    refine ⟨h.links sd i hi, ?_, ?_⟩
    · rw [Nat.mod_eq_of_lt (h.length_lt hsz.cap_lt hi)]
      exact h.count sd i hi
    · refine (h.volume sd i hi).trans ?_
      rw [orders, List.map_map]
      rfl
  price sd i hq := by
    obtain ⟨hi, hq⟩ := queue_ofBook_ne_nil.1 hq
    exact (h.price sd i hi hq).1
  data _ _ _ _ := rfl
  bit sd i := (h.bit sd i).trans queue_ofBook_ne_nil.symm
  chain := h.free
  sync := ⟨rfl, rfl⟩

end Read

section Makers

/-- The makers on the ladder of an exact book are all the orders within the limit. -/
theorem makers_ofBook [IdMapOps M] (h : c.Consistent band cap) (hsz : c.Sized band cap)
    (ht : c.TopExact) (sd : Side) (limit : ℕ) :
    (ofBook c band cap).makers sd limit = c.makers sd limit := by
  have hrep := rep_ofBook h hsz
  have hw := wf_ofBook h hsz ht
  have hex := exact_iff.1 (exact_ofBook hsz ht sd)
  set a := ofBook c band cap
  obtain ⟨start, hstart, hall, hmakers⟩ : ∃ start, start < band ∧
      (∀ i < band, i ∈ a.outward sd start) ∧ c.makers sd limit = c.makersFrom sd start limit := by
    have hpos := hsz.band_pos
    cases sd with
    | BUY =>
      have hbids : c.bids.size = band := hsz.levels .BUY
      refine ⟨band - 1, by omega, fun i hi => mem_outward_buy.2 (by omega), ?_⟩
      unfold OrderBook.makers
      rw [hbids]
    | SELL => exact ⟨0, hpos, fun i hi => mem_outward_sell.2 ⟨Nat.zero_le _, hi⟩, rfl⟩
  have hfrom : c.makersFrom sd start limit =
      ((a.outward sd start).filter (sd.Crosses limit ·)).flatMap (a.queue sd) :=
    hrep.makersFrom_eq hw.toSep hstart
  rw [hmakers, hfrom, a.makers_eq]
  split_ifs with hb
  · refine (List.flatMap_eq_nil_iff.2 fun i _ => ?_).symm
    by_contra hq
    exact (hex i hq).1 hb
  · obtain ⟨pre, hpre, -⟩ := outward_split sd
      (hall _ (hw.toSep.lt_band ((hw.top sd).resolve_left hb)))
    have hnd : (pre ++ a.outward sd (a.tob.best sd)).Nodup := hpre ▸ outward_nodup sd
    have hnil : (pre.filter (sd.Crosses limit ·)).flatMap (a.queue sd) = [] := by
      refine List.flatMap_eq_nil_iff.2 fun i hi => ?_
      by_contra hq
      exact (List.nodup_append.1 hnd).2.2 i (List.mem_of_mem_filter hi) i (hex i hq).2 rfl
    rw [hpre, List.filter_append, List.flatMap_append, hnil, List.nil_append]

theorem OrderBook.Consistent.mem_makers [IdMapOps M] (h : c.Consistent band cap)
    (hsz : c.Sized band cap) (ht : c.TopExact) {limit : ℕ} (hs : s ∈ c.makers sd limit) :
    ∃ i < band, s ∈ c.slots sd i := by
  rw [← makers_ofBook h hsz ht] at hs
  obtain ⟨i, hi⟩ := mem_makers_queue hs
  exact ⟨i, mem_queue_ofBook.1 hi⟩

/-- The ladder and the book show the same trades. -/
theorem offer_ofBook [IdMapOps M] (h : c.Consistent band cap) (hi : i < band)
    (hs : s ∈ c.slots sd i) (takerId : OrderId) (amount : ℕ) :
    (ofBook c band cap).offer takerId s amount = c.offer sd takerId s amount := by
  have hp := (h.order_of hi hs).1
  have hl := (h.price sd i hi (List.ne_nil_of_mem hs)).1
  have hinfo : (ofBook c band cap).info s = (c.pool.pool.cell s).resting := rfl
  unfold Ladder.offer OrderBook.offer
  rw [hinfo, hp, hl]
  simp only [Order.resting, hp]
  rfl

end Makers

section Matched

variable {takerId : OrderId} {limit qty : ℕ}

/-- What a taker is left with and what it trades make up what it wants. -/
theorem sum_trades (c : OrderBook M) (sd : Side) (takerId : OrderId) (limit qty : ℕ) :
    qty - total c.qtyAt (c.makers sd limit) +
      ((c.trades sd takerId limit qty).map Trade.qty).sum = qty := by
  have hfilled : ((c.filledMakers sd limit qty).map fun s => c.offer sd takerId s (c.qtyAt s)).map
      Trade.qty = (c.filledMakers sd limit qty).map c.qtyAt := List.map_map
  have hcut : ((c.cutMaker sd limit qty).toList.map
      (c.offer sd takerId · (c.wanted sd limit qty))).map Trade.qty =
      (c.cutMaker sd limit qty).toList.map fun _ => c.wanted sd limit qty := List.map_map
  have hgiven : qty - total c.qtyAt (c.makers sd limit) +
      ((c.filledMakers sd limit qty).map c.qtyAt).sum +
      ((c.cutMaker sd limit qty).toList.map fun _ => c.wanted sd limit qty).sum = qty :=
    left_add_given
  unfold OrderBook.trades
  rw [List.map_append, hfilled, hcut, List.sum_append, ← Nat.add_assoc]
  exact hgiven

variable [IdMapOps M]

theorem trades_ofBook (h : c.Consistent band cap) (hsz : c.Sized band cap) (ht : c.TopExact) :
    (c.filledMakers sd limit qty).map (fun s => (ofBook c band cap).offer takerId s (c.qtyAt s)) ++
      (c.cutMaker sd limit qty).toList.map
        ((ofBook c band cap).offer takerId · (c.wanted sd limit qty)) =
      c.trades sd takerId limit qty := by
  have hoffer : ∀ s ∈ c.makers sd limit, ∀ amount,
      (ofBook c band cap).offer takerId s amount = c.offer sd takerId s amount := fun s hs amount => by
    obtain ⟨i, hi, hs⟩ := h.mem_makers hsz ht hs
    exact offer_ofBook h hi hs takerId amount
  unfold OrderBook.trades
  refine congrArg₂ (· ++ ·) (List.map_congr_left fun s hs => ?_) (List.map_congr_left fun s hs => ?_)
  · exact hoffer s (filled_isPrefix.subset hs) _
  · exact hoffer s (taken_isPrefix.subset (List.mem_append_right _ hs)) _

/-- A taker with a limit in the window fills its quantity from the makers within it, best level
first and head to tail within a level, and the cached best levels are exact afterwards. -/
theorem matchAgainst_matched {E : M → Prop}
    (hE : ∀ m id, E m → ∃ m', IdMapOps.erase m id = some m' ∧ E m') (hm : E c.idMap)
    (hsz : c.Sized band cap) (h : c.Consistent band cap) (ht : c.TopExact) (sd : Side)
    (takerId : OrderId) (hlim : limit < band) (qty : ℕ) :
    ∃ c' left, c.matchAgainst sd takerId limit qty = some (c', left) ∧
      c.Matched sd takerId limit qty c' left := by
  have hrep := rep_ofBook h hsz
  have hw := wf_ofBook h hsz ht
  have htook := hw.match_took sd takerId limit qty
  have hswept := hw.match_spec sd takerId limit qty
  have hex := hswept.exact (exact_ofBook hsz ht)
  have hw' : ((ofBook c band cap).matchAgainst sd takerId limit qty).1.Wf :=
    hw.matchAgainst takerId limit qty
  have hmax : limit < UINT32_MAX := by
    have := hsz.band_lt
    simp only [UINT32_MAX]
    omega
  rw [makers_ofBook h hsz ht] at htook
  set a := ofBook c band cap
  set r := a.matchAgainst sd takerId limit qty
  obtain ⟨d, hrun, hrep'⟩ : ∃ d, (c.onMap (⟨FinMap.init, []⟩ : CallLog FinMap) true).matchAgainst sd
      takerId limit qty = some (d, r.2) ∧ Rep emptyLog d r.1 := by
    cases sd
    · exact hrep.matchAgainstBids hw qty trivial
    · exact hrep.matchAgainstAsks hw hmax qty trivial
  obtain ⟨m', hids, hrun'⟩ := matchAgainst_onMap hE hm c.baseSet sd takerId limit qty rfl hrun
  refine ⟨d.onMap m' c.baseSet, r.2, hrun', ?_⟩
  have hband : r.1.band = band := hswept.frame.band
  have hslots : ∀ sd', ∀ i < (c.levels sd').size,
      d.slots sd' i = (c.slots sd' i).filter (· ∉ c.filledMakers sd limit qty) := by
    intro sd' i hi
    rw [hsz.levels] at hi
    rw [hrep'.slots_eq hw'.toSep sd' (hband ▸ hi), htook.queue, queue_ofBook sd' hi]
    rfl
  have hmem : ∀ {sd' i s}, s ∈ d.slots sd' i → i < (c.levels sd').size → s ∈ r.1.queue sd' i := by
    intro sd' i s hs hi
    rw [hsz.levels] at hi
    rwa [hrep'.slots_eq hw'.toSep sd' (hband ▸ hi)] at hs
  refine {
    first := taken_isPrefix
    reach := taken_reach
    shortest := fun l hl hne => taken_shortest (fun s hs => ?_) hl hne
    logger := ?_
    left := ?_
    base := hrep'.base.trans htook.base
    size := fun sd' => (hrep'.levels sd').trans (hband.trans (hsz.levels sd').symm)
    slots := hslots
    price := fun sd' i hi hq => ?_
    data := fun sd' i hi s hs => ?_
    free := (hrep'.freeSlots_eq hw'.toSep).trans htook.free
    ids := ?_
    top := (hrep'.topExact hw' hex).onMap }
  · obtain ⟨i, hi, hs⟩ := h.mem_makers hsz ht hs
    exact (h.order_of hi hs).2.2
  · exact hrep'.logger.trans (htook.trades.trans (congrArg (c.logger ++ ·) (trades_ofBook h hsz ht)))
  · have hleft := htook.left
    rw [hleft]
    exact sum_trades c sd takerId limit qty
  · -- the price of a level that keeps orders
    have hne : c.slots sd' i ≠ [] := fun hnil => hq (by
      have hnil' := hslots sd' i hi
      rw [hnil] at hnil'
      exact hnil')
    obtain ⟨s, hs⟩ := List.exists_mem_of_ne_nil _ hq
    have hp := hrep'.price sd' i (List.ne_nil_of_mem (hmem hs hi))
    rw [htook.base] at hp
    exact hp.trans (h.price sd' i (hsz.levels sd' ▸ hi) hne).1.symm
  · have hnf : s ∉ c.filledMakers sd limit qty := by
      have hs' : s ∈ d.slots sd' i := hs
      rw [hslots sd' i hi] at hs'
      simpa using (List.mem_filter.1 hs').2
    exact (hrep'.data sd' i s (hmem hs hi)).trans (htook.info s hnf)
  · have hcalls : d.idMap.calls =
        ((c.filledMakers sd limit qty).map fun s => IdCall.erase (c.pool.pool.cell s).id).reverse := by
      have hsync : r.1.calls = d.idMap.calls ++ [] := hrep'.sync.2
      rw [htook.calls] at hsync
      exact (List.append_cancel_right hsync).symm
    rw [← hcalls]
    exact hids

end Matched

section Runs

theorem Rep.sized [IdMapOps M] {L : IdMapLaws M} {a : Ladder} (h : Rep L c a) (hw : a.Wf) :
    c.Sized a.band a.cap where
  band_pos := hw.band_pos
  band_lt := hw.band_lt
  cap_lt := hw.cap_lt
  levels := h.levels
  bitmap := h.bitmap
  qty sd i hi s hs := by
    rw [h.slots_eq hw.toSep sd hi] at hs
    have hqty : c.qtyAt s = (a.info s).qty := h.qtyAt_eq hs
    rw [hqty]
    exact hw.qty_lt hs

/-- A book whose window moves safely is one that a match fills a taker from first to last. -/
theorem run_matchable (hband : 0 < band) (hband' : band < 2 ^ 32) (hcap : 0 < cap)
    (hcap' : cap < 2 ^ 32) (ops : List Op)
    (hsafe : (fresh band cap).AlongRun OrderBook.SafeStep ops) :
    ∃ c, (fresh band cap).run ops = some c ∧ c.Sized band cap ∧ c.Consistent band cap ∧
      c.TopExact := by
  have hw0 := new_wf hband hband' hcap'
  obtain ⟨c, hrun, hrep, hw, hs⟩ := Rep.run_sound ops
    (rep_new hcap (L := finLaws) (m := FinMap.init) rfl) hw0 (new_sound band cap) hsafe
  obtain ⟨hb, hc⟩ := hw0.run_sizes ops
  have hsized := hrep.sized hw
  have hcons := hrep.consistent hw trivial
  rw [hb, hc] at hsized hcons
  exact ⟨c, hrun, hsized, hcons, hrep.topExact hw hs.exact⟩

/-- Three asks on two levels: a taker of 11 fills the first two and cuts the third. -/
def threeAsks : List Op := [.insertLimitOrder 1 .SELL 7 4, .insertLimitOrder 2 .SELL 6 5,
  .insertLimitOrder 3 .SELL 7 9]

theorem matchAgainst_matched_threeAsks : ∃ c, (fresh 10 4).run threeAsks = some c ∧
    ∃ c' left, c.matchAgainst .SELL 8 7 11 = some (c', left) ∧ c.Matched .SELL 8 7 11 c' left := by
  obtain ⟨c, hrun, hsized, hcons, htop⟩ := run_matchable (by decide : 0 < 10) (by decide)
    (by decide : 0 < 4) (by decide) threeAsks (by decide +kernel)
  have herase : ∀ (m : FinMap) (id : OrderId), True → ∃ m', IdMapOps.erase m id = some m' ∧ True :=
    fun _ _ _ => ⟨_, rfl, trivial⟩
  exact ⟨c, hrun, matchAgainst_matched herase trivial hsized hcons htop .SELL 8 (by decide) 11⟩

end Runs

end Nanomatch
