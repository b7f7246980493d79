import Nanomatch.Proofs.LadderWf

/-!
# When the cached best levels are the best ones

`rebase` looks for the new best level from the cached index, which was taken in the old window. As
long as no order that stays in the window lies on the far side of that index (`SafeMove`), the
cached levels are exact, so a taker sees every level it crosses and the book is never crossed.
-/

namespace Nanomatch

namespace Ladder

variable {a a' : Ladder} {sd : Side} {i j s : ℕ}

section Exact

/-- Every level of side `sd` with orders is the cached best one or behind it. -/
def Exact (a : Ladder) (sd : Side) : Prop := ∀ i, a.queue sd i ≠ [] → i ∈ a.candidates sd

/-- Every bid is below every ask. -/
def Uncrossed (a : Ladder) : Prop := ∀ i j, a.queue .BUY i ≠ [] → a.queue .SELL j ≠ [] → i < j

theorem mem_candidates : i ∈ a.candidates sd ↔
    a.tob.best sd ≠ UINT32_MAX ∧ i ∈ a.outward sd (a.tob.best sd) ∧ a.queue sd i ≠ [] := by
  rw [candidates]
  split_ifs with h
  · simp [h]
  · simp [mem_occupied, h]

theorem exact_iff : a.Exact sd ↔ ∀ i, a.queue sd i ≠ [] →
    a.tob.best sd ≠ UINT32_MAX ∧ i ∈ a.outward sd (a.tob.best sd) := by
  refine forall_congr' fun i => forall_congr' fun hi => ?_
  rw [mem_candidates]
  exact ⟨fun h => ⟨h.1, h.2.1⟩, fun h => ⟨h.1, h.2, hi⟩⟩

theorem outward_congr (hb : a'.band = a.band) (sd : Side) (start : ℕ) :
    a'.outward sd start = a.outward sd start := by
  cases sd <;> simp [outward, hb]

/-- Levels may lose orders as long as the cached one stays. -/
theorem Exact.mono (h : a.Exact sd) (hb : a'.band = a.band)
    (ht : a'.tob.best sd = a.tob.best sd) (hq : ∀ i, a'.queue sd i ≠ [] → a.queue sd i ≠ []) :
    a'.Exact sd := by
  rw [exact_iff] at h ⊢
  intro i hi
  rw [ht, outward_congr hb]
  exact h i (hq i hi)

theorem updateBest_exact (hs : a.Sep)
    (h : ∀ i, a.queue sd i ≠ [] → i ∈ a.outward sd (a.searchStart sd)) :
    (a.updateBest sd).Exact sd := by
  intro i hi
  rw [updateBest, candidates_setTop hs rfl]
  exact mem_occupied.2 ⟨h i hi, hi⟩

theorem outward_of_exact (hs : a.Sep) (h : a.Exact sd) (hi : a.queue sd i ≠ []) :
    i ∈ a.outward sd (a.searchStart sd) := by
  obtain ⟨hne, hmem⟩ := exact_iff.1 h i hi
  have hlt := hs.lt_band hi
  cases sd with
  | BUY =>
    have hne' : a.tob.bestBid ≠ UINT32_MAX := hne
    rw [searchStart, if_neg hne']
    exact hmem
  | SELL =>
    rw [searchStart]
    split_ifs
    · exact mem_outward_sell.2 ⟨Nat.zero_le _, hlt⟩
    · exact hmem

/-- A search from an exact level is exact again. -/
theorem Exact.updateBest (h : a.Exact sd) (hs : a.Sep) : (a.updateBest sd).Exact sd :=
  updateBest_exact hs fun _ hi => outward_of_exact hs h hi

theorem updateBest_exact_other {sd' : Side} (hsd : sd' = sd.other) (h : a.Exact sd') :
    (a.updateBest sd).Exact sd' :=
  h.mono rfl (by rw [hsd]; exact best_setTop_other _ _ _ _) fun _ hi => hi

theorem setTopQty_exact {sd' : Side} (h : a.Exact sd') : (a.setTopQty sd i).Exact sd' :=
  h.mono rfl (best_setQty _ _ _ _) fun _ hi => hi

theorem refreshTop_exact (hs : a.Sep) (h : ∀ sd', a.Exact sd') (sd' : Side) :
    (a.refreshTop sd i).Exact sd' := by
  unfold refreshTop
  split_ifs
  · rcases Side.eq_or_other sd sd' with rfl | rfl
    · exact (h sd').updateBest hs
    · exact updateBest_exact_other rfl (h _)
  · exact setTopQty_exact (h sd')
  · exact h sd'

end Exact

section Sound

/-- The cached top of book is exact and the book is not crossed. -/
structure Sound (a : Ladder) : Prop where
  exact : ∀ sd, a.Exact sd
  uncrossed : a.Uncrossed

theorem Uncrossed.mono (h : a.Uncrossed) (hq : ∀ sd i, a'.queue sd i ≠ [] → a.queue sd i ≠ []) :
    a'.Uncrossed := fun i j hi hj => h i j (hq _ _ hi) (hq _ _ hj)

theorem new_sound (band cap : ℕ) : (new band cap).Sound where
  exact _ _ hi := absurd rfl hi
  uncrossed _ _ hi := absurd rfl hi

theorem Sound.mono (h : a.Sound) (hb : a'.band = a.band) (ht : a'.tob = a.tob)
    (hq : ∀ sd i, a'.queue sd i ≠ [] → a.queue sd i ≠ []) : a'.Sound where
  exact sd := (h.exact sd).mono hb (ht ▸ rfl) (hq sd)
  uncrossed := h.uncrossed.mono hq

theorem Sound.refreshTop (h : a.Sound) (hs : a.Sep) (sd : Side) (i : ℕ) :
    (a.refreshTop sd i).Sound := by
  refine ⟨refreshTop_exact hs h.exact, h.uncrossed.mono fun sd' j hj => ?_⟩
  unfold Ladder.refreshTop at hj
  split_ifs at hj <;> exact hj

theorem Sound.retire (h : a.Sound) (hs : a.Sep) (hsq : s ∈ a.queue sd i) :
    (a.retire sd i s).Sound := by
  refine h.mono rfl rfl fun sd' j hj => ?_
  obtain ⟨x, hx⟩ := List.exists_mem_of_ne_nil _ hj
  exact List.ne_nil_of_mem ((mem_retire hs hsq).1 hx).1

/-- An order that leaves the book leaves the cached levels exact. -/
theorem cancelAt_exact (h : ∀ sd, a.Exact sd) (hs : a.Sep) (hr : a.Rests s) :
    ∀ sd, (a.cancelAt s).Exact sd := by
  refine refreshTop_exact (hs.retire hr) fun sd => (h sd).mono rfl rfl fun j hj => ?_
  obtain ⟨x, hx⟩ := List.exists_mem_of_ne_nil _ hj
  exact List.ne_nil_of_mem ((mem_retire hs hr).1 hx).1

theorem Sound.cancelAt (h : a.Sound) (hw : a.Wf) (hs : a.Rests s) : (a.cancelAt s).Sound :=
  (h.retire hw.toSep hs).refreshTop (hw.toSep.retire hs) _ _

theorem Sound.takePartly (h : a.Sound) (s amount : ℕ) : (a.takePartly s amount).Sound := by
  have h1 : (a.take s amount).Sound := h.mono rfl rfl fun _ _ hi => hi
  unfold Ladder.takePartly
  split_ifs
  · exact ⟨fun sd => setTopQty_exact (h1.exact sd), h1.uncrossed⟩
  · exact h1

theorem Sound.executeAt (h : a.Sound) (hw : a.Wf) (hs : a.Rests s) (fillQty : ℕ) :
    (a.executeAt s fillQty).1.Sound := by
  unfold Ladder.executeAt
  simp only
  split_ifs
  · set t := a.trade ⟨(a.info s).id, 0, a.base + (a.info s).price, min fillQty (a.info s).qty⟩
    have ht : t.Wf := hw.trade _
    have hts : t.Sound := h.mono rfl rfl fun _ _ hi => hi
    rw [refreshTop_dropLive]
    exact (hts.cancelAt ht hs).mono rfl rfl fun _ _ hi => hi
  · exact (h.mono rfl rfl fun _ _ hi => hi : (a.trade _).Sound).takePartly _ _

end Sound

section Match

theorem Swept.queue_ne_nil {limit : ℕ} {r : Ladder × ℕ} (h : Swept sd limit a r) {sd' : Side}
    (hi : r.1.queue sd' i ≠ []) : a.queue sd' i ≠ [] := by
  rcases Side.eq_or_other sd sd' with rfl | rfl
  · obtain ⟨x, hx⟩ := List.exists_mem_of_ne_nil _ hi
    exact List.ne_nil_of_mem ((h.frame.sub i).subset hx)
  · rwa [h.frame.queue sd.other i fun hc => by cases sd <;> simp [Side.other] at hc] at hi

/-- A taker sees every level, so what it leaves is exact. -/
theorem Swept.exact {limit : ℕ} {r : Ladder × ℕ} (hs : Swept sd limit a r)
    (h : ∀ sd', a.Exact sd') (sd' : Side) : r.1.Exact sd' := by
  rcases Side.eq_or_other sd sd' with rfl | rfl
  · exact fun i hi => hs.kept i (h sd' i (hs.queue_ne_nil hi)) hi
  · exact (h sd.other).mono hs.frame.band hs.frame.top fun _ hi => hs.queue_ne_nil hi

theorem Sound.matched {limit : ℕ} {r : Ladder × ℕ} (h : a.Sound) (hs : Swept sd limit a r) :
    r.1.Sound :=
  ⟨hs.exact h.exact, h.uncrossed.mono fun _ _ hi => hs.queue_ne_nil hi⟩

/-- A taker with quantity left has met every level that its limit crosses. -/
theorem not_crosses_of_swept {limit : ℕ} {r : Ladder × ℕ} (h : r.1.Sound)
    (hs : Swept sd limit a r) (hr : r.2 ≠ 0) (hi : r.1.queue sd i ≠ []) : ¬ sd.Crosses limit i := by
  have hmem := h.exact sd i hi
  obtain ⟨-, hout, -⟩ := mem_candidates.1 hmem
  rcases hl : r.1.candidates sd with _ | ⟨x, l⟩
  · rw [hl] at hmem
    exact absurd hmem List.not_mem_nil
  · have hx := hs.done.resolve_left hr x l hl
    rw [best_of_candidates hs.core.toSep hs.top hl] at hout
    cases sd with
    | BUY =>
      have := mem_outward_buy.1 hout
      simp only [Side.Crosses] at hx ⊢
      omega
    | SELL =>
      have := (mem_outward_sell.1 hout).1
      simp only [Side.Crosses] at hx ⊢
      omega

end Match

section Rest

variable {id : OrderId} {qty : ℕ}

theorem queue_enter {sd' : Side} {free : List ℕ} :
    ({ a with free }.enter id sd i qty s).queue sd' j ≠ [] ↔
      a.queue sd' j ≠ [] ∨ sd' = sd ∧ j = i := by
  simp only [enter, setQueue, setInfo]
  split_ifs with hc
  · simp [hc]
  · simp [hc]

/-- The cached top is moved to a better level. -/
theorem outward_better {best : ℕ} (h : sd.Better i best) (hne : best ≠ UINT32_MAX)
    (hj : j ∈ a.outward sd best) : j ∈ a.outward sd i := by
  cases sd with
  | BUY =>
    have := mem_outward_buy.1 hj
    have := h.resolve_left hne
    exact mem_outward_buy.2 (by omega)
  | SELL =>
    obtain ⟨h1, h2⟩ := mem_outward_sell.1 hj
    have := h.resolve_left hne
    exact mem_outward_sell.2 ⟨by omega, h2⟩

theorem mem_outward_self (hi : i < a.band) : i ∈ a.outward sd i := by
  cases sd
  · exact mem_outward_buy.2 le_rfl
  · exact mem_outward_sell.2 ⟨le_rfl, hi⟩

theorem outward_not_better {best : ℕ} (h : ¬ sd.Better i best) (hi : i < a.band) :
    best ≠ UINT32_MAX ∧ i ∈ a.outward sd best := by
  cases sd with
  | BUY =>
    simp only [Side.Better] at h
    exact ⟨fun hb => h (.inl hb), mem_outward_buy.2 (by omega)⟩
  | SELL =>
    simp only [Side.Better] at h
    exact ⟨fun hb => h (.inl hb), mem_outward_sell.2 ⟨by omega, hi⟩⟩

/-- An order that rests leaves the cached levels exact. -/
theorem rest_exact (h : ∀ sd, a.Exact sd) (hs : a.Sep) (hi : i < a.band) :
    ∀ sd', (a.rest id sd i qty).1.Exact sd' := by
  rw [Ladder.rest]
  split
  · exact h
  rename_i s free hf
  have hother : ({ a with free }.enter id sd i qty s).Exact sd.other := by
    refine (h sd.other).mono rfl rfl fun j hj => (queue_enter.1 hj).resolve_right ?_
    cases sd <;> simp [Side.other]
  have hold := exact_iff.1 (h sd)
  simp only
  intro sd'
  split_ifs with hb
  · rcases Side.eq_or_other sd sd' with rfl | rfl
    · refine exact_iff.2 fun j hj => ?_
      have hbest : (({ a with free }.enter id sd' i qty s).setTop sd' i).tob.best sd' = i :=
        best_setTop _ _ _ _
      rw [hbest]
      refine ⟨hs.level_ne_max hi, ?_⟩
      rcases queue_enter.1 hj with hj | ⟨-, rfl⟩
      · obtain ⟨hne, hmem⟩ := hold j hj
        exact outward_better hb hne hmem
      · exact mem_outward_self hi
    · exact hother.mono rfl (best_setTop_other _ _ _ _) fun _ hj => hj
  · rcases Side.eq_or_other sd sd' with rfl | rfl
    · refine exact_iff.2 fun j hj => ?_
      rcases queue_enter.1 hj with hj | ⟨-, rfl⟩
      · exact hold j hj
      · exact outward_not_better hb hi
    · exact hother

/-- An order that crosses nothing on the other side rests. -/
theorem Sound.rest (h : a.Sound) (hs : a.Sep) (hi : i < a.band)
    (hfree : ∀ j, a.queue sd.other j ≠ [] → ¬ sd.other.Crosses i j) :
    (a.rest id sd i qty).1.Sound := by
  refine ⟨rest_exact h.exact hs hi, ?_⟩
  rw [Ladder.rest]
  split
  · exact h.uncrossed
  rename_i s free hf
  have hun : ({ a with free }.enter id sd i qty s).Uncrossed := by
    intro x y hx hy
    rcases queue_enter.1 hx with hx | ⟨rfl, rfl⟩ <;> rcases queue_enter.1 hy with hy | ⟨hsd, rfl⟩
    · exact h.uncrossed x y hx hy
    · subst hsd
      exact Nat.lt_of_not_le (hfree x hx)
    · exact Nat.lt_of_not_le (hfree y hy)
    · exact Side.noConfusion hsd
  simp only
  split_ifs <;> exact hun

theorem Sound.place (h : a.Sound) (hw : a.Wf) (hi : i < a.band) :
    (a.place id sd i qty).1.Sound := by
  have hs : Swept sd.other i a (a.matchAgainst sd.other id i qty) := hw.match_spec _ _ _ _
  have h1 := h.matched hs
  unfold Ladder.place
  simp only
  split_ifs with hr
  · exact h1
  · exact h1.rest hs.core.toSep (hs.frame.band ▸ hi) fun j hj => not_crosses_of_swept h1 hs hr hj

end Rest

section Rebase

/-- No order that stays when the window moves to `newBase` is ahead of its side's cached index. -/
def SafeMove (a : Ladder) (newBase : ℕ) : Prop :=
  (∀ i, a.queue .BUY i ≠ [] → a.Keeps newBase i → a.base + i ≤ newBase + a.tob.bestBid) ∧
  ∀ i, a.queue .SELL i ≠ [] → a.Keeps newBase i → newBase + a.tob.bestAsk ≤ a.base + i

theorem queue_moveTo {newBase nr : ℕ} (h : (a.moveTo newBase).queue sd nr ≠ []) :
    nr < a.band ∧ ∃ i < a.band, a.base + i = newBase + nr ∧ a.queue sd i ≠ [] := by
  obtain ⟨x, hx⟩ := List.exists_mem_of_ne_nil _ h
  obtain ⟨hnr, i, hi, he, hs⟩ := mem_moveTo.1 hx
  exact ⟨hnr, i, hi, he, List.ne_nil_of_mem hs⟩

theorem moveTo_outward {newBase : ℕ} (h : a.Sound) (hsafe : a.SafeMove newBase)
    (hq : (a.moveTo newBase).queue sd j ≠ []) :
    j ∈ (a.moveTo newBase).outward sd ((a.moveTo newBase).searchStart sd) := by
  obtain ⟨hj, i, hi, he, hne⟩ := queue_moveTo hq
  obtain ⟨hband, -, htob, -, -, -, -⟩ := moveTo_fields a newBase
  obtain ⟨hmax, -⟩ := exact_iff.1 (h.exact sd) i hne
  rw [outward_congr hband]
  cases sd with
  | BUY =>
    have hmax' : a.tob.bestBid ≠ UINT32_MAX := hmax
    have := hsafe.1 i hne ⟨by omega, by omega⟩
    rw [searchStart, htob, if_neg hmax']
    exact mem_outward_buy.2 (by omega)
  | SELL =>
    have := hsafe.2 i hne ⟨by omega, by omega⟩
    rw [searchStart, htob, hband]
    split_ifs
    · exact mem_outward_sell.2 ⟨Nat.zero_le _, hj⟩
    · exact mem_outward_sell.2 ⟨by omega, hj⟩

theorem Sound.rebase {newBase : ℕ} (h : a.Sound) (hw : a.Wf) (hsafe : a.SafeMove newBase) :
    (a.rebase newBase).Sound := by
  unfold Ladder.rebase
  split_ifs
  · exact h
  have hs := (hw.toCore.moveTo newBase).toSep
  have hbid : ((a.moveTo newBase).updateBest .BUY).Exact .BUY :=
    updateBest_exact hs fun j hj => moveTo_outward h hsafe hj
  have hask : (((a.moveTo newBase).updateBest .BUY).updateBest .SELL).Exact .SELL :=
    updateBest_exact (hs.setTop _ _) fun j hj => moveTo_outward h hsafe hj
  refine ⟨fun sd => ?_, ?_⟩
  · cases sd
    · exact updateBest_exact_other rfl hbid
    · exact hask
  · intro x y hx hy
    obtain ⟨-, i, -, hi, hxi⟩ := queue_moveTo hx
    obtain ⟨-, j, -, hj, hyj⟩ := queue_moveTo hy
    have := h.uncrossed i j hxi hyj
    omega

end Rebase

section Steps

/-- The order's price is outside the window, which therefore moves. -/
def Moves (a : Ladder) (price : ℕ) : Prop :=
  a.baseSet = true ∧ ¬ a.InWindow price ∧ a.live ≤ BOOTSTRAP_REBASE_LIMIT

instance (a : Ladder) (price : ℕ) : Decidable (a.Moves price) :=
  inferInstanceAs (Decidable (_ ∧ _ ∧ _))

/-- If the call moves the window, the move is safe. -/
def SafeStep (a : Ladder) : OrderBook.Op → Prop
  | .insertLimitOrder _ _ price _ => a.Moves price.toNat →
    a.SafeMove (OrderBook.centeredBase a.band price.toNat)
  | _ => True

theorem centeredBase_inWindow {band : ℕ} (hb : 0 < band) (price : ℕ) :
    OrderBook.centeredBase band price ≤ price ∧
      price < OrderBook.centeredBase band price + band := by
  simp only [OrderBook.centeredBase]
  split_ifs <;> omega

theorem Sound.rebaseFor {price : ℕ} (h : a.Sound) (hw : a.Wf)
    (hsafe : a.Moves price → a.SafeMove (OrderBook.centeredBase a.band price)) :
    ((a.anchor price).rebaseFor price).Sound := by
  unfold Ladder.anchor Ladder.rebaseFor
  split_ifs with hset hc hc
  · exact h.rebase hw (hsafe ⟨hset, hc⟩)
  · exact h
  · exact absurd (centeredBase_inWindow hw.band_pos price) hc.1
  · exact h.mono rfl rfl fun _ _ hi => hi

theorem Sound.insertLimitOrder {id : OrderId} {price qty : ℕ} (h : a.Sound) (hw : a.Wf)
    (hsafe : a.Moves price → a.SafeMove (OrderBook.centeredBase a.band price)) :
    (a.insertLimitOrder id sd price qty).1.Sound := by
  have h1 := h.rebaseFor hw hsafe
  unfold Ladder.insertLimitOrder
  simp only
  split_ifs with hin
  · obtain ⟨hin1, hin2⟩ := hin
    exact h1.place ((hw.anchor price).1.rebaseFor price) (by omega)
  · exact h1

theorem Sound.step (h : a.Sound) (hw : a.Wf) : ∀ op : OrderBook.Op, a.SafeStep op →
    (a.step op).1.Sound
  | .insertLimitOrder _ _ _ _, hsafe => h.insertLimitOrder hw hsafe
  | .cancelOrder id, _ => by
    simp only [Ladder.step, Ladder.cancelOrder]
    split_ifs with hid
    · exact h
    · exact h.cancelAt hw (hw.ids id hid).1
  | .processMarketOrder sd qty, _ => h.matched (hw.match_spec sd.other _ _ _)
  | .executeOrder id fillQty, _ => by
    simp only [Ladder.step, Ladder.executeOrder]
    split_ifs with hid
    · exact h
    · exact h.executeAt hw (hw.ids id hid).1 _
  | .reduceOrderQty id cancelQty, _ => by
    simp only [Ladder.step, Ladder.reduceOrderQty]
    split_ifs with hid
    · exact h
    · exact h.cancelAt hw (hw.ids id hid).1
    · exact h.takePartly _ _

end Steps

end Ladder

end Nanomatch
