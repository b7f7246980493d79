import Mathlib.Data.List.Nodup
import Nanomatch.Proofs.LadderMatch

/-!
# The ladder's invariant

`Wf` is kept by every operation, so it holds in every state of a run: no slot is lost or shared,
resting orders have quantity left, the map holds resting orders only, and the cached best levels
hold orders. It does not say that the cached best levels are the best ones.
-/

namespace Nanomatch

namespace Ladder

/-- What every operation keeps. -/
structure Wf (a : Ladder) : Prop extends Core a where
  pos : a.Pos
  top : ∀ sd, a.TopOk sd

variable {a : Ladder} {sd : Side} {i s : ℕ}

theorem new_wf {band cap : ℕ} (hb : 0 < band) (hband : band < 2 ^ 32) (hcap : cap < 2 ^ 32) :
    (new band cap).Wf where
  band_pos := hb
  band_lt := hband
  cap_lt := hcap
  nodup _ _ := List.nodup_nil
  free_nodup := List.nodup_range
  free_lt _ hs := List.mem_range.1 hs
  side_eq hs := absurd hs List.not_mem_nil
  price_eq hs := absurd hs List.not_mem_nil
  slot_lt hs := absurd hs List.not_mem_nil
  level_lt hs := absurd hs List.not_mem_nil
  no_wrap hs := absurd hs List.not_mem_nil
  qty_lt hs := absurd hs List.not_mem_nil
  not_free hs := absurd hs List.not_mem_nil
  cover _ hs := .inl (List.mem_range.2 hs)
  ids _ hid := absurd rfl hid
  unset _ _ _ := rfl
  pos _ _ _ hs := absurd hs List.not_mem_nil
  top sd := .inl (by cases sd <;> rfl)

section Top

theorem TopOk.congr {a' : Ladder} (h : a.TopOk sd) (hb : a'.tob.best sd = a.tob.best sd)
    (hq : a'.queue sd = a.queue sd) : a'.TopOk sd := by
  rwa [TopOk, hb, hq]

theorem Side.eq_or_other (sd sd' : Side) : sd' = sd ∨ sd' = sd.other := by
  cases sd <;> cases sd' <;> simp [Side.other]

/-- A search for the best level of one side leaves both cached best levels on orders. -/
theorem updateBest_topOk (h : ∀ sd' ≠ sd, a.TopOk sd') : ∀ sd', (a.updateBest sd).TopOk sd' := by
  intro sd'
  rcases Side.eq_or_other sd sd' with rfl | rfl
  · exact setTop_topOk fun i hi => (mem_occupied.1 hi).2
  · exact (h sd.other (by cases sd <;> simp [Side.other])).congr (best_setTop_other _ _ _ _) rfl

theorem setTopQty_topOk {sd' : Side} (h : a.TopOk sd') : (a.setTopQty sd i).TopOk sd' :=
  h.congr (best_setQty _ _ _ _) rfl

/-- The refresh after an order left level `i`. -/
theorem refreshTop_topOk (h : ∀ sd', a.TopOk sd' ∨ sd' = sd ∧ a.tob.best sd = i) :
    ∀ sd', (a.refreshTop sd i).TopOk sd' := by
  unfold Ladder.refreshTop
  split_ifs with hb hq
  · exact updateBest_topOk fun sd' hsd => (h sd').resolve_right fun hc => hsd hc.1
  · intro sd'
    refine setTopQty_topOk ?_
    rcases h sd' with h | ⟨rfl, hi⟩
    · exact h
    · exact .inr (hi ▸ hq)
  · intro sd'
    exact (h sd').resolve_right fun hc => hb hc.2.symm

end Top

section Match

theorem Wf.match_spec (h : a.Wf) (sd : Side) (takerId : OrderId) (limit qty : ℕ) :
    Swept sd limit a (a.matchAgainst sd takerId limit qty) :=
  sweep_spec _ a qty rfl h.toCore h.pos (h.top sd)

theorem Wf.matchAgainst (h : a.Wf) (takerId : OrderId) (limit qty : ℕ) :
    (a.matchAgainst sd takerId limit qty).1.Wf := by
  have hs : Swept sd limit a (a.matchAgainst sd takerId limit qty) := h.match_spec _ _ _ _
  refine { hs.core with pos := hs.pos, top := fun sd' => ?_ }
  rcases Side.eq_or_other sd sd' with rfl | rfl
  · exact hs.top
  · refine (h.top sd.other).congr hs.frame.top (funext fun i => hs.frame.queue _ _ fun hc => ?_)
    cases sd <;> simp [Side.other] at hc

end Match

section Enter

variable {id : OrderId} {qty : ℕ} {free : List ℕ}

theorem mem_enter {sd' : Side} {j x : ℕ} : x ∈ (a.enter id sd i qty s).queue sd' j ↔
    x ∈ a.queue sd' j ∨ x = s ∧ sd' = sd ∧ j = i := by
  simp only [enter, setQueue, setInfo]
  split_ifs with hc
  · simp [hc]
  · simp [hc]

theorem enter_info_self : (a.enter id sd i qty s).info s = ⟨id, i, qty, sd⟩ := by
  simp [enter, setQueue, setInfo]

theorem enter_info_of_ne {x : ℕ} (hx : x ≠ s) : (a.enter id sd i qty s).info x = a.info x := by
  simp [enter, setQueue, setInfo, hx]

theorem find_enter (k : OrderId) :
    (a.enter id sd i qty s).find k = if id = k then s else a.find k := rfl

theorem Core.enter (h : a.Core) (hf : a.free = s :: free) (hset : a.baseSet = true)
    (hi : i < a.band) (hw : a.base + i < 2 ^ 32) (hqty : qty < 2 ^ 32) :
    ({ a with free }.enter id sd i qty s).Core := by
  have hs : ∀ {sd' j x}, x ∈ a.queue sd' j → x ≠ s := by
    rintro sd' j x hx rfl
    exact h.not_free hx (hf ▸ List.mem_cons_self)
  have hfree : (s :: free).Nodup := hf ▸ h.free_nodup
  have hlt : s < a.cap := h.free_lt s (hf ▸ List.mem_cons_self)
  have hrests : ∀ {x}, a.Rests x → ({ a with free }.enter id sd i qty s).Rests x := by
    intro x hx
    rw [Rests, enter_info_of_ne (hs hx)]
    exact mem_enter.2 (.inl hx)
  refine {
    band_pos := h.band_pos, band_lt := h.band_lt, cap_lt := h.cap_lt
    free_nodup := (List.nodup_cons.1 hfree).2
    free_lt := fun x hx => h.free_lt x (hf ▸ List.mem_cons_of_mem s hx)
    nodup := ?_, side_eq := ?_, price_eq := ?_, slot_lt := ?_, level_lt := ?_, no_wrap := ?_
    qty_lt := ?_, not_free := ?_, cover := ?_, ids := ?_, unset := ?_ }
  · intro sd' j
    simp only [Ladder.enter, Ladder.setQueue, Ladder.setInfo]
    split_ifs
    · exact List.nodup_append.2 ⟨h.nodup sd i, List.nodup_singleton s, by
        intro x hx y hy
        rw [List.mem_singleton.1 hy]
        exact hs hx⟩
    · exact h.nodup sd' j
  · intro sd' j x hx
    rcases mem_enter.1 hx with hx | ⟨rfl, rfl, rfl⟩
    · rw [enter_info_of_ne (hs hx)]; exact h.side_eq hx
    · rw [enter_info_self]
  · intro sd' j x hx
    rcases mem_enter.1 hx with hx | ⟨rfl, rfl, rfl⟩
    · rw [enter_info_of_ne (hs hx)]; exact h.price_eq hx
    · rw [enter_info_self]
  · intro sd' j x hx
    rcases mem_enter.1 hx with hx | ⟨rfl, rfl, rfl⟩
    · exact h.slot_lt hx
    · exact hlt
  · intro sd' j x hx
    rcases mem_enter.1 hx with hx | ⟨rfl, rfl, rfl⟩
    · exact h.level_lt hx
    · exact hi
  · intro sd' j x hx
    rcases mem_enter.1 hx with hx | ⟨rfl, rfl, rfl⟩
    · exact h.no_wrap hx
    · exact hw
  · intro sd' j x hx
    rcases mem_enter.1 hx with hx | ⟨rfl, rfl, rfl⟩
    · rw [enter_info_of_ne (hs hx)]; exact h.qty_lt hx
    · rw [enter_info_self]; exact hqty
  · intro sd' j x hx
    rcases mem_enter.1 hx with hx | ⟨rfl, rfl, rfl⟩
    · exact fun hx' => h.not_free hx (hf ▸ List.mem_cons_of_mem s hx')
    · exact (List.nodup_cons.1 hfree).1
  · intro x hx
    by_cases hxs : x = s
    · subst hxs
      right
      rw [Rests, enter_info_self]
      exact mem_enter.2 (.inr ⟨rfl, rfl, rfl⟩)
    · refine (h.cover x hx).imp (fun hx => ?_) hrests
      exact (List.mem_cons.1 (hf ▸ hx)).resolve_left hxs
  · intro k hk
    rw [find_enter] at hk ⊢
    split_ifs with hid
    · rw [Rests, enter_info_self]
      exact ⟨mem_enter.2 (.inr ⟨rfl, rfl, rfl⟩), hid⟩
    · rw [if_neg hid] at hk
      obtain ⟨h1, h2⟩ := h.ids k hk
      exact ⟨hrests h1, (congrArg Resting.id (enter_info_of_ne (hs h1))).trans h2⟩
  · intro hb
    exact absurd (hset.symm.trans hb) Bool.noConfusion

theorem enter_pos (h : a.Pos) (hs : ∀ sd' j, s ∉ a.queue sd' j) (hqty : 0 < qty) :
    (a.enter id sd i qty s).Pos := by
  intro sd' j x hx
  rcases mem_enter.1 hx with hx | ⟨rfl, rfl, rfl⟩
  · have hne : x ≠ s := fun he => hs sd' j (he ▸ hx)
    rw [enter_info_of_ne hne]
    exact h sd' j x hx
  · rw [enter_info_self]; exact hqty

theorem Wf.rest (h : a.Wf) (hset : a.baseSet = true) (hi : i < a.band) (hw : a.base + i < 2 ^ 32)
    (hpos : 0 < qty) (hlt : qty < 2 ^ 32) : (a.rest id sd i qty).1.Wf := by
  rw [Ladder.rest]
  split
  · exact h
  · rename_i s free hf
    have hs : ∀ sd' j, s ∉ a.queue sd' j := fun sd' j hs =>
      h.not_free hs (hf ▸ List.mem_cons_self)
    have hc : ({ a with free }.enter id sd i qty s).Core := h.toCore.enter hf hset hi hw hlt
    have hpos : ({ a with free }.enter id sd i qty s).Pos := enter_pos (a := { a with free }) h.pos
      hs hpos
    have htop : ∀ sd', ({ a with free }.enter id sd i qty s).TopOk sd' := fun sd' =>
      (h.top sd').imp_right fun hne hq => hne (List.eq_nil_iff_forall_not_mem.2 fun x hx =>
        List.eq_nil_iff_forall_not_mem.1 hq x (mem_enter.2 (.inl hx)))
    simp only
    split_ifs
    · refine { hc.setTop sd i with pos := hpos, top := fun sd' => ?_ }
      rcases Side.eq_or_other sd sd' with rfl | rfl
      · refine .inr ?_
        rw [setTop, best_setTop]
        exact List.ne_nil_of_mem (mem_enter.2 (.inr ⟨rfl, rfl, rfl⟩))
      · exact (htop sd.other).congr (best_setTop_other _ _ _ _) rfl
    · exact { hc with pos := hpos, top := htop }

end Enter

section Leave

theorem retire_pos (h : a.Sep) (hpos : a.Pos) (hs : s ∈ a.queue sd i) : (a.retire sd i s).Pos :=
  fun sd' j x hx => hpos sd' j x ((mem_retire h hs).1 hx).1

theorem retire_topOk (h : ∀ sd, a.TopOk sd) (sd' : Side) :
    (a.retire sd i s).TopOk sd' ∨ sd' = sd ∧ a.tob.best sd = i := by
  by_cases hc : sd' = sd ∧ a.tob.best sd = i
  · exact .inr hc
  · refine .inl ((h sd').imp_right fun hq => ?_)
    have hne : ¬ (sd' = sd ∧ a.tob.best sd' = i) := fun h => hc ⟨h.1, h.1 ▸ h.2⟩
    have htob : (a.retire sd i s).tob = a.tob := rfl
    rwa [htob, retire_queue, if_neg hne]

/-- An order leaves the book, and the top of book is refreshed. -/
theorem Wf.leave (h : a.Wf) (hs : a.Rests s) :
    ((a.retire (a.info s).side (a.info s).price s).refreshTop (a.info s).side
      (a.info s).price).Wf := by
  have hpos : (a.retire (a.info s).side (a.info s).price s).Pos := retire_pos h.toSep h.pos hs
  refine { (h.toCore.retire hs).refreshTop _ _ with pos := ?_, top := ?_ }
  · unfold refreshTop
    split_ifs <;> exact hpos
  · exact refreshTop_topOk fun sd' => retire_topOk h.top sd'

theorem Wf.trade (h : a.Wf) (t : Trade) : (a.trade t).Wf :=
  { h.toCore.trade t with pos := h.pos, top := h.top }

theorem Wf.dropLive (h : a.Wf) : a.dropLive.Wf :=
  { h.toCore.dropLive with pos := h.pos, top := h.top }

theorem Wf.cancelAt (h : a.Wf) (hs : a.Rests s) : (a.cancelAt s).Wf := h.leave hs

theorem Wf.take (h : a.Wf) {amount : ℕ} (hamount : amount < (a.info s).qty) :
    (a.take s amount).Wf := by
  refine { h.toCore.take s amount with pos := fun sd i x hx => ?_, top := h.top }
  rw [(take_info s amount x).2.2.2]
  have := h.pos sd i x hx
  split_ifs with hxs
  · subst hxs; omega
  · exact this

theorem Wf.takePartly (h : a.Wf) {amount : ℕ} (hamount : amount < (a.info s).qty) :
    (a.takePartly s amount).Wf := by
  have h1 := h.take hamount
  unfold Ladder.takePartly
  split_ifs
  · exact { h1.toCore.setTopQty _ _ with
      pos := h1.pos, top := fun sd' => setTopQty_topOk (h1.top sd') }
  · exact h1

theorem refreshTop_dropLive (sd : Side) (i : ℕ) :
    a.dropLive.refreshTop sd i = (a.refreshTop sd i).dropLive := by
  have hbest : a.dropLive.tob = a.tob := rfl
  have hqueue : a.dropLive.queue = a.queue := rfl
  unfold refreshTop
  rw [hbest, hqueue]
  split_ifs <;> rfl

theorem Wf.executeAt (h : a.Wf) (hs : a.Rests s) (fillQty : ℕ) : (a.executeAt s fillQty).1.Wf := by
  unfold Ladder.executeAt
  simp only
  split_ifs with hle
  · rw [refreshTop_dropLive]
    exact ((h.trade _).leave hs).dropLive
  · exact (h.trade _).takePartly (Nat.lt_of_not_le hle)

theorem Wf.cancelOrder (h : a.Wf) (id : OrderId) : (a.cancelOrder id).Wf := by
  unfold Ladder.cancelOrder
  split_ifs with hid
  · exact h
  · exact h.cancelAt (h.ids id hid).1

theorem Wf.executeOrder (h : a.Wf) (id : OrderId) (fillQty : ℕ) :
    (a.executeOrder id fillQty).1.Wf := by
  unfold Ladder.executeOrder
  split_ifs with hid
  · exact h
  · exact h.executeAt (h.ids id hid).1 fillQty

theorem Wf.reduceOrderQty (h : a.Wf) (id : OrderId) (cancelQty : ℕ) :
    (a.reduceOrderQty id cancelQty).1.Wf := by
  unfold Ladder.reduceOrderQty
  split_ifs with hid hle
  · exact h
  · exact h.cancelAt (h.ids id hid).1
  · exact h.takePartly (Nat.lt_of_not_le hle)

theorem Wf.processMarketOrder (h : a.Wf) (sd : Side) (qty : ℕ) :
    (a.processMarketOrder sd qty).Wf := h.matchAgainst _ _ _

end Leave

section Rebase

variable {newBase : ℕ}

theorem dropAll_fields : ∀ (slots : List ℕ) (a : Ladder),
    let d := dropAll slots a
    d.band = a.band ∧ d.cap = a.cap ∧ d.tob = a.tob ∧ d.baseSet = a.baseSet ∧ d.info = a.info ∧
      d.queue = a.queue ∧ d.trades = a.trades ∧ d.free = slots.reverse ++ a.free ∧
      d.live = a.live - slots.length ∧ d.base = a.base ∧
      d.calls = (slots.map fun s => IdCall.erase (a.info s).id).reverse ++ a.calls
  | [], a => by simp [dropAll]
  | s :: slots, a => by
    obtain ⟨h1, h2, h3, h4, h5, h6, h7, h8, h9, h10, h11⟩ :=
      dropAll_fields slots ((a.eraseId (a.info s).id).release s).dropLive
    rw [dropAll]
    refine ⟨h1, h2, h3, h4, h5, h6, h7, ?_, ?_, h10, ?_⟩
    · rw [h8]; simp [dropLive, release, eraseId]
    · rw [h9]; simp only [dropLive, release, eraseId, List.length_cons]; omega
    · rw [h11]; simp [dropLive, release, eraseId]

theorem lastInsert_erases (ids : List OrderId) (calls : List IdCall) (k : OrderId) :
    lastInsert (ids.map IdCall.erase ++ calls) k =
      if k ∈ ids then NULL_IDX else lastInsert calls k := by
  induction ids with
  | nil => simp
  | cons id ids ih =>
    simp only [List.map_cons, List.cons_append, lastInsert, ih, List.mem_cons]
    by_cases hid : id = k
    · simp [hid]
    · simp [hid, Ne.symm hid]

theorem mem_dropped {n : ℕ} : s ∈ a.dropped newBase sd n ↔
    ∃ i < n, ¬ a.Keeps newBase i ∧ s ∈ a.queue sd i := by
  simp only [dropped, List.mem_flatMap, List.mem_range]
  refine exists_congr fun i => and_congr_right fun _ => ?_
  split_ifs with h <;> simp [h]

theorem mem_shifted {n nr : ℕ} : s ∈ a.shifted newBase sd n nr ↔
    ∃ i < n, a.base + i = newBase + nr ∧ s ∈ a.queue sd i := by
  rw [shifted]
  split_ifs with h
  · constructor
    · intro hs
      exact ⟨newBase + nr - a.base, by omega, by omega, hs⟩
    · rintro ⟨i, -, hi, hs⟩
      rwa [show newBase + nr - a.base = i by omega]
  · constructor
    · intro hs; exact absurd hs List.not_mem_nil
    · rintro ⟨i, hn, hi, -⟩; omega

theorem Sep.dropped_nodup (h : a.Sep) (newBase : ℕ) (sd : Side) (n : ℕ) :
    (a.dropped newBase sd n).Nodup := by
  rw [dropped, List.nodup_flatMap]
  refine ⟨fun i _ => ?_, ?_⟩
  · split_ifs
    · exact List.nodup_nil
    · exact h.nodup sd i
  · refine List.nodup_range.imp fun {i j} hij => ?_
    intro x hx hx'
    dsimp only at hx hx'
    split_ifs at hx hx'
    all_goals first | exact absurd hx List.not_mem_nil | exact absurd hx' List.not_mem_nil | skip
    exact hij (h.unique hx hx').2.symm

/-- The slots that a move of the window frees. -/
def droppedSlots (a : Ladder) (newBase : ℕ) : List ℕ :=
  a.dropped newBase .BUY a.band ++ a.dropped newBase .SELL a.band

/-- Every resting order is in the window. -/
theorem Sep.keeps_base (h : a.Sep) (hs : a.Rests s) : a.Keeps a.base (a.info s).price := by
  have hlt : (a.info s).price < a.band := h.level_lt hs
  exact ⟨by omega, by omega⟩

theorem Sep.mem_droppedSlots (h : a.Sep) : s ∈ a.droppedSlots newBase ↔
    a.Rests s ∧ ¬ a.Keeps newBase (a.info s).price := by
  rw [droppedSlots, List.mem_append, mem_dropped, mem_dropped]
  constructor
  · rintro (⟨i, -, hk, hs⟩ | ⟨i, -, hk, hs⟩) <;> exact ⟨h.rests hs, h.price_eq hs ▸ hk⟩
  · rintro ⟨hs, hk⟩
    have hr : s ∈ a.queue (a.info s).side (a.info s).price := hs
    rcases hsd : (a.info s).side
    · exact .inl ⟨_, h.level_lt hr, hk, hsd ▸ hr⟩
    · exact .inr ⟨_, h.level_lt hr, hk, hsd ▸ hr⟩

theorem Sep.droppedSlots_nodup (h : a.Sep) : (a.droppedSlots newBase).Nodup := by
  refine List.nodup_append.2 ⟨h.dropped_nodup _ _ _, h.dropped_nodup _ _ _, ?_⟩
  rintro x hx y hy rfl
  obtain ⟨i, -, -, hi⟩ := mem_dropped.1 hx
  obtain ⟨j, -, -, hj⟩ := mem_dropped.1 hy
  exact Side.noConfusion (h.unique hi hj).1

/-- The fields of the ladder after its window moved. -/
theorem moveTo_fields (a : Ladder) (newBase : ℕ) :
    (a.moveTo newBase).band = a.band ∧ (a.moveTo newBase).cap = a.cap ∧
      (a.moveTo newBase).tob = a.tob ∧ (a.moveTo newBase).baseSet = a.baseSet ∧
      (a.moveTo newBase).trades = a.trades ∧
      (a.moveTo newBase).free = (a.droppedSlots newBase).reverse ++ a.free ∧
      (a.moveTo newBase).calls = ((a.droppedSlots newBase).map fun s =>
        IdCall.erase (a.info s).id).reverse ++ a.calls := by
  obtain ⟨h1, h2, h3, h4, h5, h6, h7, h8, h9, h10, h11⟩ := dropAll_fields (a.droppedSlots newBase) a
  exact ⟨h1, h2, h3, h4, h7, h8, h11⟩

theorem mem_moveTo {nr : ℕ} : s ∈ (a.moveTo newBase).queue sd nr ↔
    nr < a.band ∧ ∃ i < a.band, a.base + i = newBase + nr ∧ s ∈ a.queue sd i := by
  have : (a.moveTo newBase).queue sd nr = if nr < a.band then a.shifted newBase sd a.band nr else [] :=
    rfl
  rw [this]
  split_ifs with h
  · rw [mem_shifted]; simp [h]
  · simp [h]

theorem find_moveTo (k : OrderId) : (a.moveTo newBase).find k =
    if k ∈ (a.droppedSlots newBase).map (fun s => (a.info s).id) then NULL_IDX else a.find k := by
  obtain ⟨-, -, -, -, -, -, hcalls⟩ := moveTo_fields a newBase
  have h1 : ((a.droppedSlots newBase).map fun s => IdCall.erase (a.info s).id).reverse =
      (((a.droppedSlots newBase).map fun s => (a.info s).id).reverse).map IdCall.erase := by
    simp [List.map_reverse, Function.comp_def]
  rw [find, hcalls, h1, lastInsert_erases]
  simp [find]

/-- A resting order whose level stays in the window moves with it. -/
theorem Core.rests_moveTo (h : a.Core) (hs : a.Rests s) (hk : a.Keeps newBase (a.info s).price) :
    (a.moveTo newBase).Rests s := by
  have hr : s ∈ a.queue (a.info s).side (a.info s).price := hs
  have hp : ((a.moveTo newBase).info s).price = a.base + (a.info s).price - newBase := rfl
  have hsd : ((a.moveTo newBase).info s).side = (a.info s).side := rfl
  obtain ⟨h1, h2⟩ := hk
  rw [Rests, hp, hsd, mem_moveTo]
  exact ⟨by omega, (a.info s).price, h.level_lt hr, by omega, hr⟩

theorem Core.moveTo (h : a.Core) (newBase : ℕ) : (a.moveTo newBase).Core := by
  obtain ⟨hband, hcap, -, hset, -, hfree, -⟩ := moveTo_fields a newBase
  have hof : ∀ {sd nr x}, x ∈ (a.moveTo newBase).queue sd nr → ∃ i < a.band,
      a.base + i = newBase + nr ∧ x ∈ a.queue sd i ∧ a.Keeps newBase i := by
    intro sd nr x hx
    obtain ⟨hnr, i, hi, he, hs⟩ := mem_moveTo.1 hx
    exact ⟨i, hi, he, hs, by omega, by omega⟩
  refine {
    band_pos := hband ▸ h.band_pos, band_lt := hband ▸ h.band_lt, cap_lt := hcap ▸ h.cap_lt
    nodup := ?_, free_nodup := ?_, free_lt := ?_, side_eq := ?_, price_eq := ?_, slot_lt := ?_
    level_lt := ?_, no_wrap := ?_, qty_lt := ?_, not_free := ?_, cover := ?_, ids := ?_
    unset := ?_ }
  · intro sd nr
    change (if nr < a.band then a.shifted newBase sd a.band nr else []).Nodup
    rw [shifted]
    split_ifs
    · exact h.nodup _ _
    · exact List.nodup_nil
    · exact List.nodup_nil
  · rw [hfree]
    refine List.nodup_append.2 ⟨List.nodup_reverse.2 h.droppedSlots_nodup, h.free_nodup, ?_⟩
    rintro x hx y hy rfl
    exact h.not_free (h.mem_droppedSlots.1 (List.mem_reverse.1 hx)).1 hy
  · intro x hx
    rw [hfree, List.mem_append, List.mem_reverse] at hx
    rw [hcap]
    rcases hx with hx | hx
    · exact h.slot_lt (h.mem_droppedSlots.1 hx).1
    · exact h.free_lt x hx
  · intro sd nr x hx
    obtain ⟨i, -, -, hs, -⟩ := hof hx
    exact h.side_eq hs
  · intro sd nr x hx
    obtain ⟨i, -, he, hs, -⟩ := hof hx
    change a.base + (a.info x).price - newBase = nr
    rw [h.price_eq hs]
    omega
  · intro sd nr x hx
    obtain ⟨i, -, -, hs, -⟩ := hof hx
    exact hcap ▸ h.slot_lt hs
  · intro sd nr x hx
    exact hband ▸ (mem_moveTo.1 hx).1
  · intro sd nr x hx
    obtain ⟨i, -, he, hs, -⟩ := hof hx
    have := h.no_wrap hs
    change newBase + nr < 2 ^ 32
    omega
  · intro sd nr x hx
    obtain ⟨i, -, -, hs, -⟩ := hof hx
    exact h.qty_lt hs
  · intro sd nr x hx hx'
    obtain ⟨i, -, -, hs, hk⟩ := hof hx
    rw [hfree, List.mem_append, List.mem_reverse] at hx'
    rcases hx' with hx' | hx'
    · exact (h.mem_droppedSlots.1 hx').2 (h.price_eq hs ▸ hk)
    · exact h.not_free hs hx'
  · intro x hx
    rw [hfree, List.mem_append, List.mem_reverse]
    rcases h.cover x (hcap ▸ hx) with hf | hr
    · exact .inl (.inr hf)
    · by_cases hk : a.Keeps newBase (a.info x).price
      · exact .inr (h.rests_moveTo hr hk)
      · exact .inl (.inl (h.mem_droppedSlots.2 ⟨hr, hk⟩))
  · intro k hk
    rw [find_moveTo] at hk ⊢
    split_ifs at hk ⊢ with hd
    · exact absurd rfl hk
    obtain ⟨hr, hid⟩ := h.ids k hk
    refine ⟨h.rests_moveTo hr ?_, hid⟩
    by_contra hkeep
    exact hd (List.mem_map.2 ⟨_, h.mem_droppedSlots.2 ⟨hr, hkeep⟩, hid⟩)
  · intro hb sd nr
    refine List.eq_nil_iff_forall_not_mem.2 fun x hx => ?_
    obtain ⟨i, -, -, hs, -⟩ := hof hx
    simp [h.unset (hset ▸ hb)] at hs

theorem moveTo_pos (h : a.Pos) : (a.moveTo newBase).Pos := by
  intro sd nr x hx
  obtain ⟨-, i, -, -, hs⟩ := mem_moveTo.1 hx
  exact h sd i x hs

theorem Wf.rebase (h : a.Wf) (newBase : ℕ) : (a.rebase newBase).Wf := by
  unfold Ladder.rebase
  split_ifs
  · exact h
  · refine { ((h.toCore.moveTo newBase).updateBest .BUY).updateBest .SELL with
      pos := moveTo_pos h.pos, top := updateBest_topOk fun sd hsd => ?_ }
    obtain rfl : sd = .BUY := by cases sd <;> simp at hsd ⊢
    exact setTop_topOk fun i hi => (mem_occupied.1 hi).2

end Rebase

section Insert

variable {id : OrderId} {price qty : ℕ}

theorem Wf.anchor (h : a.Wf) (price : ℕ) : (a.anchor price).Wf ∧ (a.anchor price).baseSet = true := by
  unfold Ladder.anchor
  split_ifs with hset
  · exact ⟨h, hset⟩
  · have hq := h.unset (Bool.not_eq_true _ ▸ hset)
    refine ⟨{ h with no_wrap := fun {sd i s} hs => ?_, unset := fun _ => hq }, rfl⟩
    simp [hq] at hs

theorem Wf.rebaseFor (h : a.Wf) (price : ℕ) : (a.rebaseFor price).Wf := by
  unfold Ladder.rebaseFor
  split_ifs
  · exact h.rebase _
  · exact h

/-- A move of the window, but for the search for the best levels after it. -/
theorem rebase_of_ne (hb : newBase ≠ a.base) :
    ∃ tob, a.rebase newBase = { a.moveTo newBase with tob } :=
  ⟨_, if_neg hb⟩

theorem rebase_fields (newBase : ℕ) : (a.rebase newBase).baseSet = a.baseSet ∧
    (a.rebase newBase).band = a.band ∧ (a.rebase newBase).cap = a.cap ∧
    (a.rebase newBase).trades = a.trades := by
  obtain ⟨hband, hcap, -, hset, htr, -, -⟩ := moveTo_fields a newBase
  by_cases hb : newBase = a.base
  · rw [Ladder.rebase, if_pos hb]
    exact ⟨rfl, rfl, rfl, rfl⟩
  · obtain ⟨tob, heq⟩ := rebase_of_ne hb
    rw [heq]
    exact ⟨hset, hband, hcap, htr⟩

theorem rebaseFor_fields (price : ℕ) : (a.rebaseFor price).baseSet = a.baseSet ∧
    (a.rebaseFor price).band = a.band ∧ (a.rebaseFor price).cap = a.cap ∧
    (a.rebaseFor price).trades = a.trades := by
  unfold rebaseFor
  split_ifs
  · exact rebase_fields _
  · exact ⟨rfl, rfl, rfl, rfl⟩

theorem Wf.place (h : a.Wf) (hset : a.baseSet = true) (hi : i < a.band)
    (hw : a.base + i < 2 ^ 32) (hqty : qty < 2 ^ 32) : (a.place id sd i qty).1.Wf := by
  have hs : Swept sd.other i a (a.matchAgainst sd.other id i qty) := h.match_spec _ _ _ _
  unfold Ladder.place
  simp only
  split_ifs with hr
  · exact h.matchAgainst _ _ _
  · exact (h.matchAgainst _ _ _).rest (hs.frame.baseSet.trans hset) (hs.frame.band ▸ hi)
      (hs.frame.base ▸ hw) (Nat.pos_of_ne_zero hr) ((sweep_le _ _ _).trans_lt hqty)

theorem Wf.insertLimitOrder (h : a.Wf) (hp : price < 2 ^ 32) (hqty : qty < 2 ^ 32) :
    (a.insertLimitOrder id sd price qty).1.Wf := by
  obtain ⟨h1, hset⟩ := h.anchor price
  have h2 := h1.rebaseFor price
  unfold Ladder.insertLimitOrder
  simp only
  split_ifs with hw
  · obtain ⟨hw1, hw2⟩ := hw
    exact h2.place ((rebaseFor_fields price).1.trans hset) (by omega) (by omega) hqty
  · exact h2

end Insert

section Runs

theorem Wf.step (h : a.Wf) : ∀ op : OrderBook.Op, (a.step op).1.Wf
  | .insertLimitOrder _ _ price qty => h.insertLimitOrder price.toNat_lt qty.toNat_lt
  | .cancelOrder id => h.cancelOrder id
  | .processMarketOrder side qty => h.processMarketOrder side qty.toNat
  | .executeOrder id fillQty => h.executeOrder id fillQty.toNat
  | .reduceOrderQty id cancelQty => h.reduceOrderQty id cancelQty.toNat

theorem rest_sizes (id : OrderId) (sd : Side) (i qty : ℕ) :
    (a.rest id sd i qty).1.band = a.band ∧ (a.rest id sd i qty).1.cap = a.cap := by
  rw [Ladder.rest]
  split
  · exact ⟨rfl, rfl⟩
  · simp only
    split_ifs <;> exact ⟨rfl, rfl⟩

theorem rest_keeps (id : OrderId) (sd : Side) (i qty : ℕ) :
    (a.rest id sd i qty).1.base = a.base ∧ (a.rest id sd i qty).1.baseSet = a.baseSet ∧
      (a.rest id sd i qty).1.trades = a.trades := by
  rw [Ladder.rest]
  split
  · exact ⟨rfl, rfl, rfl⟩
  · simp only
    split_ifs <;> exact ⟨rfl, rfl, rfl⟩

theorem rest_refused {id : OrderId} {sd : Side} {i qty : ℕ}
    (h : (a.rest id sd i qty).2 = false) :
    (a.rest id sd i qty).1 = a ∧ a.free = [] := by
  unfold Ladder.rest at h ⊢
  split at h
  · rename_i hf
    rw [hf]
    exact ⟨rfl, rfl⟩
  · simp at h

theorem refreshTop_sizes (sd : Side) (i : ℕ) :
    (a.refreshTop sd i).band = a.band ∧ (a.refreshTop sd i).cap = a.cap := by
  unfold refreshTop
  split_ifs <;> exact ⟨rfl, rfl⟩

theorem cancelAt_sizes (s : ℕ) : (a.cancelAt s).band = a.band ∧ (a.cancelAt s).cap = a.cap := by
  obtain ⟨hband, hcap, -⟩ := retire_fields a (a.info s).side (a.info s).price s
  obtain ⟨h1, h2⟩ := refreshTop_sizes (a := a.retire (a.info s).side (a.info s).price s)
    (a.info s).side (a.info s).price
  exact ⟨h1.trans hband, h2.trans hcap⟩

theorem takePartly_sizes (s amount : ℕ) :
    (a.takePartly s amount).band = a.band ∧ (a.takePartly s amount).cap = a.cap := by
  unfold takePartly
  split_ifs <;> exact ⟨rfl, rfl⟩

theorem executeAt_sizes (s fillQty : ℕ) :
    (a.executeAt s fillQty).1.band = a.band ∧ (a.executeAt s fillQty).1.cap = a.cap := by
  unfold Ladder.executeAt
  simp only
  set t := a.trade ⟨(a.info s).id, 0, a.base + (a.info s).price, min fillQty (a.info s).qty⟩
  split_ifs
  · obtain ⟨hband, hcap, -⟩ := retire_fields t (a.info s).side (a.info s).price s
    obtain ⟨h1, h2⟩ := refreshTop_sizes
      (a := (t.retire (a.info s).side (a.info s).price s).dropLive) (a.info s).side (a.info s).price
    exact ⟨h1.trans hband, h2.trans hcap⟩
  · exact takePartly_sizes (a := t) s fillQty

theorem Wf.place_sizes (h : a.Wf) (id : OrderId) (sd : Side) (i qty : ℕ) :
    (a.place id sd i qty).1.band = a.band ∧ (a.place id sd i qty).1.cap = a.cap := by
  have hs : Swept sd.other i a (a.matchAgainst sd.other id i qty) := h.match_spec _ _ _ _
  unfold Ladder.place
  simp only
  split_ifs
  · exact ⟨hs.frame.band, hs.frame.cap⟩
  · obtain ⟨h1, h2⟩ := rest_sizes (a := (a.matchAgainst sd.other id i qty).1) id sd i
      (a.matchAgainst sd.other id i qty).2
    exact ⟨h1.trans hs.frame.band, h2.trans hs.frame.cap⟩

/-- No operation changes the number of levels or slots. -/
theorem Wf.step_sizes (h : a.Wf) : ∀ op : OrderBook.Op,
    (a.step op).1.band = a.band ∧ (a.step op).1.cap = a.cap
  | .insertLimitOrder id sd price qty => by
    have h0 : (a.anchor price.toNat).band = a.band ∧ (a.anchor price.toNat).cap = a.cap := by
      unfold Ladder.anchor
      split_ifs <;> exact ⟨rfl, rfl⟩
    obtain ⟨-, h1, h2, -⟩ := rebaseFor_fields (a := a.anchor price.toNat) price.toNat
    simp only [Ladder.step, Ladder.insertLimitOrder]
    split_ifs
    · obtain ⟨h3, h4⟩ := ((h.anchor price.toNat).1.rebaseFor price.toNat).place_sizes id sd
        (price.toNat - ((a.anchor price.toNat).rebaseFor price.toNat).base) qty.toNat
      exact ⟨h3.trans (h1.trans h0.1), h4.trans (h2.trans h0.2)⟩
    · exact ⟨h1.trans h0.1, h2.trans h0.2⟩
  | .cancelOrder id => by
    simp only [Ladder.step, Ladder.cancelOrder]
    split_ifs
    · exact ⟨rfl, rfl⟩
    · exact cancelAt_sizes _
  | .processMarketOrder sd qty =>
    have hs : Swept sd.other _ a (a.matchAgainst sd.other 0 _ qty.toNat) := h.match_spec _ _ _ _
    ⟨hs.frame.band, hs.frame.cap⟩
  | .executeOrder id fillQty => by
    simp only [Ladder.step, Ladder.executeOrder]
    split_ifs
    · exact ⟨rfl, rfl⟩
    · exact executeAt_sizes _ _
  | .reduceOrderQty id cancelQty => by
    simp only [Ladder.step, Ladder.reduceOrderQty]
    split_ifs
    · exact ⟨rfl, rfl⟩
    · exact cancelAt_sizes _
    · exact takePartly_sizes _ _

theorem Wf.run_sizes : ∀ (ops : List OrderBook.Op) {a : Ladder}, a.Wf →
    (a.run ops).band = a.band ∧ (a.run ops).cap = a.cap
  | [], _, _ => ⟨rfl, rfl⟩
  | op :: ops, _, h =>
    have h1 := h.step_sizes op
    have h2 := Wf.run_sizes ops (h.step op)
    ⟨h2.1.trans h1.1, h2.2.trans h1.2⟩

theorem Wf.run : ∀ (ops : List OrderBook.Op) (a : Ladder), a.Wf → (a.run ops).Wf
  | [], _, h => h
  | op :: ops, a, h => Wf.run ops (a.step op).1 (h.step op)

end Runs

end Ladder

end Nanomatch
