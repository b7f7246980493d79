import Mathlib.Data.List.Basic
import Nanomatch.Proofs.RefineTop

/-!
# The move of the window on the ladder

`rebase_base` walks the levels of one side and then the other, dropping the orders that fall out of
the new window and relinking the others into new levels. While it does, the old levels are not kept
up; `Mid` says what holds of the pool and the id map, and the slots of levels not reached yet are
untouched.
-/

namespace Nanomatch

open LinkedList WordBits OrderBook Ladder

variable {M : Type} [IdMapOps M] {L : IdMapLaws M} {c c' : OrderBook M} {a d : Ladder} {sd : Side}
  {i s newBase : ℕ}

section Mid

/-- The pool's free list, the id map and the live count in the middle of a move. -/
structure Mid (L : IdMapLaws M) (c : OrderBook M) (d : Ladder) : Prop where
  pool : c.pool.pool.size = d.cap
  chain : Chain c.nextOf NULL_IDX c.pool.freeHead d.free
  sync : L.Sync c.idMap d.calls
  live : c.liveOrderCount = d.live

/-- What a move leaves alone until its end. -/
structure Kept (c c' : OrderBook M) : Prop where
  tob : c'.tob = c.tob
  base : c'.base = c.base
  baseSet : c'.baseSet = c.baseSet
  logger : c'.logger = c.logger
  levels : ∀ sd, c'.levels sd = c.levels sd
  bitmap : ∀ sd, c'.bitmap sd = c.bitmap sd

omit [IdMapOps M] in
theorem Kept.refl (c : OrderBook M) : Kept c c :=
  ⟨rfl, rfl, rfl, rfl, fun _ => rfl, fun _ => rfl⟩

omit [IdMapOps M] in
theorem Kept.trans {c'' : OrderBook M} (h : Kept c c') (h' : Kept c' c'') : Kept c c'' :=
  ⟨h'.tob.trans h.tob, h'.base.trans h.base, h'.baseSet.trans h.baseSet, h'.logger.trans h.logger,
    fun sd => (h'.levels sd).trans (h.levels sd), fun sd => (h'.bitmap sd).trans (h.bitmap sd)⟩

omit [IdMapOps M] in
theorem kept_setOrder (s : ℕ) (o : Order) : Kept c (c.setOrder s o) :=
  ⟨rfl, rfl, rfl, rfl, fun _ => setOrder_levels _ _ _ _, fun _ => setOrder_bitmap _ _ _ _⟩

theorem dropAll_append : ∀ (l m : List ℕ) (a : Ladder), dropAll (l ++ m) a = dropAll m (dropAll l a)
  | [], _, _ => rfl
  | s :: l, m, a => dropAll_append l m ((a.eraseId (a.info s).id).release s).dropLive

theorem dropAll_calls (l : List ℕ) (a : Ladder) : a.calls <:+ (dropAll l a).calls := by
  obtain ⟨-, -, -, -, -, -, -, -, -, -, h⟩ := dropAll_fields l a
  rw [h]
  exact List.suffix_append _ _

/-- One order of a dropped level. -/
theorem Mid.drop (h : Mid L c d) (hs : s < d.cap) (hf : s ∉ d.free) (id : OrderId)
    (hg : L.Good (.erase id :: d.calls)) :
    ∃ c1 c2, c.eraseId id = some c1 ∧ c1.deallocate s = some c2 ∧
      Mid L c2.dropLive ((d.eraseId id).release s).dropLive ∧ Kept c c2.dropLive ∧
      ∀ x ≠ s, c2.dropLive.pool.pool.cell x = c.pool.pool.cell x := by
  obtain ⟨m', hm, hsync⟩ := L.erase h.sync hg
  have hs' : s < c.pool.pool.size := by rw [h.pool]; exact hs
  set o : Order := { c.pool.pool.cell s with nextIdx := c.pool.freeHead }
  set c2 : OrderBook M := { c with idMap := m', pool := ⟨c.pool.pool.put s o, s⟩ } with hc2
  have h1 : c.eraseId id = some { c with idMap := m' } := by rw [OrderBook.eraseId, hm]; rfl
  have h2 : ({ c with idMap := m' } : OrderBook M).deallocate s = some c2 := by
    rw [OrderBook.deallocate, OrderPool.deallocate, Cells.modify_of_lt hs']
    rfl
  have hpool : c2.dropLive.pool = c2.pool := by unfold OrderBook.dropLive; split_ifs <;> rfl
  have hid : c2.dropLive.idMap = m' := by unfold OrderBook.dropLive; split_ifs <;> rfl
  have hlive : c2.dropLive.liveOrderCount = c.liveOrderCount - 1 := by
    unfold OrderBook.dropLive
    split_ifs with hl
    · rfl
    · have hl' : ¬ c.liveOrderCount > 0 := hl
      change c.liveOrderCount = c.liveOrderCount - 1
      omega
  have hnext : ∀ x, c2.dropLive.nextOf x = if x = s then c.pool.freeHead else c.nextOf x := fun x => by
    rw [nextOf, hpool]
    by_cases hx : x = s <;> simp [hc2, hx, nextOf, o]
  refine ⟨_, c2, h1, h2, ⟨?_, ?_, ?_, ?_⟩, ?_, ?_⟩
  · rw [hpool]; exact h.pool
  · have hhead : c2.dropLive.pool.freeHead = s := by rw [hpool]
    rw [hhead]
    refine ⟨rfl, ?_⟩
    rw [hnext, if_pos rfl]
    refine h.chain.congr fun x hx => ?_
    rw [hnext, if_neg]
    rintro rfl
    exact hf hx
  · rw [hid]; exact hsync
  · rw [hlive, h.live]; rfl
  · unfold OrderBook.dropLive
    split_ifs <;> exact ⟨rfl, rfl, rfl, rfl, fun sd => by cases sd <;> rfl,
      fun sd => by cases sd <;> rfl⟩
  · intro x hx
    rw [hpool]
    exact if_neg hx

theorem dropOrders_spec : ∀ (slots : List ℕ) (c : OrderBook M) (d : Ladder) (fuel : ℕ) {j : ℕ},
    Mid L c d → Chain c.nextOf NULL_IDX j slots → slots.Nodup → (∀ s ∈ slots, s < d.cap) →
    (∀ s ∈ slots, s ≠ NULL_IDX) → (∀ s ∈ slots, s ∉ d.free) →
    (∀ s ∈ slots, (c.pool.pool.cell s).id = (d.info s).id) → slots.length < fuel →
    L.Good (dropAll slots d).calls →
    ∃ c', dropOrders fuel c j = some c' ∧ Mid L c' (dropAll slots d) ∧ Kept c c' ∧
      ∀ x ∉ slots, c'.pool.pool.cell x = c.pool.pool.cell x
  | [], c, d, fuel + 1, j, h, hj, _, _, _, _, _, _, _ => by
    refine ⟨c, ?_, h, Kept.refl c, fun _ _ => rfl⟩
    have hnull : j = NULL_IDX := hj
    rw [dropOrders, if_neg (not_not.2 hnull)]
  | s :: slots, c, d, fuel + 1, j, h, ⟨hj, hch⟩, hnd, hlt, hnull, hfree, hid, hf, hg => by
    subst hj
    obtain ⟨hns, hnd'⟩ := List.nodup_cons.1 hnd
    have hne : ∀ x ∈ slots, x ≠ j := fun x hx he => hns (he ▸ hx)
    set d1 : Ladder := ((d.eraseId (d.info j).id).release j).dropLive
    have hg1 : L.Good d1.calls := L.good_of_suffix (dropAll_calls slots d1) hg
    obtain ⟨c1, c2, h1, h2, hmid, hkept, hcell⟩ := h.drop (hlt j List.mem_cons_self)
      (hfree j List.mem_cons_self) (d.info j).id hg1
    have hch' : Chain c2.dropLive.nextOf NULL_IDX (c.nextOf j) slots :=
      hch.congr fun x hx => by rw [nextOf, hcell x (hne x hx)]; rfl
    obtain ⟨c3, h3, hmid3, hkept3, hcell3⟩ := dropOrders_spec slots c2.dropLive d1 fuel hmid hch'
      hnd' (fun x hx => hlt x (List.mem_cons_of_mem j hx))
      (fun x hx => hnull x (List.mem_cons_of_mem j hx))
      (fun x hx hx' => (List.mem_cons.1 hx').elim (hne x hx)
        (hfree x (List.mem_cons_of_mem j hx)))
      (fun x hx => by rw [hcell x (hne x hx)]; exact hid x (List.mem_cons_of_mem j hx))
      (Nat.lt_of_succ_lt_succ hf) hg
    refine ⟨c3, ?_, hmid3, hkept.trans hkept3, fun x hx => ?_⟩
    · have hlt' : j < c.pool.pool.size := by rw [h.pool]; exact hlt j List.mem_cons_self
      rw [dropOrders, if_pos (hnull j List.mem_cons_self)]
      refine bind_some (readOrder_of_lt hlt') ?_
      rw [hid j List.mem_cons_self]
      exact bind_some h1 (bind_some h2 h3)
    · have hxj : x ≠ j := fun he => hx (he ▸ List.mem_cons_self)
      rw [hcell3 x (fun h => hx (List.mem_cons_of_mem j h)), hcell x hxj]

end Mid

section Move

/-- The order at index `nr` of the new window. -/
def Resting.at (o : Resting) (nr : ℕ) : Resting := { o with price := nr }

omit [IdMapOps M] in
/-- The middle of a round of `moveOrders`: the order in slot `s` becomes the head of an empty level
or is linked behind the tail. -/
theorem relinkTail_spec {dst : PriceLevel} (hs : s < c.pool.pool.size)
    (ht : dst.headIdx = NULL_IDX ∧ dst.tailIdx = NULL_IDX ∨
      dst.headIdx ≠ NULL_IDX ∧ dst.tailIdx < c.pool.pool.size ∧ dst.tailIdx ≠ s) :
    ∃ c', (if dst.headIdx = NULL_IDX then
        (c.modifyOrder s fun o => { o with prevIdx := NULL_IDX }).bind fun c =>
          some (c, { dst with headIdx := s })
      else (c.modifyOrder dst.tailIdx fun t => { t with nextIdx := s }).bind fun c =>
        (c.modifyOrder s fun o => { o with prevIdx := dst.tailIdx }).bind fun c => some (c, dst)) =
        some (c', if dst.headIdx = NULL_IDX then { dst with headIdx := s } else dst) ∧
      Kept c c' ∧ SameFrame c c' ∧
      ∀ x, c'.pool.pool.cell x =
        if x = s then { c.pool.pool.cell s with prevIdx := dst.tailIdx }
        else if x = dst.tailIdx ∧ dst.headIdx ≠ NULL_IDX then { c.pool.pool.cell x with nextIdx := s }
        else c.pool.pool.cell x := by
  rcases ht with ⟨hh, ht⟩ | ⟨hh, htlt, hts⟩
  · set o1 : Order := { c.pool.pool.cell s with prevIdx := NULL_IDX }
    refine ⟨c.setOrder s o1, ?_, kept_setOrder s o1, sameFrame_setOrder s o1, fun x => ?_⟩
    · rw [if_pos hh, if_pos hh]
      exact bind_some (modifyOrder_of_lt hs _) rfl
    · simp [hh, ht, o1]
  · set t1 : Order := { c.pool.pool.cell dst.tailIdx with nextIdx := s } with ht1
    set o2 : Order := { c.pool.pool.cell s with prevIdx := dst.tailIdx } with ho2
    have hcell : (c.setOrder dst.tailIdx t1).pool.pool.cell s = c.pool.pool.cell s := by
      simp [hts.symm]
    refine ⟨(c.setOrder dst.tailIdx t1).setOrder s o2, ?_,
      (kept_setOrder dst.tailIdx t1).trans (kept_setOrder s o2),
      (sameFrame_setOrder dst.tailIdx t1).trans (sameFrame_setOrder s o2), fun x => ?_⟩
    · have hs' : s < (c.setOrder dst.tailIdx t1).pool.pool.size := hs
      rw [if_neg hh, if_neg hh]
      refine bind_some (modifyOrder_of_lt htlt _) (bind_some (modifyOrder_of_lt hs' _) ?_)
      rw [hcell]
    · by_cases hx : x = s
      · simp [hx]
      · by_cases hxt : x = dst.tailIdx <;> simp [hx, hxt, hh, hts, ht1]

omit [IdMapOps M] in
/-- One round of `moveOrders`: the order in slot `s` follows the orders `q` already in `dst`. -/
theorem moveOrders_round {r f : ℕ} {dst : PriceLevel} {info : ℕ → Resting} {q : List ℕ}
    (hs : s < c.pool.pool.size) (hnull : s ≠ NULL_IDX) (hsq : s ∉ q)
    (hq : ∀ x ∈ q, x < c.pool.pool.size) (hdst : LevelRep c.nextOf c.prevOf info dst q)
    (hd : (c.pool.pool.cell s).resting = info s) :
    ∃ c' dst', moveOrders r (f + 1) c dst s = moveOrders r f c' dst' (c.nextOf s) ∧
      Kept c c' ∧ SameFrame c c' ∧ LevelRep c'.nextOf c'.prevOf info dst' (q ++ [s]) ∧
      dst'.price = dst.price ∧ (c'.pool.pool.cell s).resting = (info s).at r ∧
      (∀ x ≠ s, (c'.pool.pool.cell x).resting = (c.pool.pool.cell x).resting) ∧
      ∀ x ∉ q ++ [s], c'.pool.pool.cell x = c.pool.pool.cell x := by
  set o1 : Order := { c.pool.pool.cell s with price := r } with ho1
  have hcell1 : ∀ x, (c.setOrder s o1).pool.pool.cell x = if x = s then o1
      else c.pool.pool.cell x := fun x => by simp
  have hhead := hdst.links.head_eq_nil
  have htail : q ≠ [] → dst.tailIdx ∈ q := hdst.links.last_mem
  have hends : dst.headIdx = NULL_IDX ∧ dst.tailIdx = NULL_IDX ∨ dst.headIdx ≠ NULL_IDX ∧
      dst.tailIdx < c.pool.pool.size ∧ dst.tailIdx ≠ s := by
    rcases eq_or_ne q [] with he | he
    · exact .inl (Dll.nil_iff.1 (he ▸ hdst.links))
    · exact .inr ⟨mt hhead.1 he, hq _ (htail he), fun h => hsq (h ▸ htail he)⟩
  obtain ⟨c2, h2, hk2, hf2, hcell2⟩ := relinkTail_spec (c := c.setOrder s o1) hs hends
  set o3 : Order := { o1 with prevIdx := dst.tailIdx, nextIdx := NULL_IDX } with ho3
  have hs2 : s < c2.pool.pool.size := by rw [hf2.pool]; exact hs
  have hc2s : c2.pool.pool.cell s = { o1 with prevIdx := dst.tailIdx } := by
    rw [hcell2, if_pos rfl, hcell1, if_pos rfl]
  set c3 := c2.setOrder s o3 with hc3
  have hcell3 : ∀ x, c3.pool.pool.cell x = if x = s then o3
      else if x = dst.tailIdx ∧ dst.headIdx ≠ NULL_IDX then { c.pool.pool.cell x with nextIdx := s }
      else c.pool.pool.cell x := fun x => by
    rw [hc3, setOrder_pool, Cells.put_cell]
    by_cases hx : x = s
    · rw [if_pos hx, if_pos hx]
    · rw [if_neg hx, if_neg hx, hcell2, if_neg hx, hcell1, if_neg hx]
  set dst2 : PriceLevel := if dst.headIdx = NULL_IDX then { dst with headIdx := s } else dst
  have hdst2 : dst2.totalVolume = dst.totalVolume ∧ dst2.orderCount = dst.orderCount ∧
      dst2.price = dst.price ∧
      dst2.headIdx = if dst.headIdx = NULL_IDX then s else dst.headIdx := by
    simp only [dst2]
    split_ifs <;> simp
  obtain ⟨hvol2, hcount2, hprice2, hhead2⟩ := hdst2
  have hk3 : Kept c c3 := ((kept_setOrder s o1).trans hk2).trans (kept_setOrder s o3)
  have hf3 : SameFrame c c3 := ((sameFrame_setOrder s o1).trans hf2).trans (sameFrame_setOrder s o3)
  have hrun : moveOrders r (f + 1) c dst s = moveOrders r f c3
      { dst2 with
        tailIdx := s
        totalVolume := add32 dst2.totalVolume o3.qty
        orderCount := add32 dst2.orderCount 1 } (c.nextOf s) := by
    have hr1 : (c.setOrder s o1).readOrder s = some o1 := by
      rw [readOrder_of_lt (by exact hs), hcell1, if_pos rfl]
    have hr3 : c3.readOrder s = some o3 := by
      rw [readOrder_of_lt (by rw [hf3.pool]; exact hs), hcell3, if_pos rfl]
    have hm3 : c2.modifyOrder s (fun o => { o with nextIdx := NULL_IDX }) = some c3 := by
      rw [modifyOrder_of_lt hs2, hc2s]
    rw [moveOrders, if_pos hnull]
    refine bind_some (modifyOrder_of_lt hs _) (bind_some hr1 (bind_some h2 ?_))
    exact bind_some hm3 (bind_some hr3 rfl)
  refine ⟨c3, _, hrun, hk3, hf3, ⟨?_, ?_, ?_⟩, hprice2, ?_, fun x hx => ?_, fun x hx => ?_⟩
  · rw [hhead2]
    have hnext : c3.nextOf s = NULL_IDX := by rw [nextOf, hcell3, if_pos rfl]
    have hprev : c3.prevOf s = dst.tailIdx := by rw [prevOf, hcell3, if_pos rfl]
    rcases eq_or_ne q [] with he | he
    · rw [if_pos (hhead.2 he), he]
      exact Dll.singleton hnull hnext (hprev.trans (Dll.nil_iff.1 (he ▸ hdst.links)).2)
    · rw [if_neg (mt hhead.1 he)]
      refine hdst.links.append he hnull hsq hnext hprev fun x hx => ?_
      have hxs : x ≠ s := fun he => hsq (he ▸ hx)
      rw [nextOf, prevOf, hcell3, if_neg hxs]
      by_cases hxt : x = dst.tailIdx
      · rw [if_pos ⟨hxt, mt hhead.1 he⟩, if_pos hxt]
        exact ⟨rfl, rfl⟩
      · rw [if_neg (fun h => hxt h.1), if_neg hxt]
        exact ⟨rfl, rfl⟩
  · simp only [hcount2, hdst.count, Rep.add32_mod, List.length_append, List.length_singleton]
  · have hqty : o3.qty = (info s).qty := congrArg Resting.qty hd
    simp only [hvol2, hdst.volume, Rep.add32_mod, hqty, List.map_append, List.sum_append, List.map_cons,
      List.map_nil, List.sum_cons, List.sum_nil, Nat.add_zero]
  · rw [hcell3, if_pos rfl, ← hd]
    rfl
  · rw [hcell3, if_neg hx]
    split_ifs <;> rfl
  · have hxs : x ≠ s := fun h => hx (h ▸ by simp)
    rw [hcell3, if_neg hxs, if_neg]
    rintro ⟨rfl, hh⟩
    exact hx (List.mem_append_left _ (htail (mt hhead.2 hh)))

omit [IdMapOps M] in
theorem moveOrders_spec (nr : ℕ) (info : ℕ → Resting) : ∀ (slots q : List ℕ) (c : OrderBook M)
    (dst : PriceLevel) (fuel : ℕ) {j : ℕ}, Chain c.nextOf NULL_IDX j slots → (q ++ slots).Nodup →
    (∀ s ∈ q ++ slots, s < c.pool.pool.size ∧ s ≠ NULL_IDX) →
    LevelRep c.nextOf c.prevOf info dst q →
    (∀ s ∈ slots, (c.pool.pool.cell s).resting = info s) → slots.length < fuel →
    ∃ c' dst', moveOrders nr fuel c dst j = some (c', dst') ∧ Kept c c' ∧ SameFrame c c' ∧
      LevelRep c'.nextOf c'.prevOf info dst' (q ++ slots) ∧ dst'.price = dst.price ∧
      (∀ s ∈ slots, (c'.pool.pool.cell s).resting = (info s).at nr) ∧
      (∀ x ∉ slots, (c'.pool.pool.cell x).resting = (c.pool.pool.cell x).resting) ∧
      ∀ x ∉ q ++ slots, c'.pool.pool.cell x = c.pool.pool.cell x
  | [], q, c, dst, fuel + 1, j, hj, _, _, hdst, _, _ => by
    have hnull : j = NULL_IDX := hj
    refine ⟨c, dst, ?_, Kept.refl c, SameFrame.refl c, by rwa [List.append_nil], rfl,
      fun s hs => absurd hs List.not_mem_nil, fun _ _ => rfl, fun _ _ => rfl⟩
    rw [moveOrders, if_neg (not_not.2 hnull)]
  | s :: slots, q, c, dst, fuel + 1, j, ⟨hj, hch⟩, hnd, hlt, hdst, hd, hf => by
    subst hj
    have hjm : j ∈ q ++ j :: slots := by simp
    have hnd' : (q ++ [j] ++ slots).Nodup := by rwa [List.append_assoc]
    have hjq : j ∉ q := fun h => (List.nodup_append.1 hnd).2.2 j h j List.mem_cons_self rfl
    have hne : ∀ x ∈ slots, x ∉ q ++ [j] := fun x hx hx' =>
      (List.nodup_append.1 hnd').2.2 x hx' x hx rfl
    obtain ⟨c1, dst1, hrun, hk1, hf1, hdst1, hp1, hj1, hother1, hcell1⟩ :=
      moveOrders_round (r := nr) (f := fuel) (hlt j hjm).1 (hlt j hjm).2 hjq
        (fun x hx => (hlt x (List.mem_append_left _ hx)).1) hdst (hd j List.mem_cons_self)
    have hch1 : Chain c1.nextOf NULL_IDX (c.nextOf j) slots :=
      hch.congr fun x hx => by rw [nextOf, hcell1 x (hne x hx)]; rfl
    obtain ⟨c2, dst2, h2, hk2, hf2, hdst2, hp2, hs2, hother2, hcell2⟩ :=
      moveOrders_spec nr info slots (q ++ [j]) c1 dst1 fuel hch1 hnd'
        (fun x hx => by rw [hf1.pool]; exact hlt x (by simpa using hx)) hdst1
        (fun x hx => by rw [hcell1 x (hne x hx)]; exact hd x (List.mem_cons_of_mem j hx))
        (Nat.lt_of_succ_lt_succ hf)
    refine ⟨c2, dst2, hrun.trans h2, hk1.trans hk2, hf1.trans hf2, by simpa using hdst2,
      hp2.trans hp1, fun x hx => ?_, fun x hx => ?_, fun x hx => ?_⟩
    · rcases List.mem_cons.1 hx with rfl | hx
      · rw [hother2 x fun hx' => hne x hx' (by simp)]
        exact hj1
      · exact hs2 x hx
    · rw [List.mem_cons, not_or] at hx
      rw [hother2 x hx.2, hother1 x hx.1]
    · rw [hcell2 x (by simpa using hx), hcell1 x fun h => hx (by
        rcases List.mem_append.1 h with h | h
        · exact List.mem_append_left _ h
        · rw [List.mem_singleton.1 h]; exact hjm)]

end Move

section Side

/-- What the walk over the levels of side `sd` starts from. `d` is the ladder `a` after the orders
dropped so far lost their slots. -/
structure Before (L : IdMapLaws M) (a d : Ladder) (sd : Side) (c : OrderBook M) : Prop where
  mid : Mid L c d
  base : c.base = a.base
  size : (c.levels sd).size = a.band
  cap : d.cap = a.cap
  info : d.info = a.info
  level : ∀ i < a.band, LevelRep c.nextOf c.prevOf a.info (c.levelAt sd i) (a.queue sd i)
  data : ∀ i, ∀ s ∈ a.queue sd i, (c.pool.pool.cell s).resting = a.info s
  free : ∀ i, ∀ s ∈ a.queue sd i, s ∉ d.free

/-- What the walk has made of the first `n` levels. -/
structure Walked (L : IdMapLaws M) (a d : Ladder) (newBase : ℕ) (sd : Side) (n : ℕ)
    (c : OrderBook M) (r : OrderBook M × Cells PriceLevel × Bitmap) : Prop where
  mid : Mid L r.1 (dropAll (a.dropped newBase sd n) d)
  kept : Kept c r.1
  cell : ∀ x, (∀ i < n, x ∉ a.queue sd i) → r.1.pool.pool.cell x = c.pool.pool.cell x
  size : r.2.1.size = a.band
  words : r.2.2.size = (a.band + 63) / 64
  level : ∀ nr < a.band,
    LevelRep r.1.nextOf r.1.prevOf a.info (r.2.1.cell nr) (a.shifted newBase sd n nr)
  price : ∀ nr < a.band, a.shifted newBase sd n nr ≠ [] → (r.2.1.cell nr).price = newBase + nr
  data : ∀ nr < a.band, ∀ s ∈ a.shifted newBase sd n nr,
    (r.1.pool.pool.cell s).resting = (a.info s).at nr
  bit : ∀ nr, bitAt r.2.2 nr = true ↔ nr < a.band ∧ a.shifted newBase sd n nr ≠ []

theorem shifted_succ (newBase : ℕ) (sd : Side) (n nr : ℕ) : a.shifted newBase sd (n + 1) nr =
    if a.base + n = newBase + nr then a.queue sd n else a.shifted newBase sd n nr := by
  simp only [shifted]
  by_cases h : a.base + n = newBase + nr
  · rw [if_pos h, if_pos (by omega), show newBase + nr - a.base = n by omega]
  · rw [if_neg h]
    exact if_congr (by omega) rfl rfl

theorem dropped_succ (newBase : ℕ) (sd : Side) (n : ℕ) : a.dropped newBase sd (n + 1) =
    a.dropped newBase sd n ++ if a.Keeps newBase n then [] else a.queue sd n := by
  simp [dropped, List.range_succ]

theorem shifted_eq_nil {n nr : ℕ} (h : newBase + nr = a.base + n) :
    a.shifted newBase sd n nr = [] := if_neg (by omega)

variable {n : ℕ} {r : OrderBook M × Cells PriceLevel × Bitmap}

/-- The slots of a level not walked yet are as they were. -/
theorem Walked.cell_eq (h : Walked L a d newBase sd n c r) (hs : a.Sep) (hsq : s ∈ a.queue sd n) :
    r.1.pool.pool.cell s = c.pool.pool.cell s :=
  h.cell s fun i hi hx => absurd (hs.unique hx hsq).2 (by omega)

theorem Walked.levelRep (h : Walked L a d newBase sd n c r) (hb : Before L a d sd c) (hs : a.Sep)
    (hn : n < a.band) :
    LevelRep r.1.nextOf r.1.prevOf a.info (r.1.levelAt sd n) (a.queue sd n) := by
  have hl : r.1.levelAt sd n = c.levelAt sd n := by rw [levelAt, h.kept.levels]; rfl
  rw [hl]
  refine (hb.level n hn).congr (fun x hx => ?_) fun _ _ => rfl
  rw [nextOf, prevOf, h.cell_eq hs hx]
  exact ⟨rfl, rfl⟩

/-- No slot of a level not walked yet is free. -/
theorem Walked.not_free (hb : Before L a d sd c) (hs : a.Sep)
    (hsq : s ∈ a.queue sd n) : s ∉ (dropAll (a.dropped newBase sd n) d).free := by
  obtain ⟨-, -, -, -, -, -, -, hfree, -⟩ := dropAll_fields (a.dropped newBase sd n) d
  rw [hfree, List.mem_append, List.mem_reverse, mem_dropped]
  rintro (⟨i, hi, -, hx⟩ | hx)
  · exact absurd (hs.unique hx hsq).2 (by omega)
  · exact hb.free n s hsq hx

/-- Slots moved so far are not in level `n`. -/
theorem not_mem_of_shifted (hs : a.Sep) {nr x : ℕ} (hx : x ∈ a.shifted newBase sd n nr) :
    x ∉ a.queue sd n := by
  obtain ⟨i, hi, -, hxi⟩ := mem_shifted.1 hx
  exact fun hxn => absurd (hs.unique hxi hxn).2 (by omega)

/-- The levels made so far are kept by changes to the slots of level `n`. -/
theorem Walked.level_congr {c' : OrderBook M} (h : Walked L a d newBase sd n c r) (hs : a.Sep)
    (hcell : ∀ x ∉ a.queue sd n, c'.pool.pool.cell x = r.1.pool.pool.cell x) {nr : ℕ}
    (hnr : nr < a.band) :
    LevelRep c'.nextOf c'.prevOf a.info (r.2.1.cell nr) (a.shifted newBase sd n nr) ∧
      ∀ s ∈ a.shifted newBase sd n nr, (c'.pool.pool.cell s).resting = (a.info s).at nr := by
  refine ⟨(h.level nr hnr).congr (fun x hx => ?_) fun _ _ => rfl, fun x hx => ?_⟩
  · rw [nextOf, prevOf, hcell x (not_mem_of_shifted hs hx)]
    exact ⟨rfl, rfl⟩
  · rw [hcell x (not_mem_of_shifted hs hx)]
    exact h.data nr hnr x hx

theorem Walked.zero (hb : Before L a d sd c) :
    Walked L a d newBase sd 0 c (c, Cells.fill a.band {}, Bitmap.init a.band) where
  mid := hb.mid
  kept := Kept.refl c
  cell _ _ := rfl
  size := rfl
  words := rfl
  level nr _ := by
    have hnil : a.shifted newBase sd 0 nr = [] := if_neg (by omega)
    rw [hnil]
    exact ⟨Dll.nil_iff.2 ⟨rfl, rfl⟩, rfl, rfl⟩
  price nr _ h := absurd (if_neg (by omega)) h
  data nr _ s hs := absurd hs (by rw [shifted, if_neg (by omega)]; exact List.not_mem_nil)
  bit nr := by
    have hnil : a.shifted newBase sd 0 nr = [] := if_neg (by omega)
    simp [Bitmap.bitAt_init, hnil]

/-- A level without orders is passed over. -/
theorem Walked.skip (h : Walked L a d newBase sd n c r) (hq : a.queue sd n = []) :
    Walked L a d newBase sd (n + 1) c r := by
  have hshift : ∀ nr, a.shifted newBase sd (n + 1) nr = a.shifted newBase sd n nr := fun nr => by
    rw [shifted_succ]
    split_ifs with he
    · rw [hq, shifted_eq_nil he.symm]
    · rfl
  have hdrop : a.dropped newBase sd (n + 1) = a.dropped newBase sd n := by
    rw [dropped_succ, hq, ite_self, List.append_nil]
  exact {
    mid := hdrop ▸ h.mid, kept := h.kept, size := h.size, words := h.words
    cell := fun x hx => h.cell x fun i hi => hx i (by omega)
    level := fun nr hnr => hshift nr ▸ h.level nr hnr
    price := fun nr hnr hne => h.price nr hnr (hshift nr ▸ hne)
    data := fun nr hnr x hx => h.data nr hnr x (hshift nr ▸ hx)
    bit := fun nr => by rw [hshift]; exact h.bit nr }

theorem head_chain {l : PriceLevel} {next prev : ℕ → ℕ} {info : ℕ → Resting} {q : List ℕ}
    (h : LevelRep next prev info l q) : Chain next NULL_IDX l.headIdx q := h.links.seg.chain

/-- A level outside the window loses its orders. -/
theorem Walked.dropLevel (h : Walked L a d newBase sd n c r) (hb : Before L a d sd c) (hs : a.Sep)
    (hn : n < a.band) (hk : ¬ a.Keeps newBase n)
    (hg : L.Good (dropAll (a.dropped newBase sd (n + 1)) d).calls) :
    ∃ c', dropOrders (r.1.pool.capacity + 1) r.1 (r.1.levelAt sd n).headIdx = some c' ∧
      Walked L a d newBase sd (n + 1) c (c', r.2.1, r.2.2) := by
  have hdrop : a.dropped newBase sd (n + 1) = a.dropped newBase sd n ++ a.queue sd n := by
    rw [dropped_succ, if_neg hk]
  rw [hdrop, dropAll_append] at hg
  obtain ⟨-, hcap, -, -, hinfo, -⟩ := dropAll_fields (a.dropped newBase sd n) d
  have hsize : r.1.pool.capacity = a.cap := h.mid.pool.trans (hcap.trans hb.cap)
  obtain ⟨c', hc', hmid, hkept, hcell⟩ := dropOrders_spec (a.queue sd n) r.1 _
    (r.1.pool.capacity + 1) h.mid (head_chain (h.levelRep hb hs hn)) (hs.nodup sd n)
    (fun x hx => by rw [hcap, hb.cap]; exact hs.slot_lt hx)
    (fun x hx => hs.ne_null (hs.slot_lt hx)) (fun x hx => Walked.not_free hb hs hx)
    (fun x hx => by
      rw [h.cell_eq hs hx, hinfo, hb.info]
      exact congrArg Resting.id (hb.data n x hx))
    (by rw [hsize]; exact hs.length_lt) hg
  have hshift : ∀ nr < a.band, a.shifted newBase sd (n + 1) nr = a.shifted newBase sd n nr :=
    fun nr hnr => by
      rw [shifted_succ, if_neg]
      rintro he
      exact hk ⟨by omega, by omega⟩
  refine ⟨c', hc', {
    mid := by rw [hdrop, dropAll_append]; exact hmid
    kept := h.kept.trans hkept, size := h.size, words := h.words
    cell := fun x hx => ?_, level := fun nr hnr => ?_, price := fun nr hnr hne => ?_
    data := fun nr hnr x hx => ?_, bit := fun nr => ?_ }⟩
  · rw [hcell x (hx n (Nat.lt_succ_self n))]
    exact h.cell x fun i hi => hx i (by omega)
  · rw [hshift nr hnr]
    exact (h.level_congr hs hcell hnr).1
  · exact h.price nr hnr (hshift nr hnr ▸ hne)
  · exact (h.level_congr hs hcell hnr).2 x (hshift nr hnr ▸ hx)
  · refine (h.bit nr).trans (and_congr_right fun hnr => ?_)
    rw [hshift nr hnr]

/-- A level inside the window moves to its new place. -/
theorem Walked.moveLevel (h : Walked L a d newBase sd n c r) (hb : Before L a d sd c) (hs : a.Sep)
    (hn : n < a.band) (hq : a.queue sd n ≠ []) {nr : ℕ} (hnr : nr < a.band)
    (he : a.base + n = newBase + nr) :
    ∃ c' dst' bm', moveOrders nr (r.1.pool.capacity + 1) r.1
        { r.2.1.cell nr with price := a.base + n } (r.1.levelAt sd n).headIdx = some (c', dst') ∧
      r.2.2.setBit nr = some bm' ∧
      Walked L a d newBase sd (n + 1) c (c', r.2.1.put nr dst', bm') := by
  have hk : a.Keeps newBase n := ⟨by omega, by omega⟩
  have hdrop : a.dropped newBase sd (n + 1) = a.dropped newBase sd n := by
    rw [dropped_succ, if_pos hk, List.append_nil]
  obtain ⟨-, hcap, -⟩ := dropAll_fields (a.dropped newBase sd n) d
  have hsize : r.1.pool.pool.size = a.cap := h.mid.pool.trans (hcap.trans hb.cap)
  have hempty := h.level nr hnr
  rw [shifted_eq_nil he.symm] at hempty
  obtain ⟨c', dst', hc', hkept, hframe, hdst, hprice, hdata, -, hcell⟩ :=
    moveOrders_spec nr a.info (a.queue sd n) [] r.1
      { r.2.1.cell nr with price := a.base + n } (r.1.pool.capacity + 1)
      (head_chain (h.levelRep hb hs hn)) (hs.nodup sd n)
      (fun x hx => ⟨by rw [hsize]; exact hs.slot_lt hx, hs.ne_null (hs.slot_lt hx)⟩)
      ⟨hempty.links, hempty.count, hempty.volume⟩
      (fun x hx => by rw [h.cell_eq hs hx]; exact hb.data n x hx)
      (by rw [OrderPool.capacity, hsize]; exact hs.length_lt)
  obtain ⟨bm', hbm, hbsize, hbit⟩ := Bitmap.setBit_of_lt
    (show nr / 64 < r.2.2.size by rw [h.words]; omega)
  have hshift : ∀ m, a.shifted newBase sd (n + 1) m =
      if m = nr then a.queue sd n else a.shifted newBase sd n m := fun m => by
    rw [shifted_succ]
    exact if_congr (by omega) rfl rfl
  refine ⟨c', dst', bm', hc', hbm, {
    mid := ?_, kept := h.kept.trans hkept, size := h.size, words := hbsize.trans h.words
    cell := fun x hx => ?_, level := fun m hm => ?_, price := fun m hm hne => ?_
    data := fun m hm x hx => ?_, bit := fun m => ?_ }⟩
  · rw [hdrop]
    refine ⟨hframe.pool.trans h.mid.pool, ?_, by rw [hframe.idMap]; exact h.mid.sync,
      hframe.live.trans h.mid.live⟩
    rw [hframe.freeHead]
    refine h.mid.chain.congr fun x hx => ?_
    rw [nextOf, hcell x fun hx' => Walked.not_free hb hs hx' hx]
    rfl
  · rw [hcell x (hx n (Nat.lt_succ_self n))]
    exact h.cell x fun i hi => hx i (by omega)
  · rw [hshift]
    simp only [Cells.put_cell]
    split_ifs with hmn
    · exact hdst
    · exact (h.level_congr hs hcell hm).1
  · rw [hshift] at hne
    simp only [Cells.put_cell]
    split_ifs at hne ⊢ with hmn
    · rw [hmn, ← he]
      exact hprice
    · exact h.price m hm hne
  · rw [hshift] at hx
    split_ifs at hx with hmn
    · rw [hmn]
      exact hdata x hx
    · exact (h.level_congr hs hcell hm).2 x hx
  · rw [hbit, Bool.or_eq_true, h.bit, hshift, decide_eq_true_eq]
    split_ifs with hmn
    · simp [hmn, hnr, hq]
    · simp [hmn]

theorem Walked.step (h : Walked L a d newBase sd n c r) (hb : Before L a d sd c) (hs : a.Sep)
    (hn : n < a.band) (hg : L.Good (dropAll (a.dropped newBase sd (n + 1)) d).calls) :
    ∃ r', rebaseLevel sd newBase r.1 r.2.1 r.2.2 n = some r' ∧
      Walked L a d newBase sd (n + 1) c r' := by
  have hrep := h.levelRep hb hs hn
  have hsize : (r.1.levels sd).size = a.band := by rw [h.kept.levels]; exact hb.size
  have hread : r.1.readLevel sd n = some (r.1.levelAt sd n) :=
    readLevel_of_lt (by rw [hsize]; exact hn)
  have hempty : (r.1.levelAt sd n).empty = true ↔ a.queue sd n = [] := by
    rw [← hrep.links.head_eq_nil]
    simp [PriceLevel.empty, NULL_IDX]
  by_cases hq : a.queue sd n = []
  · refine ⟨r, bind_some hread ?_, h.skip hq⟩
    rw [if_pos (hempty.2 hq)]
  have hbase : r.1.base = a.base := h.kept.base.trans hb.base
  obtain ⟨x, hx⟩ := List.exists_mem_of_ne_nil _ hq
  have hwrap := hs.no_wrap hx
  have habs : add32 r.1.base n = a.base + n := by
    rw [hbase, add32, Nat.mod_eq_of_lt hwrap]
  by_cases hk : a.Keeps newBase n
  · obtain ⟨hk1, hk2⟩ := hk
    have hnr : a.base + n - newBase < a.band := by omega
    obtain ⟨c', dst', bm', hmove, hbm, hw⟩ := h.moveLevel hb hs hn hq hnr (by omega)
    refine ⟨_, bind_some hread ?_, hw⟩
    have hin : ¬ (((a.base + n : ℕ) : ℤ) - (newBase : ℤ) < 0 ∨
        ((a.base + n : ℕ) : ℤ) - (newBase : ℤ) ≥ ((r.1.levels sd).size : ℤ)) := by
      rw [hsize]; omega
    have hnat : (((a.base + n : ℕ) : ℤ) - (newBase : ℤ)).toNat = a.base + n - newBase := by omega
    rw [if_neg (mt hempty.1 hq)]
    simp only [habs]
    rw [if_neg hin, hnat]
    refine bind_some (Cells.read_of_lt (by rw [h.size]; exact hnr)) (bind_some hmove ?_)
    exact bind_some (Cells.modify_of_lt (by rw [h.size]; exact hnr) _) (bind_some hbm rfl)
  · obtain ⟨c', hdrop, hw⟩ := h.dropLevel hb hs hn hk hg
    refine ⟨_, bind_some hread ?_, hw⟩
    have hout : ((a.base + n : ℕ) : ℤ) - (newBase : ℤ) < 0 ∨
        ((a.base + n : ℕ) : ℤ) - (newBase : ℤ) ≥ ((r.1.levels sd).size : ℤ) := by
      rw [hsize]
      simp only [Ladder.Keeps] at hk
      omega
    rw [if_neg (mt hempty.1 hq)]
    simp only [habs]
    rw [if_pos hout]
    exact bind_some hdrop rfl

theorem dropped_suffix (newBase : ℕ) (sd : Side) (n : ℕ) (d : Ladder) :
    (dropAll (a.dropped newBase sd n) d).calls <:+
      (dropAll (a.dropped newBase sd (n + 1)) d).calls := by
  rw [dropped_succ, dropAll_append]
  exact dropAll_calls _ _

theorem rebaseLevels_spec (hb : Before L a d sd c) (hs : a.Sep) (newBase : ℕ) : ∀ n ≤ a.band,
    L.Good (dropAll (a.dropped newBase sd n) d).calls →
    ∃ r, rebaseLevels sd newBase c n = some r ∧ Walked L a d newBase sd n c r
  | 0, _, _ => ⟨_, by rw [rebaseLevels, hb.size], Walked.zero hb⟩
  | n + 1, hn, hg => by
    obtain ⟨r, hr, hw⟩ := rebaseLevels_spec hb hs newBase n (by omega)
      (L.good_of_suffix (dropped_suffix newBase sd n d) hg)
    obtain ⟨r', hr', hw'⟩ := hw.step hb hs hn hg
    exact ⟨r', bind_some hr hr', hw'⟩

end Side

section Both

theorem before_buy (h : Rep L c a) (hs : a.Sep) : Before L a a .BUY c where
  mid := ⟨h.pool, h.chain, h.sync, h.live⟩
  base := h.base
  size := h.levels .BUY
  cap := rfl
  info := rfl
  level i hi := h.level .BUY i hi
  data i s hsq := h.data .BUY i s hsq
  free _ _ hsq := hs.not_free hsq

theorem before_sell (h : Rep L c a) (hs : a.Sep) {r : OrderBook M × Cells PriceLevel × Bitmap}
    (hw : Walked L a a newBase .BUY a.band c r) :
    Before L a (dropAll (a.dropped newBase .BUY a.band) a) .SELL r.1 := by
  obtain ⟨-, hcap, -, -, hinfo, -, -, hfree, -⟩ := dropAll_fields (a.dropped newBase .BUY a.band) a
  have hcell : ∀ i, ∀ x ∈ a.queue .SELL i, r.1.pool.pool.cell x = c.pool.pool.cell x :=
    fun i x hx => hw.cell x fun j _ hj => Side.noConfusion (hs.unique hx hj).1
  refine ⟨hw.mid, hw.kept.base.trans h.base, by rw [hw.kept.levels]; exact h.levels .SELL, hcap,
    hinfo, fun i hi => ?_, fun i x hx => ?_, fun i x hx => ?_⟩
  · rw [levelAt, hw.kept.levels]
    refine (h.level .SELL i hi).congr (fun x hx => ?_) fun _ _ => rfl
    rw [nextOf, prevOf, hcell i x hx]
    exact ⟨rfl, rfl⟩
  · rw [hcell i x hx]
    exact h.data .SELL i x hx
  · rw [hfree, List.mem_append, List.mem_reverse, mem_dropped]
    rintro (⟨j, -, -, hj⟩ | hx')
    · exact Side.noConfusion (hs.unique hx hj).1
    · exact hs.not_free hx hx'

theorem shifted_info (hs : a.Sep) {n nr : ℕ} (hx : s ∈ a.shifted newBase sd n nr) :
    (a.moveTo newBase).info s = (a.info s).at nr := by
  obtain ⟨i, -, he, hi⟩ := mem_shifted.1 hx
  have hp := hs.price_eq hi
  change ({ a.info s with price := a.base + (a.info s).price - newBase } : Resting) = _
  rw [hp, Resting.at, show a.base + i - newBase = nr by omega]

theorem moveTo_queue {nr : ℕ} (hnr : nr < a.band) :
    (a.moveTo newBase).queue sd nr = a.shifted newBase sd a.band nr := if_pos hnr

/-- The book after both sides moved. -/
theorem rep_moveTo (h : Rep L c a) (hs : a.Sep) {rb ra : OrderBook M × Cells PriceLevel × Bitmap}
    (hwb : Walked L a a newBase .BUY a.band c rb)
    (hwa : Walked L a (dropAll (a.dropped newBase .BUY a.band) a) newBase .SELL a.band rb.1 ra) :
    Rep L { ra.1 with
      bids := rb.2.1
      asks := ra.2.1
      bidBitmap := rb.2.2
      askBitmap := ra.2.2
      base := newBase } (a.moveTo newBase) := by
  have hkept := hwb.kept.trans hwa.kept
  have hmid := hwa.mid
  rw [← dropAll_append] at hmid
  obtain ⟨hband, hcap, htob, hset, -, -, htr, -⟩ := dropAll_fields (a.dropped newBase .BUY a.band ++
    a.dropped newBase .SELL a.band) a
  -- the walk over the asks leaves the orders of the bids alone
  have hcell : ∀ nr, ∀ x ∈ a.shifted newBase .BUY a.band nr,
      ra.1.pool.pool.cell x = rb.1.pool.pool.cell x := fun nr x hx => by
    obtain ⟨i, -, -, hi⟩ := mem_shifted.1 hx
    exact hwa.cell x fun j _ hj => Side.noConfusion (hs.unique hi hj).1
  have hbuy : ∀ nr < a.band, LevelRep ra.1.nextOf ra.1.prevOf a.info (rb.2.1.cell nr)
      (a.shifted newBase .BUY a.band nr) := fun nr hnr => by
    refine (hwb.level nr hnr).congr (fun x hx => ?_) fun _ _ => rfl
    rw [nextOf, prevOf, hcell nr x hx]
    exact ⟨rfl, rfl⟩
  refine {
    tob := (hkept.tob.trans h.tob).trans htob.symm, base := rfl
    baseSet := (hkept.baseSet.trans h.baseSet).trans hset.symm, live := hmid.live
    logger := (hkept.logger.trans h.logger).trans htr.symm, pool := hmid.pool
    levels := fun sd => ?_, bitmap := fun sd => ?_, level := fun sd nr hnr => ?_
    price := fun sd nr hne => ?_, data := fun sd nr x hx => ?_, bit := fun sd nr => ?_
    chain := hmid.chain, sync := hmid.sync }
  · cases sd
    · exact hwb.size.trans hband.symm
    · exact hwa.size.trans hband.symm
  · cases sd
    · exact hwb.words.trans (by rw [← hband]; rfl)
    · exact hwa.words.trans (by rw [← hband]; rfl)
  · have hnr' : nr < a.band := hband ▸ hnr
    rw [moveTo_queue hnr']
    cases sd with
    | BUY => exact (hbuy nr hnr').congr (fun _ _ => ⟨rfl, rfl⟩) fun _ _ => rfl
    | SELL => exact (hwa.level nr hnr').congr (fun _ _ => ⟨rfl, rfl⟩) fun _ _ => rfl
  · obtain ⟨x, hx⟩ := List.exists_mem_of_ne_nil _ hne
    have hnr := (mem_moveTo.1 hx).1
    rw [moveTo_queue hnr] at hne
    cases sd
    · exact hwb.price nr hnr hne
    · exact hwa.price nr hnr hne
  · have hnr := (mem_moveTo.1 hx).1
    rw [moveTo_queue hnr] at hx
    rw [shifted_info hs hx]
    cases sd
    · exact (congrArg Order.resting (hcell nr x hx)).trans (hwb.data nr hnr x hx)
    · exact hwa.data nr hnr x hx
  · have hq : (a.moveTo newBase).queue sd nr =
        if nr < a.band then a.shifted newBase sd a.band nr else [] := rfl
    rw [hq]
    cases sd
    · refine (hwb.bit nr).trans ?_
      split_ifs with hnr <;> simp [hnr]
    · refine (hwa.bit nr).trans ?_
      split_ifs with hnr <;> simp [hnr]

theorem Rep.rebaseBase (h : Rep L c a) (hw : a.Wf) (newBase : ℕ)
    (hg : L.Good (a.rebase newBase).calls) :
    ∃ c', c.rebaseBase newBase = some c' ∧ Rep L c' (a.rebase newBase) := by
  unfold Ladder.rebase at hg ⊢
  rw [OrderBook.rebaseBase, h.base]
  split_ifs at hg ⊢ with hnb
  · exact ⟨c, rfl, h⟩
  have hs := hw.toSep
  have hsize : c.bids.size = a.band := h.levels .BUY
  have hgm : L.Good (dropAll (a.dropped newBase .SELL a.band)
      (dropAll (a.dropped newBase .BUY a.band) a)).calls := by
    rw [← dropAll_append]
    exact hg
  obtain ⟨rb, hrb, hwb⟩ := rebaseLevels_spec (before_buy h hs) hs newBase a.band le_rfl
    (L.good_of_suffix (dropAll_calls _ _) hgm)
  obtain ⟨ra, hra, hwa⟩ := rebaseLevels_spec (before_sell h hs hwb) hs newBase a.band le_rfl hgm
  have hrep := rep_moveTo h hs hwb hwa
  have hcore := hw.toCore.moveTo newBase
  have hbest : (a.moveTo newBase).tob.bestBid = UINT32_MAX ∨
      (a.moveTo newBase).tob.bestBid < (a.moveTo newBase).band := by
    obtain ⟨hband, -, htob, -⟩ := moveTo_fields a newBase
    rw [hband, htob]
    exact (hw.top .BUY).imp_right fun hq => hs.lt_band hq
  obtain ⟨c1, h1, hr1⟩ := hrep.updateBestBid hcore.toSep hbest
  obtain ⟨c2, h2, hr2⟩ := hr1.updateBestAsk (hcore.updateBest .BUY).toSep
  refine ⟨c2, ?_, hr2⟩
  rw [hsize]
  refine bind_some hrb (bind_some (a := ra) ?_ (bind_some h1 h2))
  have hsize' : rb.1.bids.size = a.band := by
    have := congrArg Cells.size (hwb.kept.levels .BUY)
    exact this.trans hsize
  rw [hsize']
  exact hra

end Both

end Nanomatch
