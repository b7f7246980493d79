import Nanomatch.Proofs.Access
import Nanomatch.View

/-!
# The level list operations

What `level_append` and `level_remove` do to the links, the level and the bitmap, for an order and
a level in range. Nothing is assumed of the lists yet.
-/

namespace Nanomatch

open WordBits

namespace OrderBook

variable {M : Type} {c c' : OrderBook M} {sd : Side} {i s : ℕ}

/-- `c'` differs from `c` only in the pool's slots, the levels and the bitmaps, and these keep
their sizes. -/
structure SameFrame (c c' : OrderBook M) : Prop where
  tob : c'.tob = c.tob
  base : c'.base = c.base
  baseSet : c'.baseSet = c.baseSet
  live : c'.liveOrderCount = c.liveOrderCount
  logger : c'.logger = c.logger
  idMap : c'.idMap = c.idMap
  freeHead : c'.pool.freeHead = c.pool.freeHead
  pool : c'.pool.pool.size = c.pool.pool.size
  levels : ∀ sd, (c'.levels sd).size = (c.levels sd).size
  bitmap : ∀ sd, (c'.bitmap sd).size = (c.bitmap sd).size

/-- `level_remove` on the order in slot `s` of level `i`. -/
structure Removed (c : OrderBook M) (sd : Side) (i s : ℕ) (c' : OrderBook M) : Prop
    extends SameFrame c c' where
  data : ∀ j, (c'.pool.pool.cell j).price = (c.pool.pool.cell j).price ∧
    (c'.pool.pool.cell j).qty = (c.pool.pool.cell j).qty ∧
    (c'.pool.pool.cell j).side = (c.pool.pool.cell j).side ∧
    (c'.pool.pool.cell j).id = (c.pool.pool.cell j).id
  next : ∀ j, j ≠ s → j ≠ NULL_IDX →
    c'.nextOf j = if j = c.prevOf s then c.nextOf s else c.nextOf j
  prev : ∀ j, j ≠ s → j ≠ NULL_IDX →
    c'.prevOf j = if j = c.nextOf s then c.prevOf s else c.prevOf j
  level : c'.levelAt sd i =
    { price := (c.levelAt sd i).price
      totalVolume := sub32 (c.levelAt sd i).totalVolume (c.pool.pool.cell s).qty
      headIdx := if c.prevOf s = NULL_IDX then c.nextOf s else (c.levelAt sd i).headIdx
      tailIdx := if c.nextOf s = NULL_IDX then c.prevOf s else (c.levelAt sd i).tailIdx
      orderCount := sub32 (c.levelAt sd i).orderCount 1 }
  level_other : ∀ sd' j, ¬ (sd' = sd ∧ j = i) → c'.levelAt sd' j = c.levelAt sd' j
  bit : ∀ sd' j, bitAt (c'.bitmap sd') j =
    (bitAt (c.bitmap sd') j && !decide (sd' = sd ∧ j = i ∧ (c'.levelAt sd i).headIdx = NULL_IDX))

theorem clearBit_side (c : OrderBook M) (sd : Side) (i : ℕ) :
    (if sd = .BUY ∧ i = i then c.clearBit .BUY i else c.clearBit .SELL i) = c.clearBit sd i := by
  cases sd <;> simp

theorem setBit_side (c : OrderBook M) (sd : Side) (i : ℕ) :
    (if sd = .BUY ∧ i = i then c.setBit .BUY i else c.setBit .SELL i) = c.setBit sd i := by
  cases sd <;> simp

theorem SameFrame.refl (c : OrderBook M) : SameFrame c c :=
  ⟨rfl, rfl, rfl, rfl, rfl, rfl, rfl, rfl, fun _ => rfl, fun _ => rfl⟩

theorem SameFrame.trans {c'' : OrderBook M} (h : SameFrame c c') (h' : SameFrame c' c'') :
    SameFrame c c'' :=
  ⟨h'.tob.trans h.tob, h'.base.trans h.base, h'.baseSet.trans h.baseSet, h'.live.trans h.live,
    h'.logger.trans h.logger, h'.idMap.trans h.idMap, h'.freeHead.trans h.freeHead,
    h'.pool.trans h.pool, fun sd => (h'.levels sd).trans (h.levels sd),
    fun sd => (h'.bitmap sd).trans (h.bitmap sd)⟩

theorem sameFrame_setOrder (s : ℕ) (o : Order) : SameFrame c (c.setOrder s o) := by
  constructor <;> simp

theorem sameFrame_setLevel (sd : Side) (i : ℕ) (l : PriceLevel) :
    SameFrame c (c.setLevel sd i l) := by
  constructor <;> simp
  intro sd'
  split_ifs with h <;> simp [h]

theorem sameFrame_setBitmap {bm : Bitmap} (h : bm.size = (c.bitmap sd).size) :
    SameFrame c (c.setBitmap bm sd) := by
  constructor <;> simp
  intro sd'
  split_ifs with hsd <;> simp [hsd, h]

theorem levelAt_setLevel (l : PriceLevel) (sd' : Side) (j : ℕ) :
    (c.setLevel sd i l).levelAt sd' j = if sd' = sd ∧ j = i then l else c.levelAt sd' j := by
  by_cases hsd : sd' = sd
  · subst hsd; simp [levelAt]
  · simp [levelAt, hsd]

theorem nextOf_setLevel (l : PriceLevel) : (c.setLevel sd i l).nextOf = c.nextOf := by
  funext x; simp [nextOf]

theorem prevOf_setLevel (l : PriceLevel) : (c.setLevel sd i l).prevOf = c.prevOf := by
  funext x; simp [prevOf]

theorem nextOf_setOrder (o : Order) (x : ℕ) :
    (c.setOrder s o).nextOf x = if x = s then o.nextIdx else c.nextOf x := by
  by_cases hx : x = s <;> simp [nextOf, hx]

theorem prevOf_setOrder (o : Order) (x : ℕ) :
    (c.setOrder s o).prevOf x = if x = s then o.prevIdx else c.prevOf x := by
  by_cases hx : x = s <;> simp [prevOf, hx]

theorem levelAt_setOrder (o : Order) (sd : Side) (j : ℕ) :
    (c.setOrder s o).levelAt sd j = c.levelAt sd j := by simp [levelAt]

theorem levelAt_setBitmap (bm : Bitmap) (sd sd' : Side) (j : ℕ) :
    (c.setBitmap bm sd).levelAt sd' j = c.levelAt sd' j := by simp [levelAt]

/-- A step of the list operations: the level's end changes by `f` if there is no order `x` on
that side, and else the order `x` changes by `g`. -/
theorem relink_spec (sd : Side) (x : ℕ) (f : PriceLevel → PriceLevel) (g : Order → Order)
    (hi : i < (c.levels sd).size) (hx : x = NULL_IDX ∨ x < c.pool.pool.size) :
    ∃ c', (if x = NULL_IDX then c.modifyLevel sd i f else c.modifyOrder x g) = some c' ∧
      SameFrame c c' ∧ (∀ sd, c'.bitmap sd = c.bitmap sd) ∧
      (∀ j, c'.pool.pool.cell j = if j = x ∧ x ≠ NULL_IDX then g (c.pool.pool.cell j)
        else c.pool.pool.cell j) ∧
      ∀ sd' j, c'.levelAt sd' j = if sd' = sd ∧ j = i ∧ x = NULL_IDX then f (c.levelAt sd' j)
        else c.levelAt sd' j := by
  by_cases h : x = NULL_IDX
  · rw [if_pos h, modifyLevel_of_lt hi]
    refine ⟨_, rfl, sameFrame_setLevel _ _ _, fun sd' => by simp, by simp [h], fun sd' j => ?_⟩
    rw [levelAt_setLevel]
    split_ifs with h1 h2 h2
    · rw [h1.1, h1.2]; rfl
    · exact absurd ⟨h1.1, h1.2, h⟩ h2
    · exact absurd ⟨h2.1, h2.2.1⟩ h1
    · rfl
  · rw [if_neg h, modifyOrder_of_lt (hx.resolve_left h)]
    refine ⟨_, rfl, sameFrame_setOrder _ _, fun sd' => by simp, fun j => ?_, fun sd' j => ?_⟩
    · by_cases hj : j = x
      · subst hj; simp [h]
      · simp [hj]
    · simp [h, levelAt_setOrder]

/-- The last step of `level_remove` but one: the bit of an empty level is cleared. -/
theorem clearIfEmpty_spec (sd : Side) (l : PriceLevel) (hb : i / 64 < (c.bitmap sd).size) :
    ∃ bm, (if l.empty then
        if sd = .BUY ∧ i = i then c.clearBit .BUY i else c.clearBit .SELL i else some c) =
        some (c.setBitmap bm sd) ∧ bm.size = (c.bitmap sd).size ∧
      ∀ q, bitAt bm q = (bitAt (c.bitmap sd) q && !decide (q = i ∧ l.headIdx = NULL_IDX)) := by
  have hemp : l.empty = true ↔ l.headIdx = NULL_IDX := by simp [PriceLevel.empty, NULL_IDX]
  by_cases h : l.headIdx = NULL_IDX
  · obtain ⟨bm, h1, h2, h3⟩ := clearBit_of_lt sd hb
    refine ⟨bm, by rw [if_pos (hemp.2 h), clearBit_side, h1], h2, fun q => ?_⟩
    rw [h3]; simp [h]
  · refine ⟨c.bitmap sd, ?_, rfl, fun q => by simp [h]⟩
    rw [if_neg (mt hemp.1 h)]
    cases sd <;> rfl

theorem levelRemove_spec (hs : s < c.pool.pool.size) (hi : i < (c.levels sd).size)
    (hb : i / 64 < (c.bitmap sd).size) (hprice : (c.pool.pool.cell s).price = i)
    (hp : c.prevOf s = NULL_IDX ∨ c.prevOf s < c.pool.pool.size ∧ c.prevOf s ≠ s)
    (hn : c.nextOf s = NULL_IDX ∨ c.nextOf s < c.pool.pool.size ∧ c.nextOf s ≠ s) :
    ∃ c', c.levelRemove sd i s = some c' ∧ Removed c sd i s c' := by
  have hps : ¬ (s = c.prevOf s ∧ c.prevOf s ≠ NULL_IDX) := fun h => (hp.resolve_left h.2).2 h.1.symm
  have hns : ¬ (s = c.nextOf s ∧ c.nextOf s ≠ NULL_IDX) := fun h => (hn.resolve_left h.2).2 h.1.symm
  obtain ⟨c1, h1, hf1, hbm1, hcell1, hlev1⟩ := relink_spec (c := c) sd (c.prevOf s)
    (fun l => { l with headIdx := c.nextOf s }) (fun p => { p with nextIdx := c.nextOf s }) hi
    (hp.imp_right And.left)
  have hs1 : c1.pool.pool.cell s = c.pool.pool.cell s := by rw [hcell1, if_neg hps]
  obtain ⟨c2, h2, hf2, hbm2, hcell2, hlev2⟩ := relink_spec (c := c1) sd (c.nextOf s)
    (fun l => { l with tailIdx := c.prevOf s }) (fun n => { n with prevIdx := c.prevOf s })
    (by rw [hf1.levels]; exact hi) (by rw [hf1.pool]; exact hn.imp_right And.left)
  have hs2 : c2.pool.pool.cell s = c.pool.pool.cell s := by rw [hcell2, if_neg hns, hs1]
  have hf12 := hf1.trans hf2
  set l3 : PriceLevel := { c2.levelAt sd i with
    totalVolume := sub32 (c2.levelAt sd i).totalVolume (c.pool.pool.cell s).qty
    orderCount := sub32 (c2.levelAt sd i).orderCount 1 } with hl3
  have hf3 := hf12.trans (sameFrame_setLevel sd i l3)
  obtain ⟨bm, h4, hsz, hbit⟩ := clearIfEmpty_spec (c := c2.setLevel sd i l3) (i := i) sd l3
    (by rw [hf3.bitmap]; exact hb)
  have hf4 := hf3.trans (sameFrame_setBitmap hsz)
  set o5 : Order := { c.pool.pool.cell s with nextIdx := NULL_IDX, prevIdx := NULL_IDX }
  have hcell5 : ∀ j, (((c2.setLevel sd i l3).setBitmap bm sd).setOrder s o5).pool.pool.cell j =
      if j = s then o5 else c2.pool.pool.cell j := fun j => by simp
  have hlev5 : ∀ sd' j, (((c2.setLevel sd i l3).setBitmap bm sd).setOrder s o5).levelAt sd' j =
      if sd' = sd ∧ j = i then l3 else c2.levelAt sd' j := fun sd' j => by
    rw [levelAt_setOrder, levelAt_setBitmap, levelAt_setLevel]
  refine ⟨((c2.setLevel sd i l3).setBitmap bm sd).setOrder s o5, ?_, hf4.trans
    (sameFrame_setOrder s o5), ?_, ?_, ?_, ?_, ?_, ?_⟩
  · have hs5 : s < ((c2.setLevel sd i l3).setBitmap bm sd).pool.pool.size := by
      rw [hf4.pool]; exact hs
    have hc5 : ((c2.setLevel sd i l3).setBitmap bm sd).pool.pool.cell s = c.pool.pool.cell s := by
      simpa using hs2
    have hl3' : (c2.setLevel sd i l3).levelAt sd i = l3 := by simp [levelAt_setLevel]
    refine bind_some (readOrder_of_lt hs) (bind_some h1 ?_)
    refine bind_some (readOrder_of_lt (by rw [hf1.pool]; exact hs)) ?_
    rw [hs1]
    refine bind_some h2 (bind_some (readOrder_of_lt (by rw [hf12.pool]; exact hs)) ?_)
    rw [hs2]
    refine bind_some (a := c2.setLevel sd i l3)
      (modifyLevel_of_lt (by rw [hf12.levels]; exact hi) _) ?_
    refine bind_some (readLevel_of_lt (by rw [hf3.levels]; exact hi)) ?_
    refine bind_some (a := (c2.setLevel sd i l3).setBitmap bm sd) ?_ ?_
    · rw [hprice]
      change (if ((c2.setLevel sd i l3).levelAt sd i).empty = true then _ else _) = _
      rw [hl3']
      exact h4
    · rw [modifyOrder_of_lt hs5, hc5]
  · intro j
    rw [hcell5]
    split_ifs with hj
    · simp [o5, hj]
    · rw [hcell2, hcell1]
      split_ifs <;> simp
  · intro j hj hnull
    have hnext2 : (c2.pool.pool.cell j).nextIdx = (c1.pool.pool.cell j).nextIdx := by
      rw [hcell2]; split_ifs <;> rfl
    rw [nextOf, hcell5, if_neg hj, hnext2, hcell1]
    by_cases hjp : j = c.prevOf s
    · rw [if_pos hjp, if_pos ⟨hjp, hjp ▸ hnull⟩]
    · rw [if_neg hjp, if_neg fun h => hjp h.1]; rfl
  · intro j hj hnull
    have hprev1 : (c1.pool.pool.cell j).prevIdx = (c.pool.pool.cell j).prevIdx := by
      rw [hcell1]; split_ifs <;> rfl
    rw [prevOf, hcell5, if_neg hj, hcell2]
    by_cases hjn : j = c.nextOf s
    · rw [if_pos hjn, if_pos ⟨hjn, hjn ▸ hnull⟩]
    · rw [if_neg hjn, if_neg fun h => hjn h.1]
      exact hprev1
  · rw [hlev5, if_pos ⟨rfl, rfl⟩, hl3, hlev2, hlev1]
    simp only [true_and]
    split_ifs <;> rfl
  · intro sd' j hne
    rw [hlev5, if_neg hne, hlev2, if_neg fun h => hne ⟨h.1, h.2.1⟩, hlev1,
      if_neg fun h => hne ⟨h.1, h.2.1⟩]
  · intro sd' j
    rw [hlev5, if_pos ⟨rfl, rfl⟩, setOrder_bitmap, setBitmap_bitmap]
    by_cases hsd : sd' = sd
    · subst hsd
      rw [if_pos rfl, hbit, setLevel_bitmap, hbm2, hbm1]
      simp
    · rw [if_neg hsd, setLevel_bitmap, hbm2, hbm1]
      simp [hsd]

/-- `level_append` of the order in slot `s` to level `i`. -/
structure Appended (c : OrderBook M) (sd : Side) (i s : ℕ) (c' : OrderBook M) : Prop
    extends SameFrame c c' where
  data : ∀ j, (c'.pool.pool.cell j).price = (c.pool.pool.cell j).price ∧
    (c'.pool.pool.cell j).qty = (c.pool.pool.cell j).qty ∧
    (c'.pool.pool.cell j).side = (c.pool.pool.cell j).side ∧
    (c'.pool.pool.cell j).id = (c.pool.pool.cell j).id
  next : ∀ j ≠ s, c'.nextOf j =
    if j = (c.levelAt sd i).tailIdx ∧ (c.levelAt sd i).headIdx ≠ NULL_IDX then s else c.nextOf j
  next_self : c'.nextOf s = NULL_IDX
  prev : ∀ j ≠ s, c'.prevOf j = c.prevOf j
  prev_self : c'.prevOf s = (c.levelAt sd i).tailIdx
  level : c'.levelAt sd i =
    { price := (c.levelAt sd i).price
      totalVolume := add32 (c.levelAt sd i).totalVolume (c.pool.pool.cell s).qty
      headIdx := if (c.levelAt sd i).headIdx = NULL_IDX then s else (c.levelAt sd i).headIdx
      tailIdx := s
      orderCount := add32 (c.levelAt sd i).orderCount 1 }
  level_other : ∀ sd' j, ¬ (sd' = sd ∧ j = i) → c'.levelAt sd' j = c.levelAt sd' j
  bit : ∀ sd' j, bitAt (c'.bitmap sd') j =
    (bitAt (c.bitmap sd') j || decide (sd' = sd ∧ j = i ∧ (c.levelAt sd i).headIdx = NULL_IDX))

/-- The middle of `level_append`: the order becomes the head of an empty level, whose bit is set,
or follows the tail `t` of the level. -/
theorem linkIn_spec (sd : Side) (h t p : ℕ) (hp : p = i) (hi : i < (c.levels sd).size)
    (hb : i / 64 < (c.bitmap sd).size) (ht : h = NULL_IDX ∨ t < c.pool.pool.size) :
    ∃ c', (if h = NULL_IDX then
        (c.modifyLevel sd i fun l => { l with headIdx := s }).bind fun c =>
          if sd = .BUY ∧ i = p then c.setBit .BUY p else c.setBit .SELL p
      else c.modifyOrder t fun o => { o with nextIdx := s }) = some c' ∧ SameFrame c c' ∧
      (∀ j, c'.pool.pool.cell j = if j = t ∧ h ≠ NULL_IDX then
        { c.pool.pool.cell j with nextIdx := s } else c.pool.pool.cell j) ∧
      (∀ sd' j, c'.levelAt sd' j = if sd' = sd ∧ j = i ∧ h = NULL_IDX then
        { c.levelAt sd' j with headIdx := s } else c.levelAt sd' j) ∧
      ∀ sd' j, bitAt (c'.bitmap sd') j =
        (bitAt (c.bitmap sd') j || decide (sd' = sd ∧ j = i ∧ h = NULL_IDX)) := by
  subst hp
  by_cases hh : h = NULL_IDX
  · set l1 : PriceLevel := { c.levelAt sd p with headIdx := s } with hl1
    obtain ⟨bm, hset, hsz, hbit⟩ := setBit_of_lt (p := p) (c := c.setLevel sd p l1) sd
      (by rw [setLevel_bitmap]; exact hb)
    refine ⟨(c.setLevel sd p l1).setBitmap bm sd, ?_, (sameFrame_setLevel sd p l1).trans
      (sameFrame_setBitmap hsz), ?_, ?_, ?_⟩
    · rw [if_pos hh]
      refine bind_some (modifyLevel_of_lt hi _) ?_
      rw [setBit_side]
      exact hset
    · simp [hh]
    · intro sd' j
      rw [levelAt_setBitmap, levelAt_setLevel]
      by_cases hj : sd' = sd ∧ j = p
      · rw [if_pos hj, if_pos ⟨hj.1, hj.2, hh⟩, hl1, hj.1, hj.2]
      · rw [if_neg hj, if_neg fun h => hj ⟨h.1, h.2.1⟩]
    · intro sd' j
      rw [setBitmap_bitmap]
      by_cases hsd : sd' = sd
      · subst hsd
        rw [if_pos rfl, hbit, setLevel_bitmap]
        simp [hh]
      · rw [if_neg hsd, setLevel_bitmap]
        simp [hsd]
  · refine ⟨_, by rw [if_neg hh]; exact modifyOrder_of_lt (ht.resolve_left hh) _,
      sameFrame_setOrder _ _, fun j => ?_, fun sd' j => ?_, fun sd' j => ?_⟩
    · by_cases hj : j = t
      · subst hj; simp [hh]
      · simp [hj]
    · simp [hh, levelAt_setOrder]
    · simp [hh]

theorem levelAppend_spec (hs : s < c.pool.pool.size) (hi : i < (c.levels sd).size)
    (hb : i / 64 < (c.bitmap sd).size) (hprice : (c.pool.pool.cell s).price = i)
    (ht : (c.levelAt sd i).headIdx = NULL_IDX ∨
      (c.levelAt sd i).tailIdx < c.pool.pool.size ∧ (c.levelAt sd i).tailIdx ≠ s) :
    ∃ c', c.levelAppend sd i s = some c' ∧ Appended c sd i s c' := by
  set l := c.levelAt sd i with hl
  set o1 : Order := { c.pool.pool.cell s with prevIdx := l.tailIdx, nextIdx := NULL_IDX } with ho1
  have hf1 := sameFrame_setOrder (c := c) s o1
  have hcell1 : ∀ j, (c.setOrder s o1).pool.pool.cell j =
      if j = s then o1 else c.pool.pool.cell j := fun j => by simp
  obtain ⟨c2, h2, hf2, hcell2, hlev2, hbit2⟩ := linkIn_spec (c := c.setOrder s o1) (i := i) (s := s)
    sd l.headIdx l.tailIdx o1.price hprice (by rw [hf1.levels]; exact hi)
    (by rw [hf1.bitmap]; exact hb)
    (by rw [hf1.pool]; exact ht.imp_right And.left)
  have hts : ¬ (s = l.tailIdx ∧ l.headIdx ≠ NULL_IDX) := fun h => (ht.resolve_left h.2).2 h.1.symm
  have hs2 : c2.pool.pool.cell s = o1 := by rw [hcell2, if_neg hts, hcell1, if_pos rfl]
  have hf12 := hf1.trans hf2
  set l3 : PriceLevel := { c2.levelAt sd i with
    tailIdx := s
    totalVolume := add32 (c2.levelAt sd i).totalVolume o1.qty
    orderCount := add32 (c2.levelAt sd i).orderCount 1 } with hl3
  have hcell3 : ∀ j, (c2.setLevel sd i l3).pool.pool.cell j = c2.pool.pool.cell j := fun j => by simp
  refine ⟨c2.setLevel sd i l3, ?_, hf12.trans (sameFrame_setLevel sd i l3), ?_, ?_, ?_, ?_, ?_, ?_,
    ?_, ?_⟩
  · have hr : (c.setOrder s o1).readOrder s = some o1 := by
      rw [readOrder_of_lt (by rw [hf1.pool]; exact hs), hcell1, if_pos rfl]
    refine bind_some (readLevel_of_lt hi) (bind_some (modifyOrder_of_lt hs _) (bind_some hr ?_))
    exact bind_some h2 (modifyLevel_of_lt (by rw [hf12.levels]; exact hi) _)
  · intro j
    rw [hcell3, hcell2, hcell1]
    split_ifs with h1 h2 h2
    all_goals first | exact ⟨rfl, rfl, rfl, rfl⟩ | (rw [h2]; exact ⟨rfl, rfl, rfl, rfl⟩)
  · intro j hj
    rw [nextOf, hcell3, hcell2, hcell1, if_neg hj]
    split_ifs <;> rfl
  · rw [nextOf, hcell3, hs2]
  · intro j hj
    rw [prevOf, hcell3, hcell2, hcell1, if_neg hj]
    split_ifs <;> rfl
  · rw [prevOf, hcell3, hs2]
  · rw [levelAt_setLevel, if_pos ⟨rfl, rfl⟩, hl3, hlev2, levelAt_setOrder]
    simp only [true_and, ← hl]
    split_ifs <;> rfl
  · intro sd' j hne
    rw [levelAt_setLevel, if_neg hne, hlev2, if_neg fun h => hne ⟨h.1, h.2.1⟩, levelAt_setOrder]
  · intro sd' j
    rw [setLevel_bitmap, hbit2, setOrder_bitmap]

end OrderBook

end Nanomatch
