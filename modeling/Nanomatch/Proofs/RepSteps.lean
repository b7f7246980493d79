import Nanomatch.Proofs.Rep

/-!
# The book's small steps on the ladder

What the operations on one order, on the pool, on the id map and on the top of book do to the
ladder that the book represents.
-/

namespace Nanomatch

open LinkedList WordBits OrderBook Ladder

variable {M : Type} [IdMapOps M] {L : IdMapLaws M} {c : OrderBook M} {a : Ladder} {sd : Side}
  {i s : ℕ}

namespace Rep

section Ids

theorem findId (h : Rep L c a) (hg : L.Good a.calls) (id : OrderId) :
    c.findId id = some (a.find id) := L.find h.sync hg id

theorem eraseId (h : Rep L c a) (id : OrderId) (hg : L.Good (.erase id :: a.calls)) :
    ∃ c', c.eraseId id = some c' ∧ Rep L c' (a.eraseId id) := by
  obtain ⟨m', hm, hsync⟩ := L.erase h.sync hg
  exact ⟨{ c with idMap := m' }, by rw [OrderBook.eraseId, hm]; rfl, { h with sync := hsync }⟩

theorem insertId (h : Rep L c a) (id : OrderId) (hg : L.Good (.insert id s :: a.calls)) :
    ∃ c', c.insertId id s = some c' ∧ Rep L c' { a with calls := .insert id s :: a.calls } := by
  obtain ⟨m', hm, hsync⟩ := L.insert h.sync hg
  exact ⟨{ c with idMap := m' }, by rw [OrderBook.insertId, hm]; rfl, { h with sync := hsync }⟩

end Ids

section Scalars

theorem dropLive (h : Rep L c a) : Rep L c.dropLive a.dropLive := by
  have hlive := h.live
  unfold OrderBook.dropLive
  split_ifs with hl
  · exact { h with live := by rw [hlive]; rfl }
  · have h0 : a.live - 1 = a.live := by omega
    exact { h with live := by rw [hlive]; exact h0.symm }

theorem addLive (h : Rep L c a) :
    Rep L { c with liveOrderCount := add32 c.liveOrderCount 1 } { a with live := add32 a.live 1 } :=
  { h with live := congrArg (add32 · 1) h.live }

theorem trade (h : Rep L c a) (t : Trade) : Rep L (c.enqueueTrade t) (a.trade t) :=
  { h with logger := congrArg (· ++ [t]) h.logger }

theorem setBase (h : Rep L c a) {base : ℕ} {baseSet : Bool} (hq : ∀ sd i, a.queue sd i = []) :
    Rep L { c with base, baseSet } { a with base, baseSet } :=
  { h with base := rfl, baseSet := rfl, price := fun sd i hne => absurd (hq sd i) hne }

end Scalars

section Pool

/-- A slot that is in no queue may change, if its free-list link does not. -/
theorem setSpare (h : Rep L c a) (hq : ∀ sd i, s ∉ a.queue sd i) {o : Order} (r : Resting)
    (hn : s ∈ a.free → o.nextIdx = c.nextOf s) : Rep L (c.setOrder s o) (a.setInfo s r) where
  tob := h.tob
  base := h.base
  baseSet := h.baseSet
  live := h.live
  logger := h.logger
  pool := h.pool
  levels sd := by rw [setOrder_levels]; exact h.levels sd
  bitmap sd := by rw [setOrder_bitmap]; exact h.bitmap sd
  level sd i hi := by
    rw [levelAt_setOrder]
    refine (h.level sd i hi).congr (fun x hx => ?_) fun x hx => ?_
    all_goals have hxs : x ≠ s := fun he => hq sd i (he ▸ hx)
    · rw [nextOf_setOrder, prevOf_setOrder, if_neg hxs, if_neg hxs]
      exact ⟨rfl, rfl⟩
    · simp [Ladder.setInfo, hxs]
  price sd i hi := by rw [levelAt_setOrder]; exact h.price sd i hi
  data sd i x hx := by
    have hxs : x ≠ s := fun he => hq sd i (he ▸ hx)
    have hx' : x ∈ a.queue sd i := hx
    simpa [Ladder.setInfo, hxs] using h.data sd i x hx'
  bit sd i := by rw [setOrder_bitmap]; exact h.bit sd i
  chain := h.chain.congr fun x hx => by
    rw [nextOf_setOrder]
    split_ifs with hxs
    · rw [hn (hxs ▸ hx), hxs]
    · rfl
  sync := h.sync

theorem setInfo_self : a.setInfo s (a.info s) = a := by simp [Ladder.setInfo]

theorem setSpare_self (h : Rep L c a) (hq : ∀ sd i, s ∉ a.queue sd i) {o : Order}
    (hf : s ∉ a.free) : Rep L (c.setOrder s o) a := by
  have h1 := h.setSpare hq (o := o) (a.info s) fun hs => absurd hs hf
  rwa [setInfo_self] at h1

theorem deallocate (h : Rep L c a) (hq : ∀ sd i, s ∉ a.queue sd i) (hf : s ∉ a.free)
    (hs : s < a.cap) : ∃ c', c.deallocate s = some c' ∧ Rep L c' (a.release s) := by
  have hs' : s < c.pool.pool.size := by rw [h.pool]; exact hs
  set o : Order := { c.pool.pool.cell s with nextIdx := c.pool.freeHead }
  have h1 : Rep L (c.setOrder s o) a := h.setSpare_self hq hf
  have hn : (c.setOrder s o).nextOf s = c.pool.freeHead := by rw [nextOf_setOrder, if_pos rfl]
  refine ⟨{ c.setOrder s o with pool := ⟨c.pool.pool.put s o, s⟩ }, ?_, { h1 with
    chain := ⟨rfl, hn.symm ▸ h1.chain⟩ }⟩
  rw [OrderBook.deallocate, OrderPool.deallocate, Cells.modify_of_lt hs']
  rfl

/-- `allocate` takes the first free slot. -/
theorem allocate (h : Rep L c a) (hs : a.Sep) {free : List ℕ} (hf : a.free = s :: free) :
    ∃ pool, c.pool.allocate = some (pool, s) ∧ Rep L { c with pool } { a with free } := by
  have hsf : s ∈ a.free := hf ▸ List.mem_cons_self
  have hlt := hs.free_lt s hsf
  have hs' : s < c.pool.pool.size := by rw [h.pool]; exact hlt
  have hchain := h.chain
  rw [hf] at hchain
  have hhead : c.pool.freeHead = s := hchain.1
  have h1 : Rep L { c with pool := ⟨c.pool.pool, c.nextOf s⟩ } { a with free } :=
    { h with chain := hchain.2 }
  have hnot : s ∉ free := (List.nodup_cons.1 (hf ▸ hs.free_nodup)).1
  refine ⟨_, ?_, h1.setSpare_self (s := s)
    (o := { c.pool.pool.cell s with nextIdx := NULL_IDX, prevIdx := NULL_IDX })
    (fun sd i hx => hs.not_free hx hsf) hnot⟩
  rw [OrderPool.allocate, hhead, if_neg (hs.ne_null hlt)]
  exact bind_some (Cells.read_of_lt hs') (bind_some (Cells.modify_of_lt hs' _) rfl)

theorem allocate_none (h : Rep L c a) (hf : a.free = []) :
    c.pool.allocate = some (c.pool, NULL_IDX) := by
  have hchain := h.chain
  rw [hf] at hchain
  have hhead : c.pool.freeHead = NULL_IDX := hchain
  rw [OrderPool.allocate, if_pos hhead]

end Pool

section Append

/-- A level may get its price while it is empty. -/
theorem setLevelPrice (h : Rep L c a) (hi : i < a.band) (price : ℕ) (hq : a.queue sd i = []) :
    Rep L (c.setLevel sd i { c.levelAt sd i with price }) a where
  tob := by rw [setLevel_tob]; exact h.tob
  base := by rw [setLevel_base]; exact h.base
  baseSet := by rw [setLevel_baseSet]; exact h.baseSet
  live := by rw [setLevel_live]; exact h.live
  logger := by rw [setLevel_logger]; exact h.logger
  pool := by rw [setLevel_pool]; exact h.pool
  levels sd' := by rw [(sameFrame_setLevel sd i _).levels]; exact h.levels sd'
  bitmap sd' := by rw [setLevel_bitmap]; exact h.bitmap sd'
  level sd' j hj := by
    have h1 := h.level sd' j hj
    rw [nextOf_setLevel, prevOf_setLevel, levelAt_setLevel]
    split_ifs with hc
    · obtain ⟨rfl, rfl⟩ := hc
      exact ⟨h1.links, h1.count, h1.volume⟩
    · exact h1
  price sd' j hj := by
    rw [levelAt_setLevel, if_neg]
    · exact h.price sd' j hj
    · rintro ⟨rfl, rfl⟩
      exact hj hq
  data sd' j x hx := by rw [setLevel_pool]; exact h.data sd' j x hx
  bit sd' j := by rw [setLevel_bitmap]; exact h.bit sd' j
  chain := by rw [nextOf_setLevel, setLevel_pool]; exact h.chain
  sync := by rw [setLevel_idMap]; exact h.sync

theorem levelAppend (h : Rep L c a) (hs : a.Sep) (hq : ∀ sd i, s ∉ a.queue sd i)
    (hf : s ∉ a.free) (hlt : s < a.cap) (hi : i < a.band)
    (hd : (c.pool.pool.cell s).resting = a.info s) (hprice : (a.info s).price = i)
    (hlp : (c.levelAt sd i).price = a.base + i) :
    ∃ c', c.levelAppend sd i s = some c' ∧ Rep L c' (a.setQueue sd i (a.queue sd i ++ [s])) := by
  have hrep := h.level sd i hi
  have hnull := hs.ne_null hlt
  have htail : a.queue sd i ≠ [] → (c.levelAt sd i).tailIdx ∈ a.queue sd i := hrep.links.last_mem
  have hhead := hrep.links.head_eq_nil
  obtain ⟨c', hc', hr⟩ := levelAppend_spec (s := s) (by rw [h.pool]; exact hlt)
    (h.level_lt hi : i < (c.levels sd).size) (h.word_lt hi)
    ((congrArg Resting.price hd).trans hprice) (by
      rcases eq_or_ne (a.queue sd i) [] with he | he
      · exact .inl (hhead.2 he)
      · exact .inr ⟨h.slot_lt hs (htail he), fun hts => hq sd i (hts ▸ htail he)⟩)
  have hqty : (c.pool.pool.cell s).qty = (a.info s).qty := congrArg Resting.qty hd
  -- a slot of another queue is not the tail
  have hframe : ∀ x, x ∉ a.queue sd i → x ≠ s → c'.nextOf x = c.nextOf x ∧
      c'.prevOf x = c.prevOf x := by
    intro x hx hxs
    rw [hr.next x hxs, hr.prev x hxs, if_neg]
    · exact ⟨rfl, rfl⟩
    · rintro ⟨rfl, hne⟩
      exact hx (htail (mt hhead.2 hne))
  refine ⟨c', hc', {
    tob := hr.tob.trans h.tob, base := hr.base.trans h.base, baseSet := hr.baseSet.trans h.baseSet
    live := hr.live.trans h.live, logger := hr.logger.trans h.logger
    pool := hr.pool.trans h.pool, levels := fun sd => (hr.levels sd).trans (h.levels sd)
    bitmap := fun sd => (hr.bitmap sd).trans (h.bitmap sd), level := ?_, price := ?_, data := ?_
    bit := ?_, chain := ?_, sync := hr.idMap ▸ h.sync }⟩
  · intro sd' j hj
    by_cases hc : sd' = sd ∧ j = i
    · obtain ⟨rfl, rfl⟩ := hc
      have hqueue : (a.setQueue sd' j (a.queue sd' j ++ [s])).queue sd' j = a.queue sd' j ++ [s] :=
        if_pos ⟨rfl, rfl⟩
      rw [hqueue]
      refine ⟨?_, ?_, ?_⟩
      · rw [hr.level]
        rcases eq_or_ne (a.queue sd' j) [] with he | he
        · simp only [he, List.nil_append, if_pos (hhead.2 he)]
          have ht : (c.levelAt sd' j).tailIdx = NULL_IDX := (Dll.nil_iff.1 (he ▸ hrep.links)).2
          exact Dll.singleton hnull hr.next_self (hr.prev_self.trans ht)
        · simp only [if_neg (mt hhead.1 he)]
          refine hrep.links.append he hnull (hq sd' j) hr.next_self hr.prev_self fun x hx => ?_
          have hxs : x ≠ s := fun he => hq sd' j (he ▸ hx)
          rw [hr.next x hxs, hr.prev x hxs]
          refine ⟨if_congr (and_iff_left (mt hhead.1 he)) rfl rfl, rfl⟩
      · rw [hr.level]
        simp only [hrep.count, add32_mod, List.length_append, List.length_singleton]
      · rw [hr.level]
        simp only [hrep.volume, add32_mod, List.map_append, List.sum_append, List.map_cons,
          List.map_nil, List.sum_cons, List.sum_nil, Nat.add_zero, hqty]
        rfl
    · have hqueue : (a.setQueue sd i (a.queue sd i ++ [s])).queue sd' j = a.queue sd' j :=
        if_neg hc
      rw [hqueue, hr.level_other sd' j hc]
      exact (h.level sd' j hj).congr (fun x hx => hframe x (fun hx' => hc (hs.unique hx' hx))
        fun he => hq sd' j (he ▸ hx)) fun _ _ => rfl
  · intro sd' j hj
    by_cases hc : sd' = sd ∧ j = i
    · obtain ⟨rfl, rfl⟩ := hc
      rw [hr.level]
      exact hlp
    · rw [hr.level_other sd' j hc]
      exact h.price sd' j fun he => hj ((if_neg hc).trans he)
  · intro sd' j x hx
    obtain ⟨h1, h2, h3, h4⟩ := hr.data x
    rw [Order.resting, h1, h2, h3, h4]
    rw [mem_setQueue] at hx
    split_ifs at hx with hc
    · rcases List.mem_append.1 hx with hx | hx
      · exact h.data sd i x hx
      · rw [List.mem_singleton.1 hx]; exact hd
    · exact h.data sd' j x hx
  · intro sd' j
    rw [hr.bit, Bool.or_eq_true, h.bit, decide_eq_true_eq, hhead]
    by_cases hc : sd' = sd ∧ j = i
    · obtain ⟨rfl, rfl⟩ := hc
      simp [Ladder.setQueue, em']
    · have hqueue : (a.setQueue sd i (a.queue sd i ++ [s])).queue sd' j = a.queue sd' j :=
        if_neg hc
      rw [hqueue]
      exact or_iff_left fun h => hc ⟨h.1, h.2.1⟩
  · rw [hr.freeHead]
    exact h.chain.congr fun x hx => (hframe x (fun hx' => hs.not_free hx' hx)
      fun he => hf (he ▸ hx)).1

end Append

section Take

/-- Quantity is taken off an order and off its level. -/
theorem take (h : Rep L c a) (hs : a.Sep) (hsq : s ∈ a.queue sd i) {amount : ℕ}
    (hle : amount ≤ (a.info s).qty) :
    ∃ c1 c', c.modifyOrder s (fun o => { o with qty := o.qty - amount }) = some c1 ∧
      c1.modifyLevel sd i (fun l => { l with totalVolume := sub32 l.totalVolume amount }) =
        some c' ∧ Rep L c' (a.take s amount) := by
  have hi := hs.level_lt hsq
  have hrep := h.level sd i hi
  set o : Order := { c.pool.pool.cell s with qty := (c.pool.pool.cell s).qty - amount } with ho
  set l : PriceLevel := { c.levelAt sd i with
    totalVolume := sub32 (c.levelAt sd i).totalVolume amount } with hl
  have hlevels : i < ((c.setOrder s o).levels sd).size := by
    rw [setOrder_levels]; exact h.level_lt hi
  have hlevel : (((c.setOrder s o).levels sd).cell i) = c.levelAt sd i := levelAt_setOrder _ _ _
  refine ⟨_, (c.setOrder s o).setLevel sd i l, modifyOrder_of_lt (h.slot_lt hs hsq) _, ?_, ?_⟩
  · rw [modifyLevel_of_lt hlevels, hlevel]
  have hnext : ((c.setOrder s o).setLevel sd i l).nextOf = c.nextOf := funext fun x => by
    rw [nextOf_setLevel, nextOf_setOrder]
    split_ifs with hx <;> [rw [hx]; skip] <;> rfl
  have hprev : ((c.setOrder s o).setLevel sd i l).prevOf = c.prevOf := funext fun x => by
    rw [prevOf_setLevel, prevOf_setOrder]
    split_ifs with hx <;> [rw [hx]; skip] <;> rfl
  have hqty : ∀ x, x ≠ s → ((a.take s amount).info x).qty = (a.info x).qty := fun x hx => by
    rw [(take_info s amount x).2.2.2, if_neg hx]
  have hframe := (sameFrame_setOrder (c := c) s o).trans (sameFrame_setLevel sd i l)
  exact {
    tob := hframe.tob.trans h.tob, base := hframe.base.trans h.base
    baseSet := hframe.baseSet.trans h.baseSet, live := hframe.live.trans h.live
    logger := hframe.logger.trans h.logger, pool := hframe.pool.trans h.pool
    levels := fun sd => (hframe.levels sd).trans (h.levels sd)
    bitmap := fun sd => (hframe.bitmap sd).trans (h.bitmap sd)
    sync := hframe.idMap ▸ h.sync
    chain := by rw [hnext, hframe.freeHead]; exact h.chain
    bit := fun sd' j => by rw [setLevel_bitmap, setOrder_bitmap]; exact h.bit sd' j
    price := fun sd' j hj => by
      rw [levelAt_setLevel, levelAt_setOrder]
      split_ifs with hc
      · obtain ⟨rfl, rfl⟩ := hc
        exact h.price sd' j hj
      · exact h.price sd' j hj
    data := fun sd' j x hx => by
      have hx' : x ∈ a.queue sd' j := hx
      have hd := h.data sd' j x hx'
      rw [setLevel_pool, setOrder_pool, Cells.put_cell]
      split_ifs with hxs
      · subst hxs
        rw [take_info_self, ← hd]
        rfl
      · rw [take_info_of_ne hxs]
        exact hd
    level := fun sd' j hj => by
      rw [hnext, hprev, levelAt_setLevel, levelAt_setOrder]
      split_ifs with hc
      · obtain ⟨rfl, rfl⟩ := hc
        refine ⟨hrep.links, hrep.count, ?_⟩
        have h1 := sum_erase a.info hsq
        have h2 := sum_erase (a.take s amount).info hsq
        have h3 : ((a.queue sd' j).erase s).map (fun x => ((a.take s amount).info x).qty) =
            ((a.queue sd' j).erase s).map fun x => (a.info x).qty :=
          List.map_congr_left fun x hx => hqty x ((hs.nodup sd' j).mem_erase_iff.1 hx).1
        have h4 : ((a.take s amount).info s).qty = (a.info s).qty - amount := by
          rw [(take_info s amount s).2.2.2, if_pos rfl]
        have hlt := hs.qty_lt hsq
        rw [h3, h4] at h2
        have hvol : l.totalVolume = sub32 (c.levelAt sd' j).totalVolume amount := rfl
        rw [hvol, hrep.volume, sub32_mod (by omega) (by omega)]
        change _ = ((a.queue sd' j).map fun x => ((a.take s amount).info x).qty).sum % 2 ^ 32
        congr 1
        omega
      · exact (h.level sd' j hj).congr (fun _ _ => ⟨rfl, rfl⟩) fun x hx => hqty x fun he =>
          hc (hs.unique hsq (he ▸ hx)) }

end Take

end Rep

end Nanomatch
