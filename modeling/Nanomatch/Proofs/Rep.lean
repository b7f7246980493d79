import Mathlib.Algebra.BigOperators.Group.List.Basic
import Nanomatch.Proofs.LadderWf
import Nanomatch.Proofs.Links

/-!
# The book represents the ladder

`Rep` relates a book to the ladder it stands for: the links of each level form its queue, the
slots on the free list are the free ones, a level's totals and its bit fit its queue, and the id
map is in step with the calls made on it. The operations on one order, one level or the top of book
keep it; the id map may be any that answers as the finite map does (`IdMapLaws`).
-/

namespace Nanomatch

open LinkedList WordBits OrderBook

/-- An id map that answers as the finite map does, as long as the calls made on it are good. -/
structure IdMapLaws (M : Type) [IdMapOps M] where
  Sync : M → List IdCall → Prop
  Good : List IdCall → Prop
  good_of_suffix : ∀ {calls calls'}, calls <:+ calls' → Good calls' → Good calls
  find : ∀ {m calls}, Sync m calls → Good calls → ∀ id,
    IdMapOps.find m id = some (lastInsert calls id)
  insert : ∀ {m calls id s}, Sync m calls → Good (.insert id s :: calls) →
    ∃ m', IdMapOps.insert m id s = some m' ∧ Sync m' (.insert id s :: calls)
  erase : ∀ {m calls id}, Sync m calls → Good (.erase id :: calls) →
    ∃ m', IdMapOps.erase m id = some m' ∧ Sync m' (.erase id :: calls)

/-- The level `l` holds the orders in the slots `q`. -/
structure LevelRep (next prev : ℕ → ℕ) (info : ℕ → Resting) (l : PriceLevel) (q : List ℕ) :
    Prop where
  links : Dll next prev NULL_IDX l.headIdx q l.tailIdx
  count : l.orderCount = q.length % 2 ^ 32
  volume : l.totalVolume = (q.map fun s => (info s).qty).sum % 2 ^ 32

/-- The book `c` stands for the ladder `a`. -/
structure Rep {M : Type} [IdMapOps M] (L : IdMapLaws M) (c : OrderBook M) (a : Ladder) : Prop where
  tob : c.tob = a.tob
  base : c.base = a.base
  baseSet : c.baseSet = a.baseSet
  live : c.liveOrderCount = a.live
  logger : c.logger = a.trades
  pool : c.pool.pool.size = a.cap
  levels : ∀ sd, (c.levels sd).size = a.band
  bitmap : ∀ sd, (c.bitmap sd).size = (a.band + 63) / 64
  level : ∀ sd i, i < a.band → LevelRep c.nextOf c.prevOf a.info (c.levelAt sd i) (a.queue sd i)
  price : ∀ sd i, a.queue sd i ≠ [] → (c.levelAt sd i).price = a.base + i
  data : ∀ sd i, ∀ s ∈ a.queue sd i, (c.pool.pool.cell s).resting = a.info s
  bit : ∀ sd i, bitAt (c.bitmap sd) i = true ↔ a.queue sd i ≠ []
  chain : Chain c.nextOf NULL_IDX c.pool.freeHead a.free
  sync : L.Sync c.idMap a.calls

variable {M : Type} [IdMapOps M] {L : IdMapLaws M} {c : OrderBook M} {a : Ladder} {sd : Side}
  {i s : ℕ}

theorem LevelRep.congr {next prev next' prev' : ℕ → ℕ} {info info' : ℕ → Resting} {l : PriceLevel}
    {q : List ℕ} (h : LevelRep next prev info l q)
    (hlinks : ∀ s ∈ q, next' s = next s ∧ prev' s = prev s)
    (hqty : ∀ s ∈ q, (info' s).qty = (info s).qty) : LevelRep next' prev' info' l q where
  links := h.links.congr hlinks
  count := h.count
  volume := by rw [h.volume, List.map_congr_left hqty]

namespace Ladder

theorem Sep.ne_null (h : a.Sep) (hs : s < a.cap) : s ≠ NULL_IDX := by
  have := h.cap_lt
  simp only [NULL_IDX, UINT32_MAX]
  omega

end Ladder

open Ladder

namespace Rep

theorem slot_lt (h : Rep L c a) (hs : a.Sep) (hsq : s ∈ a.queue sd i) : s < c.pool.pool.size := by
  rw [h.pool]; exact hs.slot_lt hsq

theorem level_lt (h : Rep L c a) (hi : i < a.band) : i < (c.levels sd).size := by
  rw [h.levels]; exact hi

theorem word_lt (h : Rep L c a) (hi : i < a.band) : i / 64 < (c.bitmap sd).size := by
  rw [h.bitmap]; omega

theorem levelRep (h : Rep L c a) (hs : a.Sep) (hsq : s ∈ a.queue sd i) :
    LevelRep c.nextOf c.prevOf a.info (c.levelAt sd i) (a.queue sd i) :=
  h.level sd i (hs.level_lt hsq)

theorem empty_iff (h : Rep L c a) (hi : i < a.band) :
    (c.levelAt sd i).empty = true ↔ a.queue sd i = [] := by
  rw [← (h.level sd i hi).links.head_eq_nil]
  simp [PriceLevel.empty, NULL_IDX]

/-- An order in a level that the book holds. -/
theorem readOrder (h : Rep L c a) (hs : a.Sep) (hsq : s ∈ a.queue sd i) :
    ∃ o, c.readOrder s = some o ∧ o = c.pool.pool.cell s ∧ o.resting = a.info s :=
  ⟨_, readOrder_of_lt (h.slot_lt hs hsq), rfl, h.data sd i s hsq⟩

section Totals

theorem sum_erase (info : ℕ → Resting) {q : List ℕ} (hsq : s ∈ q) :
    ((q.erase s).map fun x => (info x).qty).sum + (info s).qty =
      (q.map fun x => (info x).qty).sum := by
  have h := ((List.perm_cons_erase hsq).map fun x => (info x).qty).sum_eq
  rw [h, List.map_cons, List.sum_cons, Nat.add_comm]

theorem add32_mod (n m : ℕ) : add32 (n % 2 ^ 32) m = (n + m) % 2 ^ 32 := by
  rw [add32, Nat.mod_add_mod]

theorem sub32_mod {n m : ℕ} (h : m ≤ n) (hm : m < 2 ^ 32) :
    sub32 (n % 2 ^ 32) m = (n - m) % 2 ^ 32 := by
  simp only [sub32]
  omega

end Totals

section Levels

/-- The slots around one in a queue. -/
theorem prev_or (h : Rep L c a) (hs : a.Sep) (hsq : s ∈ a.queue sd i) :
    c.prevOf s = NULL_IDX ∨ c.prevOf s ∈ a.queue sd i ∧ c.prevOf s ≠ s := by
  obtain ⟨l, m, hq⟩ := List.append_of_mem hsq
  have hl := hq ▸ (h.levelRep hs hsq).links
  rcases eq_or_ne l [] with hl0 | hl0
  · exact .inl (hl.prev_eq_nil.2 hl0)
  · have hp := hl.prev_mem hl0
    refine .inr ⟨hq ▸ List.mem_append_left _ hp, fun he => ?_⟩
    have hnd := (List.nodup_append.1 hl.nodup).2.2
    exact hnd _ hp _ List.mem_cons_self he

theorem next_or (h : Rep L c a) (hs : a.Sep) (hsq : s ∈ a.queue sd i) :
    c.nextOf s = NULL_IDX ∨ c.nextOf s ∈ a.queue sd i ∧ c.nextOf s ≠ s := by
  obtain ⟨l, m, hq⟩ := List.append_of_mem hsq
  have hl := hq ▸ (h.levelRep hs hsq).links
  rcases eq_or_ne m [] with hm0 | hm0
  · exact .inl (hl.next_eq_nil.2 hm0)
  · have hn := hl.next_mem hm0
    refine .inr ⟨hq ▸ List.mem_append_right _ (List.mem_cons_of_mem s hn), fun he => ?_⟩
    have hnd := (List.nodup_append.1 hl.nodup).2.1
    exact (List.nodup_cons.1 hnd).1 (he ▸ hn)

/-- The queue's links after `level_remove`. -/
theorem removed_levelRep {c' : OrderBook M} (h : Rep L c a) (hs : a.Sep) (hsq : s ∈ a.queue sd i)
    (hr : Removed c sd i s c') :
    LevelRep c'.nextOf c'.prevOf a.info (c'.levelAt sd i) ((a.queue sd i).erase s) := by
  obtain ⟨l, m, hq⟩ := List.append_of_mem hsq
  have hrep := h.levelRep hs hsq
  have hnd : (l ++ s :: m).Nodup := hq ▸ hs.nodup sd i
  have hsl : s ∉ l := fun hsl => (List.nodup_append.1 hnd).2.2 s hsl s List.mem_cons_self rfl
  have he : (a.queue sd i).erase s = l ++ m := by
    rw [hq, List.erase_append_right _ hsl, List.erase_cons_head]
  have hne : ∀ x ∈ l ++ m, x ≠ s ∧ x ≠ NULL_IDX := by
    intro x hx
    have hxe : x ∈ (a.queue sd i).erase s := he ▸ hx
    exact ⟨((hs.nodup sd i).mem_erase_iff.1 hxe).1,
      hs.ne_null (hs.slot_lt (List.mem_of_mem_erase hxe))⟩
  refine ⟨?_, ?_, ?_⟩
  · rw [hr.level, he]
    have hl : Dll c.nextOf c.prevOf NULL_IDX (c.levelAt sd i).headIdx (l ++ s :: m)
      (c.levelAt sd i).tailIdx := hq ▸ hrep.links
    exact hl.unlink (fun x hx => hr.next x (hne x hx).1 (hne x hx).2)
      fun x hx => hr.prev x (hne x hx).1 (hne x hx).2
  · rw [hr.level, List.length_erase_of_mem hsq]
    simp only
    rw [hrep.count, sub32_mod (List.length_pos_of_mem hsq) (by decide)]
  · have hsum := sum_erase a.info hsq
    have hd := congrArg Resting.qty (h.data sd i s hsq)
    have hlt := hs.qty_lt hsq
    rw [hr.level]
    simp only
    rw [hrep.volume, show (c.pool.pool.cell s).qty = (a.info s).qty from hd,
      sub32_mod (by omega) hlt]
    congr 1
    omega

theorem levelRemove (h : Rep L c a) (hs : a.Sep) (hsq : s ∈ a.queue sd i) :
    ∃ c', c.levelRemove sd i s = some c' ∧ Rep L c' (a.unlink sd i s) := by
  have hi := hs.level_lt hsq
  have hprice : (c.pool.pool.cell s).price = i :=
    (congrArg Resting.price (h.data sd i s hsq)).trans (hs.price_eq hsq)
  obtain ⟨c', hc', hr⟩ := levelRemove_spec (h.slot_lt hs hsq) (h.level_lt hi) (h.word_lt hi) hprice
    ((h.prev_or hs hsq).imp_right fun hp => ⟨h.slot_lt hs hp.1, hp.2⟩)
    ((h.next_or hs hsq).imp_right fun hn => ⟨h.slot_lt hs hn.1, hn.2⟩)
  have hrep := h.removed_levelRep hs hsq hr
  have hqueue : ∀ sd' j, (a.unlink sd i s).queue sd' j =
      if sd' = sd ∧ j = i then (a.queue sd i).erase s else a.queue sd' j := fun _ _ => rfl
  have hmem : ∀ {sd' j x}, x ∈ (a.unlink sd i s).queue sd' j → x ∈ a.queue sd' j ∧ x ≠ s :=
    fun hx => (mem_unlink hs hsq).1 hx
  -- a slot outside the queue is not next to the one that leaves it
  have hframe : ∀ x, x ∉ a.queue sd i → x < a.cap →
      c'.nextOf x = c.nextOf x ∧ c'.prevOf x = c.prevOf x := by
    intro x hx hlt
    have hnull := hs.ne_null hlt
    have hxs : x ≠ s := fun he => hx (he ▸ hsq)
    have hxp : x ≠ c.prevOf s := by
      rintro rfl
      exact (h.prev_or hs hsq).elim hnull fun hp => hx hp.1
    have hxn : x ≠ c.nextOf s := by
      rintro rfl
      exact (h.next_or hs hsq).elim hnull fun hn => hx hn.1
    rw [hr.next x hxs hnull, hr.prev x hxs hnull, if_neg hxp, if_neg hxn]
    exact ⟨rfl, rfl⟩
  refine ⟨c', hc', {
    tob := hr.tob.trans h.tob, base := hr.base.trans h.base, baseSet := hr.baseSet.trans h.baseSet
    live := hr.live.trans h.live, logger := hr.logger.trans h.logger
    pool := hr.pool.trans h.pool, levels := fun sd => (hr.levels sd).trans (h.levels sd)
    bitmap := fun sd => (hr.bitmap sd).trans (h.bitmap sd), level := ?_, price := ?_, data := ?_
    bit := ?_, chain := ?_, sync := hr.idMap ▸ h.sync }⟩
  · intro sd' j hj
    rw [hqueue]
    split_ifs with hc
    · rw [hc.1, hc.2]; exact hrep
    · rw [hr.level_other sd' j hc]
      refine (h.level sd' j hj).congr (fun x hx => hframe x (fun hx' => hc ?_) (hs.slot_lt hx))
        fun _ _ => rfl
      exact hs.unique hx' hx
  · intro sd' j hj
    obtain ⟨x, hx⟩ := List.exists_mem_of_ne_nil _ hj
    have hp := h.price sd' j (List.ne_nil_of_mem (hmem hx).1)
    by_cases hc : sd' = sd ∧ j = i
    · obtain ⟨rfl, rfl⟩ := hc
      rw [hr.level]
      exact hp
    · rw [hr.level_other sd' j hc]
      exact hp
  · intro sd' j x hx
    obtain ⟨h1, h2, h3, h4⟩ := hr.data x
    rw [Order.resting, h1, h2, h3, h4]
    exact h.data sd' j x (hmem hx).1
  · intro sd' j
    rw [hr.bit, Bool.and_eq_true, h.bit, hqueue]
    have hhead := hrep.links.head_eq_nil
    by_cases hc : sd' = sd ∧ j = i
    · obtain ⟨rfl, rfl⟩ := hc
      rw [if_pos ⟨rfl, rfl⟩]
      simp only [true_and, hhead, Bool.not_eq_true', decide_eq_false_iff_not, and_iff_right_iff_imp]
      exact fun _ => List.ne_nil_of_mem hsq
    · rw [if_neg hc]
      simp only [Bool.not_eq_true', decide_eq_false_iff_not, and_iff_left_iff_imp]
      exact fun _ h => hc ⟨h.1, h.2.1⟩
  · rw [hr.freeHead]
    exact h.chain.congr fun x hx =>
      (hframe x (fun hx' => hs.not_free hx' hx) (hs.free_lt x hx)).1

end Levels

end Rep

end Nanomatch
