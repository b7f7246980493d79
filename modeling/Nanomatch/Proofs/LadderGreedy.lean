import Nanomatch.Lib.Greedy
import Nanomatch.Proofs.LadderWf

/-!
# A match takes greedily

The orders that a taker meets, in the order in which it meets them, form one list, and a match takes
the wanted quantity from its front: `Took` says what that does to the ladder.
-/

namespace Nanomatch

open Greedy

namespace Ladder

variable {a a' : Ladder} {sd : Side} {i s want limit : ℕ} {t : OrderId} {l l' : List ℕ}
  {r r' : Ladder × ℕ}

/-- The quantity of the order in slot `s`. -/
def qtyAt (a : Ladder) (s : ℕ) : ℕ := (a.info s).qty

/-- The trade of `amount` between a taker and the order in slot `s`. -/
def offer (a : Ladder) (t : OrderId) (s amount : ℕ) : Trade :=
  ⟨(a.info s).id, t, a.base + (a.info s).price, amount⟩

/-- The orders on side `sd` that a taker with limit `limit` meets, in this order. -/
def makers (a : Ladder) (sd : Side) (limit : ℕ) : List ℕ :=
  ((a.candidates sd).takeWhile (sd.Crosses limit ·)).flatMap (a.queue sd)

/-- What a taker did that wanted `want` of the orders in the slots `l`, first to last. -/
structure Took (t : OrderId) (want : ℕ) (l : List ℕ) (a : Ladder) (r : Ladder × ℕ) : Prop where
  left : r.2 = want - total a.qtyAt l
  base : r.1.base = a.base
  trades : r.1.trades = a.trades ++ ((filled a.qtyAt want l).map (fun s => a.offer t s (a.qtyAt s))
    ++ (cut a.qtyAt want l).toList.map (a.offer t · (owed a.qtyAt want l)))
  queue : ∀ sd i, r.1.queue sd i = (a.queue sd i).filter (· ∉ filled a.qtyAt want l)
  info : ∀ s ∉ filled a.qtyAt want l, r.1.info s = if cut a.qtyAt want l = some s then
    { a.info s with qty := (a.info s).qty - owed a.qtyAt want l } else a.info s
  free : r.1.free = (filled a.qtyAt want l).reverse ++ a.free
  live : r.1.live = a.live - (filled a.qtyAt want l).length
  calls : r.1.calls = ((filled a.qtyAt want l).map fun s => IdCall.erase (a.info s).id).reverse ++
    a.calls

section Took

/-- A taker that gets nothing changes nothing. -/
theorem took_none (hf : filled a.qtyAt want l = []) (hc : cut a.qtyAt want l = none)
    (hr : want - total a.qtyAt l = want) : Took t want l a (a, want) where
  left := hr.symm
  base := rfl
  trades := by simp [hf, hc]
  queue sd i := by simp [hf]
  info s _ := by simp [hc]
  free := by simp [hf]
  live := by simp [hf]
  calls := by simp [hf]

theorem took_nil : Took t want [] a (a, want) := took_none rfl rfl (Nat.sub_zero _)

/-- A taker that wants nothing. -/
theorem took_zero (h : ∀ s ∈ l, 0 < a.qtyAt s) : Took t 0 l a (a, 0) :=
  took_none (filled_zero h) (cut_zero h) (Nat.zero_sub _)

/-- The cached top does not matter. -/
theorem Took.setTob (h : Took t want l a r) (tob : TopOfBook) :
    Took t want l a ({ r.1 with tob := tob }, r.2) :=
  { h with }

theorem fillOne_whole (a : Ladder) (sd : Side) (i s : ℕ) (t : OrderId) :
    let a' := a.fillOne sd i t s (a.info s).qty
    a'.base = a.base ∧ a'.trades = a.trades ++ [⟨(a.info s).id, t, a.base + i, (a.info s).qty⟩] ∧
      a'.free = s :: a.free ∧ a'.live = a.live - 1 ∧ a'.calls = .erase (a.info s).id :: a.calls := by
  set b := (a.trade ⟨(a.info s).id, t, a.base + i, (a.info s).qty⟩).take s (a.info s).qty
  have hfill : a.fillOne sd i t s (a.info s).qty = (b.retire sd i s).dropLive :=
    if_pos (Nat.sub_self _)
  obtain ⟨-, -, -, hbase, hlive, -, htrades, hfree, hcalls⟩ := retire_fields b sd i s
  have hid : (b.info s).id = (a.info s).id := (take_info s (a.info s).qty s).1
  rw [hfill]
  refine ⟨hbase, htrades, hfree, congrArg (· - 1) hlive, hcalls.trans ?_⟩
  rw [hid]
  rfl

theorem fillOne_part (a : Ladder) (sd : Side) (i : ℕ) (t : OrderId) (h : want < (a.info s).qty) :
    a.fillOne sd i t s want =
      (a.trade ⟨(a.info s).id, t, a.base + i, want⟩).take s want := by
  unfold fillOne
  exact if_neg (by omega)

theorem erase_eq_filter_not_mem (h : a.Sep) (sd' : Side) (j : ℕ) (hs : s ∈ a.queue sd i) :
    (if sd' = sd ∧ j = i then (a.queue sd i).erase s else a.queue sd' j) =
      (a.queue sd' j).filter (· ∉ [s]) := by
  split_ifs with hc
  · obtain ⟨rfl, rfl⟩ := hc
    rw [(h.nodup sd' j).erase_eq_filter]
    exact List.filter_congr fun x _ => by by_cases hx : x = s <;> simp [hx]
  · refine (List.filter_eq_self.2 fun x hx => ?_).symm
    have hne : x ≠ s := fun he => hc (h.unique hs (he ▸ hx))
    simpa using hne

/-- A single order is met. -/
theorem took_one (h : a.Sep) (hs : s ∈ a.queue sd i) (h0 : want ≠ 0) :
    Took t want [s] a (a.fillOne sd i t s (min want (a.info s).qty),
      want - min want (a.info s).qty) := by
  have hprice := h.price_eq hs
  by_cases hle : a.qtyAt s ≤ want
  · have hf : filled a.qtyAt want [s] = [s] := filled_cons_of_le hle
    have hc : cut a.qtyAt want [s] = none := cut_cons_of_le hle
    have hmin : min want (a.info s).qty = (a.info s).qty := Nat.min_eq_right hle
    obtain ⟨hbase, htrades, hfree, hlive, hcalls⟩ := fillOne_whole a sd i s t
    rw [hmin]
    refine ⟨by simp [qtyAt], hbase, ?_, fun sd' j => ?_, fun x hx => ?_, ?_, ?_, ?_⟩
    · rw [htrades, hf, hc, ← hprice]
      simp [offer, qtyAt]
    · rw [hf, ← erase_eq_filter_not_mem h sd' j hs, fillOne_queue]
      simp
    · rw [hf] at hx
      rw [(fillOne_fields a sd i s t _).2.2.2.2.2.1, hc, if_neg (by simp)]
      exact take_info_of_ne (fun he => hx (List.mem_singleton.2 he)) _
    · rw [hfree, hf]
      rfl
    · rw [hlive, hf]
      rfl
    · rw [hcalls, hf]
      rfl
  · have hlt : want < a.qtyAt s := Nat.lt_of_not_le hle
    have hf : filled a.qtyAt want [s] = [] := filled_cons_of_lt hlt
    have hc : cut a.qtyAt want [s] = some s := cut_cons_of_lt hlt h0
    have ho : owed a.qtyAt want [s] = want := by
      unfold owed
      rw [hf, total_nil, Nat.sub_zero]
    have hmin : min want (a.info s).qty = want := Nat.min_eq_left hlt.le
    rw [hmin, fillOne_part a sd i t hlt]
    refine ⟨?_, rfl, ?_, fun sd' j => ?_, fun x _ => ?_, ?_, ?_, ?_⟩
    · rw [total_cons, total_nil]
      omega
    · rw [hf, hc, ho, ← hprice]
      rfl
    · rw [hf]
      simp [trade, Ladder.take, setInfo]
    · rw [hc, ho]
      split_ifs with hx
      · obtain rfl := Option.some.inj hx
        exact take_info_self _ _
      · exact take_info_of_ne (fun he => hx (congrArg some he.symm)) _
    all_goals rw [hf]; rfl

/-- The orders behind the ones that were met are as before. -/
theorem Took.info_eq (h : Took t want l a r) (hs : s ∉ l) : r.1.info s = a.info s := by
  have hsub : ∀ x ∈ taken a.qtyAt want l, x ∈ l := fun x hx => taken_isPrefix.subset hx
  have hnf : s ∉ filled a.qtyAt want l := fun hf => hs (hsub s (List.mem_append_left _ hf))
  rw [h.info s hnf, if_neg]
  intro hc
  exact hs (hsub s (List.mem_append_right _ (by simp [hc])))


/-- A taker that goes through a second list of orders after a first one. -/
theorem Took.append (h : Took t want l a r) (h' : Took t r.2 l' r.1 r')
    (hpos : ∀ s ∈ l', 0 < a.qtyAt s) (hd : ∀ s ∈ l', s ∉ l) : Took t want (l ++ l') a r' := by
  have hinfo : ∀ s ∈ l', r.1.info s = a.info s := fun s hs => h.info_eq (hd s hs)
  have hqty : ∀ s ∈ l', r.1.qtyAt s = a.qtyAt s := fun s hs => congrArg Resting.qty (hinfo s hs)
  have hf : filled r.1.qtyAt r.2 l' = filled a.qtyAt r.2 l' := filled_congr hqty
  have hc : cut r.1.qtyAt r.2 l' = cut a.qtyAt r.2 l' := cut_congr hqty
  have hleft := h.left
  have htotal := h'.left
  rw [total_congr hqty] at htotal
  by_cases hle : total a.qtyAt l ≤ want
  · -- the first list is used up
    obtain ⟨hl, hn⟩ := taken_all hle
    obtain ⟨hfa, hca⟩ := taken_append (m := l') hle
    rw [← hleft, ← hf] at hfa
    rw [← hleft, ← hc] at hca
    have ho : owed a.qtyAt want (l ++ l') = owed r.1.qtyAt r.2 l' := by
      have hsub : ∀ s ∈ filled r.1.qtyAt r.2 l', s ∈ l' := fun s hs => filled_isPrefix.subset hs
      have ht : total r.1.qtyAt (filled r.1.qtyAt r.2 l') = total a.qtyAt (filled r.1.qtyAt r.2 l') :=
        total_congr fun s hs => hqty s (hsub s hs)
      unfold owed
      rw [hfa, total_append, ht]
      omega
    have hoffer : ∀ s ∈ l', ∀ m, r.1.offer t s m = a.offer t s m := fun s hs m => by
      unfold offer
      rw [hinfo s hs, h.base]
    refine ⟨by rw [htotal, total_append]; omega, h'.base.trans h.base, ?_, fun sd i => ?_,
      fun s hs => ?_, ?_, ?_, ?_⟩
    · rw [h'.trades, h.trades, hfa, hca, hl, hn, ho]
      have h1 : (filled r.1.qtyAt r.2 l').map (fun s => r.1.offer t s (r.1.qtyAt s)) =
          (filled r.1.qtyAt r.2 l').map fun s => a.offer t s (a.qtyAt s) :=
        List.map_congr_left fun s hs => by
          have hs' := filled_isPrefix.subset hs
          rw [hoffer s hs', hqty s hs']
      have h2 : (cut r.1.qtyAt r.2 l').toList.map (r.1.offer t · (owed r.1.qtyAt r.2 l')) =
          (cut r.1.qtyAt r.2 l').toList.map (a.offer t · (owed r.1.qtyAt r.2 l')) :=
        List.map_congr_left fun s hs => by
          exact hoffer s (taken_isPrefix.subset (List.mem_append_right _ hs)) _
      rw [h1, h2]
      simp
    · rw [h'.queue, h.queue, hl, hfa, List.filter_filter]
      exact List.filter_congr fun x _ => by simp [Bool.and_comm]
    · rw [hfa, List.mem_append, not_or] at hs
      rw [h'.info s hs.2, hca, ho, h.info s (hl.symm ▸ hs.1), hn]
      simp
    · rw [h'.free, h.free, hl, hfa]
      simp
    · rw [h'.live, h.live, hl, hfa, List.length_append]
      omega
    · have h1 : (filled r.1.qtyAt r.2 l').map (fun s => IdCall.erase (r.1.info s).id) =
          (filled r.1.qtyAt r.2 l').map fun s => IdCall.erase (a.info s).id :=
        List.map_congr_left fun s hs => by rw [hinfo s (filled_isPrefix.subset hs)]
      rw [h'.calls, h.calls, hl, hfa, h1]
      simp
  · -- the first list satisfies the taker
    have hlt := Nat.lt_of_not_le hle
    have h0 : r.2 = 0 := by omega
    obtain ⟨hfa, hca⟩ := taken_append_of_lt (m := l') hlt
    have ho : owed a.qtyAt want (l ++ l') = owed a.qtyAt want l := by
      unfold owed
      rw [hfa]
    rw [h0, filled_zero hpos] at hf
    rw [h0, cut_zero hpos] at hc
    rw [h0] at h'
    refine ⟨by rw [h'.left, total_append]; omega, h'.base.trans h.base, ?_, fun sd i => ?_,
      fun s hs => ?_, ?_, ?_, ?_⟩
    · rw [h'.trades, h.trades, hf, hc, hfa, hca, ho]
      simp
    · rw [h'.queue, h.queue, hf, hfa]
      simp
    · rw [h'.info s (by rw [hf]; exact List.not_mem_nil), hca, ho, hc, h.info s (hfa ▸ hs)]
      simp
    · rw [h'.free, h.free, hf, hfa]
      rfl
    · rw [h'.live, h.live, hf, hfa]
      rfl
    · rw [h'.calls, h.calls, hf, hfa]
      rfl

end Took

section Match

/-- A taker goes through the orders of one level. -/
theorem fill_took (sd : Side) (i : ℕ) (t : OrderId) : ∀ (queue : List ℕ) (a : Ladder) (want : ℕ),
    a.queue sd i = queue → a.Core → a.Pos → Took t want queue a (fill sd i t queue a want)
  | [], a, want, _, _, _ => took_nil
  | s :: queue, a, want, hq, hc, hpos => by
    have hnd : (s :: queue).Nodup := hq ▸ hc.nodup sd i
    have hqpos : ∀ x ∈ s :: queue, 0 < a.qtyAt x := fun x hx => hpos sd i x (hq ▸ hx)
    have hs : s ∈ a.queue sd i := hq ▸ List.mem_cons_self
    rw [fill]
    split_ifs with h0
    · subst h0
      exact took_zero hqpos
    have hone := took_one (t := t) hc.toSep hs h0
    have hc' := hc.fillOne hs t (min want (a.info s).qty)
    have hpos' : (a.fillOne sd i t s (min want (a.info s).qty)).Pos := fillOne_pos hc.toSep hpos hs
    have hd : ∀ x ∈ queue, x ∉ [s] := fun x hx he =>
      (List.nodup_cons.1 hnd).1 (List.mem_singleton.1 he ▸ hx)
    have hrest : ∀ x ∈ queue, 0 < a.qtyAt x := fun x hx => hqpos x (List.mem_cons_of_mem s hx)
    by_cases hle : (a.info s).qty ≤ min want (a.info s).qty
    · have hq' : (a.fillOne sd i t s (min want (a.info s).qty)).queue sd i = queue := by
        rw [fillOne_queue, if_pos ⟨rfl, rfl, hle⟩, hq, List.erase_cons_head]
      exact hone.append (fill_took sd i t queue _ _ hq' hc' hpos') hrest hd
    · -- the order has quantity left, so the taker has none
      have hz : want - min want (a.info s).qty = 0 := by omega
      have hinfo : ∀ x ∈ queue, 0 < (a.fillOne sd i t s (min want (a.info s).qty)).qtyAt x := by
        intro x hx
        have := hone.info_eq (hd x hx)
        rw [qtyAt, this]
        exact hrest x hx
      simp only
      rw [hz, fill_zero]
      rw [hz] at hone
      exact hone.append (took_zero hinfo) hrest hd

/-- A taker goes through the levels of a side. -/
theorem sweep_took (sd : Side) (t : OrderId) (limit : ℕ) : ∀ (levels : List ℕ) (a : Ladder)
    (want : ℕ), levels.Nodup → a.Core → a.Pos →
    Took t want ((levels.takeWhile (sd.Crosses limit ·)).flatMap (a.queue sd)) a
      (sweep sd t limit levels a want)
  | [], a, want, _, _, _ => took_nil
  | i :: levels, a, want, hnd, hc, hpos => by
    have hlpos : ∀ {ls : List ℕ}, ∀ x ∈ ls.flatMap (a.queue sd), 0 < a.qtyAt x := fun x hx => by
      obtain ⟨j, -, hj⟩ := List.mem_flatMap.1 hx
      exact hpos sd j x hj
    rw [sweep]
    split_ifs with hr
    · rcases hr with h0 | hx
      · subst h0
        exact took_zero hlpos
      · rw [List.takeWhile_cons_of_neg (by simpa using hx)]
        exact took_nil
    push Not at hr
    obtain ⟨h0, hx⟩ := hr
    rw [List.takeWhile_cons_of_pos (by simpa using hx), List.flatMap_cons]
    obtain ⟨h1, h2, h3, -, h5⟩ := fill_spec (t := t) (a.queue sd i) a want rfl hc hpos
    have hlevel := fill_took sd i t _ a want rfl hc hpos
    simp only
    set r := fill sd i t (a.queue sd i) a want
    obtain ⟨hni, hnd'⟩ := List.nodup_cons.1 hnd
    have hd : ∀ x ∈ (levels.takeWhile (sd.Crosses limit ·)).flatMap (a.queue sd),
        x ∉ a.queue sd i := by
      intro x hx hxi
      obtain ⟨j, hj, hxj⟩ := List.mem_flatMap.1 hx
      have hji := (hc.unique hxi hxj).2
      exact hni (hji ▸ (List.takeWhile_prefix _).subset hj)
    split_ifs with hq
    · have hqueue : (levels.takeWhile (sd.Crosses limit ·)).flatMap (r.1.queue sd) =
          (levels.takeWhile (sd.Crosses limit ·)).flatMap (a.queue sd) := by
        refine congrArg List.flatten (List.map_congr_left fun j hj => ?_)
        exact h3.queue sd j fun he => hni (he.2 ▸ (List.takeWhile_prefix _).subset hj)
      have hrest := sweep_took sd t limit levels (r.1.setTop sd (firstOf levels)) r.2 hnd'
        (h1.setTop sd _) h2
      have hq' : (r.1.setTop sd (firstOf levels)).queue = r.1.queue := rfl
      rw [hq', hqueue] at hrest
      exact (hlevel.setTob (r.1.setTop sd (firstOf levels)).tob).append hrest hlpos hd
    · have hz : r.2 = 0 := h5.resolve_right hq
      have hzero : Took t 0 ((levels.takeWhile (sd.Crosses limit ·)).flatMap (a.queue sd))
          (r.1.setTopQty sd i) (r.1.setTopQty sd i, 0) := by
        refine took_zero fun x hx => ?_
        have : (r.1.setTopQty sd i).info x = a.info x := hlevel.info_eq (hd x hx)
        rw [qtyAt, this]
        exact hlpos x hx
      have hlevel' := hlevel.setTob (r.1.setTopQty sd i).tob
      rw [hz] at hlevel' ⊢
      exact hlevel'.append hzero hlpos hd

/-- A match takes the wanted quantity of the orders that the taker meets, first to last. -/
theorem Wf.match_took (h : a.Wf) (sd : Side) (t : OrderId) (limit qty : ℕ) :
    Took t qty (a.makers sd limit) a (a.matchAgainst sd t limit qty) := by
  have hnd : (a.candidates sd).Nodup := by
    unfold candidates
    split_ifs
    · exact List.nodup_nil
    · exact occupied_nodup
  exact sweep_took sd t limit _ a qty hnd h.toCore h.pos

end Match

end Ladder

end Nanomatch
