import Mathlib.Data.List.Forall2
import Nanomatch.Proofs.Makers
import Nanomatch.Proofs.RefusedRuns

/-!
# Queues keep their order

No call moves an order ahead of another one: what a call leaves of a queue is in the order in which
it was, and an insert puts its order behind the others. A taker meets the makers of a price in the
order of their queue.
-/

namespace Nanomatch

open Greedy OrderBook Ladder

namespace Ladder

variable {a a' a'' : Ladder} {sd : Side} {i s n price qty want limit : ℕ} {id t : OrderId}
  {l free : List ℕ} {born : ℕ → ℕ} {r : Ladder × ℕ}

section Fades

/-- The queues of `a'` are what is left of those of `a`. -/
def Fades (a a' : Ladder) : Prop :=
  ∀ sd price, (a'.queueAt sd price).Sublist (a.queueAt sd price)

/-- The queues of `a'` are what is left of those of `a`, but for the order in slot `s`, which is the
last one of its queue. -/
def Gains (a a' : Ladder) (s : ℕ) : Prop :=
  ∃ sd₀ price₀, (∀ sd price, ¬ (sd = sd₀ ∧ price = price₀) →
      (a'.queueAt sd price).Sublist (a.queueAt sd price)) ∧
    ∃ l, l.Sublist (a.queueAt sd₀ price₀) ∧ a'.queueAt sd₀ price₀ = l ++ [s]

theorem Fades.refl (a : Ladder) : Fades a a := fun _ _ => List.Sublist.refl _

theorem Fades.trans (h : Fades a a') (h' : Fades a' a'') : Fades a a'' :=
  fun sd price => (h' sd price).trans (h sd price)

theorem Fades.gains (h : Fades a a') (h' : Gains a' a'' s) : Gains a a'' s := by
  obtain ⟨sd₀, price₀, hother, l, hl, heq⟩ := h'
  exact ⟨sd₀, price₀, fun sd price hc => (hother sd price hc).trans (h sd price), l,
    hl.trans (h sd₀ price₀), heq⟩

/-- The window stays, and orders leave their queues. -/
theorem fades_of_queue (hbase : a'.base = a.base) (hband : a'.band = a.band)
    (hq : ∀ sd i, (a'.queue sd i).Sublist (a.queue sd i)) : Fades a a' := by
  intro sd price
  unfold queueAt
  rw [hbase, hband]
  split_ifs
  · exact hq _ _
  · exact List.Sublist.refl _

theorem Took.fades (h : Took t want l a r) (hband : r.1.band = a.band) : Fades a r.1 :=
  fades_of_queue h.base hband fun sd i => (h.queue sd i).symm ▸ List.filter_sublist

theorem fades_refreshTop (sd : Side) (i : ℕ) : Fades a (a.refreshTop sd i) := by
  unfold refreshTop
  split_ifs <;> exact Fades.refl a

theorem fades_retire (sd : Side) (i s : ℕ) : Fades a (a.retire sd i s) := by
  refine fades_of_queue rfl rfl fun sd' j => ?_
  rw [retire_queue]
  split_ifs with hc
  · rw [hc.1, hc.2]
    exact List.erase_sublist
  · exact List.Sublist.refl _

theorem fades_takePartly (s amount : ℕ) : Fades a (a.takePartly s amount) := by
  unfold takePartly
  split_ifs <;> exact Fades.refl a

theorem fades_cancelAt (s : ℕ) : Fades a (a.cancelAt s) :=
  (fades_retire _ _ _).trans (fades_refreshTop _ _)

theorem fades_rebase (newBase : ℕ) : Fades a (a.rebase newBase) := by
  intro sd price
  rw [queueAt_rebase]
  split_ifs
  · exact List.Sublist.refl _
  · exact List.nil_sublist _

theorem Wf.fades_rebaseFor (hw : a.Wf) (price : ℕ) : Fades a ((a.anchor price).rebaseFor price) := by
  have h1 : Fades a (a.anchor price) := fun sd p => by
    rw [(hw.unchanged_anchor price).queue]
  refine h1.trans ?_
  unfold Ladder.rebaseFor
  split_ifs
  · exact fades_rebase _
  · exact Fades.refl _

/-- The orders keep their ids and quantities when the window moves. -/
theorem Wf.info_rebaseFor (hw : a.Wf) (price s : ℕ) :
    (((a.anchor price).rebaseFor price).info s).id = (a.info s).id ∧
      (((a.anchor price).rebaseFor price).info s).qty = (a.info s).qty := by
  obtain ⟨h1, h2⟩ := (hw.unchanged_anchor price).info s
  unfold Ladder.rebaseFor
  split_ifs
  · obtain ⟨h3, -, h4⟩ := info_rebase (a.anchor price) (centeredBase (a.anchor price).band price) s
    exact ⟨h3.trans h1, h4.trans h2⟩
  · exact ⟨h1, h2⟩

theorem rest_full (hf : a.free = []) : a.rest id sd i qty = (a, false) := by
  unfold Ladder.rest
  rw [hf]

/-- A ladder that an order comes to rest on, but for the refresh of the top of book. -/
theorem rest_entered (id : OrderId) (sd : Side) (i qty : ℕ) (hf : a.free = s :: free) :
    (a.rest id sd i qty).2 = true ∧ (a.rest id sd i qty).1.find id = s ∧
      (∀ x, (a.rest id sd i qty).1.info x = if x = s then ⟨id, i, qty, sd⟩ else a.info x) ∧
      ∀ sd' j, (a.rest id sd i qty).1.queue sd' j =
        if sd' = sd ∧ j = i then a.queue sd i ++ [s] else a.queue sd' j := by
  set b : Ladder := ({ a with free } : Ladder).enter id sd i qty s
  have hb : ((a.rest id sd i qty).1 = b ∨ (a.rest id sd i qty).1 = b.setTop sd i) ∧
      (a.rest id sd i qty).2 = true := by
    unfold Ladder.rest
    rw [hf]
    simp only
    split_ifs
    · exact ⟨.inr rfl, trivial⟩
    · exact ⟨.inl rfl, trivial⟩
  have hfind : b.find id = s := (find_enter id).trans (if_pos rfl)
  have hinfo : ∀ x, b.info x = if x = s then ⟨id, i, qty, sd⟩ else a.info x := fun x => by
    split_ifs with hx
    · rw [hx]
      exact enter_info_self
    · exact enter_info_of_ne (a := { a with free }) hx
  refine ⟨hb.2, ?_⟩
  rcases hb.1 with h | h <;> rw [h] <;> exact ⟨hfind, hinfo, fun _ _ => rfl⟩

/-- The order that rests is behind those at its price. -/
theorem rest_queueAt (hi : i < a.band) (hf : a.free = s :: free) (sd' : Side) (price : ℕ) :
    (a.rest id sd i qty).1.queueAt sd' price =
      if sd' = sd ∧ price = a.base + i then a.queueAt sd' price ++ [s] else a.queueAt sd' price := by
  obtain ⟨-, -, -, hqueue⟩ := rest_entered id sd i qty hf
  unfold queueAt
  rw [(rest_keeps id sd i qty).1, (rest_sizes id sd i qty).1, hqueue]
  by_cases hin : a.base ≤ price ∧ price < a.base + a.band
  · rw [if_pos hin, if_pos hin]
    by_cases hc : sd' = sd ∧ price = a.base + i
    · obtain ⟨rfl, rfl⟩ := hc
      rw [Nat.add_sub_cancel_left, if_pos ⟨rfl, rfl⟩, if_pos ⟨rfl, rfl⟩]
    · rw [if_neg hc, if_neg fun he => hc ⟨he.1, by omega⟩]
  · rw [if_neg hin, if_neg hin, if_neg fun he => hin (by omega)]

/-- The order that rests is the last one of its queue. -/
theorem gains_rest (hi : i < a.band) (h : (a.rest id sd i qty).2 = true) :
    Gains a (a.rest id sd i qty).1 ((a.rest id sd i qty).1.find id) := by
  rcases hf : a.free with _ | ⟨s, free⟩
  · rw [rest_full hf] at h
    exact absurd h Bool.false_ne_true
  obtain ⟨-, hfind, -, -⟩ := rest_entered id sd i qty hf
  rw [hfind]
  refine ⟨sd, a.base + i, fun sd' price hc => ?_, a.queueAt sd (a.base + i), List.Sublist.refl _, ?_⟩
  · rw [rest_queueAt hi hf, if_neg hc]
  · rw [rest_queueAt hi hf, if_pos ⟨rfl, rfl⟩]

theorem fades_rest (h : (a.rest id sd i qty).2 = false) : Fades a (a.rest id sd i qty).1 := by
  rw [(rest_refused h).1]
  exact Fades.refl a

/-- An insert puts its order behind the others if it returns true. -/
theorem Wf.insert_gains (hw : a.Wf) (h : (a.insertLimitOrder id sd price qty).2 = true) :
    Gains a (a.insertLimitOrder id sd price qty).1
      ((a.insertLimitOrder id sd price qty).1.find id) := by
  have hw1 := (hw.anchor price).1.rebaseFor price
  have hfade := hw.fades_rebaseFor price
  unfold Ladder.insertLimitOrder at h ⊢
  simp only at h ⊢
  set a1 := (a.anchor price).rebaseFor price
  by_cases hin : a1.InWindow price
  · rw [if_pos hin] at h ⊢
    have hframe := (hw1.match_spec sd.other id (price - a1.base) qty).frame
    have ht := (hw1.match_took sd.other id (price - a1.base) qty).fades hframe.band
    obtain ⟨h1, h2⟩ := hin
    unfold Ladder.place at h ⊢
    simp only at h ⊢
    split_ifs at h ⊢ with hleft
    exact (hfade.trans ht).gains (gains_rest (by rw [hframe.band]; omega) h)
  · rw [if_neg hin] at h
    exact absurd h Bool.false_ne_true

theorem Wf.insert_fades (hw : a.Wf) (h : (a.insertLimitOrder id sd price qty).2 = false) :
    Fades a (a.insertLimitOrder id sd price qty).1 := by
  have hw1 := (hw.anchor price).1.rebaseFor price
  have hfade := hw.fades_rebaseFor price
  unfold Ladder.insertLimitOrder at h ⊢
  simp only at h ⊢
  set a1 := (a.anchor price).rebaseFor price
  by_cases hin : a1.InWindow price
  · rw [if_pos hin] at h ⊢
    have hframe := (hw1.match_spec sd.other id (price - a1.base) qty).frame
    have ht := (hw1.match_took sd.other id (price - a1.base) qty).fades hframe.band
    unfold Ladder.place at h ⊢
    simp only at h ⊢
    split_ifs at h ⊢ with hleft
    · exact hfade.trans ht
    · exact (hfade.trans ht).trans (fades_rest h)
  · rw [if_neg hin]
    exact hfade

theorem Wf.processMarketOrder_fades (hw : a.Wf) (sd : Side) (qty : ℕ) :
    Fades a (a.processMarketOrder sd qty) :=
  (hw.match_took sd.other 0 _ qty).fades (hw.match_spec sd.other 0 _ qty).frame.band

theorem fades_trade (t : Trade) : Fades a (a.trade t) := fun _ _ => List.Sublist.refl _

theorem fades_dropLive : Fades a a.dropLive := fun _ _ => List.Sublist.refl _

theorem fades_executeOrder (id : OrderId) (fillQty : ℕ) : Fades a (a.executeOrder id fillQty).1 := by
  unfold Ladder.executeOrder Ladder.executeAt
  simp only
  split_ifs
  · exact Fades.refl a
  · exact ((fades_trade _).trans (fades_retire _ _ _)).trans
      (fades_dropLive.trans (fades_refreshTop _ _))
  · exact (fades_trade _).trans (fades_takePartly _ _)

theorem fades_cancelOrder (id : OrderId) : Fades a (a.cancelOrder id) := by
  unfold Ladder.cancelOrder
  split_ifs
  · exact Fades.refl a
  · exact fades_cancelAt _

theorem fades_reduceOrderQty (id : OrderId) (cancelQty : ℕ) :
    Fades a (a.reduceOrderQty id cancelQty).1 := by
  unfold Ladder.reduceOrderQty
  split_ifs
  · exact Fades.refl a
  · exact fades_cancelAt _
  · exact fades_takePartly _ _

end Fades

section Order

/-- The orders of each price are in the order of their inserts, of which there were at most `n`. -/
structure InOrder (a : Ladder) (born : ℕ → ℕ) (n : ℕ) : Prop where
  lt : ∀ sd price, ∀ s ∈ a.queueAt sd price, born s < n
  sorted : ∀ sd price, ((a.queueAt sd price).map born).Pairwise (· < ·)

theorem InOrder.fades (h : a.InOrder born n) (hf : Fades a a') : a'.InOrder born (n + 1) where
  lt sd price s hs := Nat.lt_succ_of_lt (h.lt sd price s ((hf sd price).subset hs))
  sorted sd price := (h.sorted sd price).sublist ((hf sd price).map born)

/-- Two orders at one price, or one at two prices. -/
theorem Sep.queueAt_unique (h : a.Sep) {sd' : Side} {price' : ℕ} (hs : s ∈ a.queueAt sd price)
    (hs' : s ∈ a.queueAt sd' price') : sd' = sd ∧ price' = price := by
  obtain ⟨i, -, rfl, hi⟩ := mem_queueAt hs
  obtain ⟨j, -, rfl, hj⟩ := mem_queueAt hs'
  obtain ⟨rfl, rfl⟩ := h.unique hi hj
  exact ⟨rfl, rfl⟩

theorem Sep.queueAt_nodup (h : a.Sep) (sd : Side) (price : ℕ) : (a.queueAt sd price).Nodup := by
  unfold queueAt
  split_ifs
  · exact h.nodup _ _
  · exact List.nodup_nil

/-- The order that came last has the number of its insert. -/
theorem InOrder.gains (h : a.InOrder born n) (hs' : a'.Sep) (hg : Gains a a' s) :
    a'.InOrder (fun x => if s = x then n else born x) (n + 1) := by
  obtain ⟨sd₀, price₀, hother, l, hl, heq⟩ := hg
  have hmem : s ∈ a'.queueAt sd₀ price₀ := by
    rw [heq]
    exact List.mem_append_right _ (List.mem_singleton_self s)
  -- the numbers of the orders that were there are as before
  have hkeep : ∀ {m : List ℕ}, s ∉ m → m.map (fun x => if s = x then n else born x) = m.map born :=
    fun hm => List.map_congr_left fun x hx => if_neg fun (he : s = x) => hm (he ▸ hx)
  have hsl : s ∉ l := by
    have hnd := hs'.queueAt_nodup sd₀ price₀
    rw [heq] at hnd
    exact fun hsl => (List.nodup_append.1 hnd).2.2 s hsl s (List.mem_singleton_self s) rfl
  refine ⟨fun sd price x hx => ?_, fun sd price => ?_⟩
  · split_ifs with hsx
    · exact Nat.lt_succ_self n
    · by_cases hc : sd = sd₀ ∧ price = price₀
      · rw [hc.1, hc.2, heq, List.mem_append, List.mem_singleton] at hx
        exact Nat.lt_succ_of_lt (h.lt _ _ x (hl.subset (hx.resolve_right (Ne.symm hsx))))
      · exact Nat.lt_succ_of_lt (h.lt _ _ x ((hother sd price hc).subset hx))
  · by_cases hc : sd = sd₀ ∧ price = price₀
    · rw [hc.1, hc.2, heq, List.map_append, hkeep hsl, List.pairwise_append]
      refine ⟨(h.sorted sd₀ price₀).sublist (hl.map born), List.pairwise_singleton _ _, ?_⟩
      intro x hx y hy
      obtain ⟨z, hz, rfl⟩ := List.mem_map.1 hx
      obtain rfl : y = n := by simpa using hy
      exact h.lt _ _ z (hl.subset hz)
    · rw [hkeep fun hs => hc (hs'.queueAt_unique hmem hs)]
      exact (h.sorted sd price).sublist ((hother sd price hc).map born)

end Order

section Makers

theorem Sep.queueAt_of_mem (h : a.Sep) (hs : s ∈ a.queue sd i) :
    a.queueAt sd (a.base + i) = a.queue sd i := queueAt_add (h.level_lt hs)

/-- `s` is the slot of the maker of the trade. -/
def MadeBy (a : Ladder) (s : ℕ) (t : Trade) : Prop :=
  (∃ sd, s ∈ a.queueAt sd t.price) ∧ (a.info s).id = t.makerId

/-- The trades `new` have the makers `l`. Of two at one price the first one is ahead in its queue,
and it is filled. -/
structure Met (a : Ladder) (l : List ℕ) (new : List Trade) : Prop where
  nodup : l.Nodup
  made : List.Forall₂ a.MadeBy l new
  ahead : (l.zip new).Pairwise fun x y => x.2.price = y.2.price →
    (∃ sd, [x.1, y.1].Sublist (a.queueAt sd x.2.price)) ∧ x.2.qty = a.qtyAt x.1

theorem met_nil (a : Ladder) : Met a [] [] := ⟨List.nodup_nil, .nil, .nil⟩

/-- Makers that were met after orders left are makers of the ladder before. -/
theorem Met.of_fades {new : List Trade} (h : Met a' l new) (hf : Fades a a')
    (hinfo : ∀ s, (a'.info s).id = (a.info s).id ∧ (a'.info s).qty = (a.info s).qty) :
    Met a l new where
  nodup := h.nodup
  made := h.made.imp fun s t ⟨⟨sd, hs⟩, hid⟩ => ⟨⟨sd, (hf sd _).subset hs⟩, (hinfo s).1 ▸ hid⟩
  ahead := h.ahead.imp fun {x y} hxy he => by
    obtain ⟨⟨sd, hsub⟩, hqty⟩ := hxy he
    exact ⟨⟨sd, hsub.trans (hf sd _)⟩, hqty.trans (hinfo x.1).2⟩

/-- The makers of one price are met in the order of their queue. -/
theorem Sep.makers_ahead (h : a.Sep) (sd : Side) (limit : ℕ) : (a.makers sd limit).Nodup ∧
    (a.makers sd limit).Pairwise fun x y => (a.info x).price = (a.info y).price →
      [x, y].Sublist (a.queue sd (a.info x).price) := by
  have hnd : ((a.candidates sd).takeWhile (sd.Crosses limit ·)).Nodup := by
    refine List.Nodup.sublist (List.takeWhile_sublist _) ?_
    unfold candidates
    split_ifs
    · exact List.nodup_nil
    · exact occupied_nodup
  unfold Ladder.makers
  refine ⟨List.nodup_flatMap.2 ⟨fun i _ => h.nodup sd i, hnd.imp fun {i j} hij x hi hj => ?_⟩,
    List.pairwise_flatMap.2 ⟨fun i _ => ?_, hnd.imp fun {i j} hij x hx y hy he => ?_⟩⟩
  · exact hij (h.unique hj hi).2
  · refine List.pairwise_iff_forall_sublist.2 fun {x y} hxy _ => ?_
    rw [h.price_eq (hxy.subset List.mem_cons_self)]
    exact hxy
  · rw [h.price_eq hx, h.price_eq hy] at he
    exact absurd he hij

theorem Sep.maker_queue (h : a.Sep) (hs : s ∈ a.makers sd limit) :
    s ∈ a.queue sd (a.info s).price := by
  obtain ⟨i, hi⟩ := mem_makers_queue hs
  rw [h.price_eq hi]
  exact hi

theorem Sep.madeBy_offer (h : a.Sep) (hs : s ∈ a.queue sd (a.info s).price) (t : OrderId) (m : ℕ) :
    a.MadeBy s (a.offer t s m) :=
  ⟨⟨sd, (h.queueAt_of_mem hs).symm ▸ hs⟩, rfl⟩

/-- The makers of a match, in the order in which they were met. -/
theorem Wf.match_met (hw : a.Wf) (sd : Side) (t : OrderId) (limit qty : ℕ) : ∃ l new,
    (a.matchAgainst sd t limit qty).1.trades = a.trades ++ new ∧ Met a l new := by
  have ht := hw.match_took sd t limit qty
  set m := a.makers sd limit
  set f := filled a.qtyAt qty m
  set c := (cut a.qtyAt qty m).toList
  obtain ⟨hnd, hahead⟩ := hw.makers_ahead sd limit
  have hsub : (f ++ c).Sublist m := taken_isPrefix.sublist
  have hqueue : ∀ s ∈ f ++ c, s ∈ a.queue sd (a.info s).price :=
    fun s hs => hw.maker_queue (hsub.subset hs)
  have hmade : ∀ s ∈ f ++ c, ∀ m, a.MadeBy s (a.offer t s m) :=
    fun s hs m => hw.madeBy_offer (hqueue s hs) t m
  have hprice : ∀ {x y m m'}, (a.offer t x m).price = (a.offer t y m').price →
      (a.info x).price = (a.info y).price := fun h => Nat.add_left_cancel h
  -- the order of the queues is that of the makers
  have hpair : (f ++ c).Pairwise fun x y => ∀ m m', (a.offer t x m).price = (a.offer t y m').price →
      ∃ sd, [x, y].Sublist (a.queueAt sd (a.offer t x m).price) := by
    refine (hahead.sublist hsub).imp_of_mem fun {x y} hx _ hxy m m' he => ⟨sd, ?_⟩
    rw [show (a.offer t x m).price = a.base + (a.info x).price from rfl,
      hw.queueAt_of_mem (hqueue x hx)]
    exact hxy (hprice he)
  obtain ⟨hff, -, hfc⟩ := List.pairwise_append.1 hpair
  refine ⟨f ++ c, _, ht.trades, hnd.sublist hsub, ?_, ?_⟩
  · refine List.rel_append ?_ ?_
    · exact List.forall₂_map_right_iff.2 (List.forall₂_same.2 fun s hs =>
        hmade s (List.mem_append_left _ hs) _)
    · exact List.forall₂_map_right_iff.2 (List.forall₂_same.2 fun s hs =>
        hmade s (List.mem_append_right _ hs) _)
  · have hzip : ∀ (l : List ℕ) (g : ℕ → Trade), l.zip (l.map g) = l.map fun s => (s, g s) := by
      intro l g
      simpa using List.zip_map' (f := id) (g := g) (l := l)
    have hone : ∀ {R : ℕ → ℕ → Prop}, c.Pairwise R := by
      intro R
      simp only [c]
      rcases cut a.qtyAt qty m with _ | x
      · exact List.Pairwise.nil
      · exact List.pairwise_singleton R x
    rw [List.zip_append (List.length_map _).symm, hzip, hzip, List.pairwise_append, List.pairwise_map,
      List.pairwise_map]
    refine ⟨hff.imp fun hxy he => ⟨hxy _ _ he, rfl⟩, hone, fun x hx y hy he => ?_⟩
    obtain ⟨u, hu, rfl⟩ := List.mem_map.1 hx
    obtain ⟨v, hv, rfl⟩ := List.mem_map.1 hy
    exact ⟨hfc u hu v hv _ _ he, rfl⟩

/-- The makers of the trades that one call makes. -/
theorem Wf.insert_met (hw : a.Wf) (id : OrderId) (sd : Side) (price qty : ℕ) : ∃ l new,
    (a.insertLimitOrder id sd price qty).1.trades = a.trades ++ new ∧ Met a l new := by
  have hw1 := (hw.anchor price).1.rebaseFor price
  have htr := (hw.rebaseFor_booked price).1
  have hfade := hw.fades_rebaseFor price
  have hinfo := hw.info_rebaseFor price
  unfold Ladder.insertLimitOrder
  simp only at htr ⊢
  set a1 := (a.anchor price).rebaseFor price
  split_ifs with hin
  · obtain ⟨l, new, hnew, hmet⟩ := hw1.match_met sd.other id (price - a1.base) qty
    refine ⟨l, new, ?_, hmet.of_fades hfade hinfo⟩
    unfold Ladder.place
    simp only
    split_ifs
    · rw [hnew, htr]
    · rw [(rest_keeps _ _ _ _).2.2, hnew, htr]
  · exact ⟨[], [], htr.trans (List.append_nil _).symm, met_nil a⟩

theorem Wf.executeOrder_met (hw : a.Wf) (id : OrderId) (fillQty : ℕ) : ∃ l new,
    (a.executeOrder id fillQty).1.trades = a.trades ++ new ∧ Met a l new := by
  unfold Ladder.executeOrder
  split_ifs with hid
  · exact ⟨[], [], (List.append_nil _).symm, met_nil a⟩
  · have hr : a.find id ∈ a.queue _ _ := (hw.ids id hid).1
    set s := a.find id
    refine ⟨[s], [a.offer 0 s (min fillQty (a.info s).qty)], ?_, List.nodup_singleton _,
      .cons (hw.madeBy_offer hr 0 _) .nil, List.pairwise_singleton _ _⟩
    unfold Ladder.executeAt
    simp only
    split_ifs
    · exact (refreshTop_fields _ _ _).2.2.2
    · exact (takePartly_fields _ _ _).2.2.2

theorem Wf.step_met (hw : a.Wf) : ∀ op : Op, ∃ l new,
    (a.step op).1.trades = a.trades ++ new ∧ Met a l new
  | .insertLimitOrder id sd _ _ => hw.insert_met id sd _ _
  | .processMarketOrder sd _ => hw.match_met sd.other 0 _ _
  | .executeOrder id _ => hw.executeOrder_met id _
  | .cancelOrder id => ⟨[], [], (hw.cancelOrder_booked id).trades, met_nil a⟩
  | .reduceOrderQty id cancelQty =>
    ⟨[], [], (hw.reduceOrderQty_booked id cancelQty).trades, met_nil a⟩

end Makers

end Ladder

end Nanomatch
