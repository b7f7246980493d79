import Nanomatch.Exchange
import Nanomatch.Lib.StableSort
import Nanomatch.Proofs.Listing

/-!
# A book matches as the exchange does

The makers of a ladder are those of the listing that it holds, in the same order, so a taker takes
the same orders from both. What is left of it rests in the ladder where it joins the listing.
-/

namespace Nanomatch

open Greedy OrderBook Ladder StableSort

variable {l : Listing} {a : Ladder} {sd : Side} {i s n want qty band cap : ℕ}
  {t id : OrderId} {limit : Option ℕ}

theorem Side.ahead_refl (sd : Side) (p : ℕ) : sd.Ahead p p := by
  cases sd <;> exact le_rfl

theorem Listing.hit_keeps (qty : ℕ) (ms : List Entry) : Entry.Keeps (Listing.hit qty ms) := by
  intro e e' he
  unfold Listing.hit at he
  split_ifs at he <;> cases he <;> exact ⟨rfl, rfl, rfl⟩

theorem Listing.mem_of_find {e : Entry} (h : l.find id = some e) : e ∈ l.orders ∧ e.id = id :=
  ⟨List.mem_of_find?_eq_some h, by simpa using List.find?_some h⟩

namespace Ladder

section Makers

theorem outward_ahead (a : Ladder) (start : ℕ) : ∀ sd : Side,
    (a.outward sd start).Pairwise fun i j => sd.Ahead i j ∧ ¬ sd.Ahead j i
  | .BUY => by
    simp only [outward, List.pairwise_reverse]
    exact List.pairwise_lt_range.imp fun {i j} hij => ⟨hij.le, Nat.not_le_of_lt hij⟩
  | .SELL => by
    simp only [outward]
    have hlt : (List.range' start (a.band - start)).Pairwise (· < ·) := List.pairwise_lt_range'
    exact hlt.imp fun {i j} hij => ⟨hij.le, Nat.not_le_of_lt hij⟩

/-- The levels that a taker with limit `n` goes through. -/
def met (a : Ladder) (sd : Side) (n : ℕ) : List ℕ := (a.candidates sd).takeWhile (sd.Crosses n ·)

theorem candidates_sublist (a : Ladder) (sd : Side) :
    (a.candidates sd).Sublist (a.outward sd (a.tob.best sd)) := by
  unfold candidates
  split_ifs
  · exact List.nil_sublist _
  · exact List.filter_sublist

theorem mem_met (h : a.Exact sd) : i ∈ a.met sd n ↔ a.queue sd i ≠ [] ∧ sd.Crosses n i := by
  have hpair : (a.candidates sd).Pairwise fun i j =>
      decide (sd.Crosses n j) = true → decide (sd.Crosses n i) = true := by
    refine (a.outward_crosses _ n sd).sublist (a.candidates_sublist sd) |>.imp fun {i j} hc hj => ?_
    exact decide_eq_true (hc (of_decide_eq_true hj))
  unfold met
  rw [takeWhile_eq_filter hpair, List.mem_filter, decide_eq_true_iff]
  exact and_congr_left fun _ => ⟨fun hi => (mem_candidates.1 hi).2.2, h i⟩

/-- The prices of the levels that a taker goes through get worse. -/
theorem met_ahead (a : Ladder) (sd : Side) (n : ℕ) :
    ((a.met sd n).map (a.base + ·)).Pairwise fun p q => sd.Ahead p q ∧ ¬ sd.Ahead q p := by
  have hsub : (a.met sd n).Sublist (a.outward sd (a.tob.best sd)) :=
    (List.takeWhile_sublist _).trans (a.candidates_sublist sd)
  refine List.pairwise_map.2 (((a.outward_ahead _ sd).sublist hsub).imp fun {i j} hij => ?_)
  cases sd <;> simpa only [Side.Ahead, Nat.add_le_add_iff_left] using hij

/-- The makers of a ladder are those of the listing. -/
theorem Lists.makers (h : a.Lists band cap l) (hw : a.Wf)
    (hlim : ∀ i, a.queue sd i ≠ [] → (sd.Crosses n i ↔ ∀ p ∈ limit, sd.Crosses p (a.base + i))) :
    (a.makers sd n).map a.entry = l.makers sd limit := by
  have hmem : ∀ e ∈ l.orders.filter fun e => e.side = sd ∧ ∀ p ∈ limit, sd.Crosses p e.price,
      e.price ∈ (a.met sd n).map (a.base + ·) := by
    intro e he
    obtain ⟨he, hc⟩ := List.mem_filter.1 he
    obtain ⟨hside, hcross⟩ := of_decide_eq_true hc
    obtain ⟨s, hs, rfl⟩ := (h.mem_iff hw).1 he
    have hq : a.queue sd (a.info s).price ≠ [] := hside ▸ List.ne_nil_of_mem hs
    exact List.mem_map.2 ⟨_, (mem_met (h.sound.exact sd)).2 ⟨hq, (hlim _ hq).2 hcross⟩, rfl⟩
  rw [Listing.makers, insertionSort_eq_byKey (r := fun p q => sd.Ahead p q) sd.ahead_refl
    (a.met_ahead sd n) hmem, byKey, List.flatMap_map, Ladder.makers, List.map_flatMap]
  refine congrArg List.flatten (List.map_congr_left fun i hi => ?_)
  obtain ⟨hq, hc⟩ := (mem_met (h.sound.exact sd)).1 hi
  rw [← queueAt_add (hw.lt_band hq), h.queue, Listing.queue, List.filter_filter]
  have hcross := (hlim i hq).1 hc
  refine List.filter_congr fun e _ => ?_
  by_cases hp : e.price = a.base + i
  · have hiff : (e.side = sd ∧ ∀ p ∈ limit, sd.Crosses p e.price) ↔ e.side = sd :=
      and_iff_left (hp ▸ hcross)
    rw [hp] at hiff ⊢
    simp only [hiff, and_true, decide_true, Bool.true_and]
  · simp [hp]

end Makers

section Meet

/-- Two slots that hold orders hold two orders. -/
theorem Named.entry_inj (h : a.Named) {x y : ℕ} (hx : a.Rests x) (hy : a.Rests y)
    (he : a.entry x = a.entry y) : x = y := by
  have hid : (a.info x).id = (a.info y).id := congrArg Entry.id he
  rw [← h x hx, hid, h y hy]

/-- The trades with the entries of a ladder are those with its orders. -/
theorem prints_entry (a : Ladder) (t : OrderId) (want : ℕ) (slots : List ℕ) :
    Listing.prints t want (slots.map a.entry) =
      (filled a.qtyAt want slots).map (fun s => a.offer t s (a.qtyAt s)) ++
        (cut a.qtyAt want slots).toList.map (a.offer t · (owed a.qtyAt want slots)) := by
  unfold Listing.prints
  rw [filled_map, cut_map, owed_map, List.map_map, Option.toList_map, List.map_map]
  rfl

/-- A taker leaves of an order what it leaves of its entry. -/
theorem Lists.hit (h : a.Lists band cap l) (hw : a.Wf) {r : Ladder × ℕ}
    (ht : Took t want (a.makers sd n) a r) (hs : a.Rests s) :
    Listing.hit want ((a.makers sd n).map a.entry) (a.entry s) =
      if s ∈ filled a.qtyAt want (a.makers sd n) then none else some (r.1.entry s) := by
  have hrests : ∀ x ∈ taken a.qtyAt want (a.makers sd n), a.Rests x := fun x hx => by
    obtain ⟨i, hi⟩ := mem_makers_queue (taken_isPrefix.subset hx)
    exact hw.rests hi
  have hfill : a.entry s ∈ filled Entry.qty want ((a.makers sd n).map a.entry) ↔
      s ∈ filled a.qtyAt want (a.makers sd n) := by
    rw [filled_map, List.mem_map]
    refine ⟨?_, fun hm => ⟨s, hm, rfl⟩⟩
    rintro ⟨x, hx, he⟩
    exact h.named.entry_inj (hrests x (List.mem_append_left _ hx)) hs he ▸ hx
  have hcut : cut Entry.qty want ((a.makers sd n).map a.entry) = some (a.entry s) ↔
      cut a.qtyAt want (a.makers sd n) = some s := by
    rw [cut_map, Option.map_eq_some_iff]
    refine ⟨?_, fun hm => ⟨s, hm, rfl⟩⟩
    rintro ⟨x, hx, he⟩
    have hr : a.Rests x := hrests x (List.mem_append_right _ (Option.mem_toList.2 hx))
    exact h.named.entry_inj hr hs he ▸ hx
  unfold Listing.hit
  rw [owed_map]
  by_cases hf : s ∈ filled a.qtyAt want (a.makers sd n)
  · rw [if_pos (hfill.2 hf), if_pos hf]
  · have hentry : r.1.entry s = ⟨(r.1.info s).id, (r.1.info s).side,
        r.1.base + (r.1.info s).price, (r.1.info s).qty⟩ := rfl
    rw [if_neg (mt hfill.1 hf), if_neg hf, hentry, ht.info s hf, ht.base]
    by_cases hc : cut a.qtyAt want (a.makers sd n) = some s
    · rw [if_pos (hcut.2 hc), if_pos hc]
      rfl
    · rw [if_neg (mt hcut.1 hc), if_neg hc]
      rfl

/-- A taker takes of the listing what it takes of the ladder. -/
theorem Lists.meet (h : a.Lists band cap l) (hw : a.Wf)
    (hlim : ∀ i, a.queue sd i ≠ [] → (sd.Crosses n i ↔ ∀ p ∈ limit, sd.Crosses p (a.base + i)))
    (t : OrderId) (qty : ℕ) :
    (a.matchAgainst sd t n qty).1.Lists band cap (l.meet sd t limit qty).1 ∧
      (a.matchAgainst sd t n qty).2 = (l.meet sd t limit qty).2 := by
  have ht : Took t qty (a.makers sd n) a (a.matchAgainst sd t n qty) := hw.match_took sd t n qty
  have hs : Swept sd n a (a.matchAgainst sd t n qty) := hw.match_spec sd t n qty
  have hmakers := h.makers hw hlim
  have hleaves := hw.leaves_match sd t n qty
  set r := a.matchAgainst sd t n qty
  unfold Listing.meet
  rw [← hmakers]
  refine ⟨{
    band_eq := hs.frame.band.trans h.band_eq
    cap_eq := hs.frame.cap.trans h.cap_eq
    sound := h.sound.matched hs
    named := h.named.leaves hleaves
    unset := fun hl => hs.frame.baseSet.trans (h.unset hl)
    anchor := fun p hl => by
      rw [hs.frame.baseSet, hs.frame.base]
      exact h.anchor p hl
    queue := fun sd' p => ?_
    distinct := h.distinct.sublist ((Listing.hit_keeps _ _).sublist l.orders)
    trades := ?_ }, ?_⟩
  · have hat : r.1.queueAt sd' p =
        (a.queueAt sd' p).filter (· ∉ filled a.qtyAt qty (a.makers sd n)) := by
      unfold queueAt
      rw [hs.frame.base, hs.frame.band]
      split_ifs
      · exact ht.queue _ _
      · rfl
    have hchange := Listing.queue_change (l := l)
      (Listing.hit_keeps qty ((a.makers sd n).map a.entry)) sd' p
    rw [← h.queue, List.filterMap_map] at hchange
    refine Eq.trans ?_ hchange.symm
    rw [hat, ← List.filterMap_eq_map, List.filterMap_filter]
    refine List.filterMap_congr fun x hx => ?_
    obtain ⟨i, -, -, hi⟩ := mem_queueAt hx
    refine Eq.trans ?_ (h.hit hw ht (hw.rests hi)).symm
    by_cases hf : x ∈ filled a.qtyAt qty (a.makers sd n) <;> simp [hf]
  · have htrades := ht.trades
    rw [h.trades] at htrades
    exact htrades.trans (congrArg (l.executions ++ ·) (a.prints_entry t qty (a.makers sd n)).symm)
  · have htotal : Greedy.total Entry.qty ((a.makers sd n).map a.entry) =
        Greedy.total a.qtyAt (a.makers sd n) := total_map a.entry _
    exact ht.left.trans (congrArg (qty - ·) htotal.symm)

end Meet

section Insert

/-- The pool is used up where the listing is full. -/
theorem Lists.free_iff (h : a.Lists band cap l) (hw : a.Wf) :
    a.free = [] ↔ cap ≤ l.orders.length := by
  constructor
  · intro hf
    by_contra hlt
    obtain ⟨s, free, hs⟩ := h.exists_free hw (Nat.lt_of_not_le hlt)
    exact List.cons_ne_nil _ _ (hs.symm.trans hf)
  · intro hle
    by_contra hf
    obtain ⟨s, hs⟩ := List.exists_mem_of_ne_nil _ hf
    have hslot : ∀ e ∈ l.orders, a.Rests (a.find e.id) := fun e he => (h.found hw he).1
    have hnodup : (l.orders.map fun e => a.find e.id).Nodup := by
      refine (List.Nodup.of_map _ h.distinct).map_on fun e he e' he' heq => ?_
      rw [← (h.found hw he).2, ← (h.found hw he').2, heq]
    have hsub : (l.orders.map fun e => a.find e.id) ⊆ (List.range a.cap).erase s := by
      intro x hx
      obtain ⟨e, he, rfl⟩ := List.mem_map.1 hx
      refine (List.mem_erase_of_ne fun hxs => ?_).2 (List.mem_range.2 (hw.slot_lt (hslot e he)))
      exact hw.not_free (hslot e he) (hxs ▸ hs)
    have hlen := (List.subperm_of_subset hnodup hsub).length_le
    rw [List.length_map, List.length_erase_of_mem (List.mem_range.2 (hw.free_lt s hs)),
      List.length_range, h.cap_eq] at hlen
    have hpos : s < cap := h.cap_eq ▸ hw.free_lt s hs
    omega

/-- An order that comes trades and rests as it does at the exchange. -/
theorem Lists.insertLimitOrder (h : a.Lists band cap l) (hw : a.Wf) {sd : Side} {price qty : UInt32}
    (htakes : l.Takes band (.insertLimitOrder id sd price qty)) :
    (a.insertLimitOrder id sd price.toNat qty.toNat).1.Lists band cap
        (l.insert cap id sd price.toNat qty.toNat).1 ∧
      (a.insertLimitOrder id sd price.toNat qty.toNat).2 =
        (l.insert cap id sd price.toNat qty.toNat).2 := by
  obtain ⟨hnew, hwin⟩ := htakes
  have h1 := h.anchored hw price.toNat
  obtain ⟨hw1, -⟩ := hw.anchor price.toNat
  obtain ⟨hin, hplace⟩ := h.insert_eq_place hw hwin id sd qty.toNat
  obtain ⟨hsound, hnamed⟩ := h.insert_sound hw sd qty hnew hwin
  rw [hplace] at hsound hnamed ⊢
  set a1 := a.anchor price.toNat
  have hcross : ∀ i, a1.queue sd.other i ≠ [] → (sd.other.Crosses (price.toNat - a1.base) i ↔
      ∀ p ∈ some price.toNat, sd.other.Crosses p (a1.base + i)) := fun i _ => by
    have hle := hin.1
    cases sd <;> simp only [Side.other, Side.Crosses, Option.mem_some_iff, forall_eq'] <;> omega
  obtain ⟨hm, hleft⟩ := h1.meet hw1 hcross id qty.toNat
  have hw2 : (a1.matchAgainst sd.other id (price.toNat - a1.base) qty.toNat).1.Wf :=
    hw1.matchAgainst id _ _
  have hframe := (hw1.match_spec sd.other id (price.toNat - a1.base) qty.toNat).frame
  unfold place at hsound hnamed ⊢
  set r := a1.matchAgainst sd.other id (price.toNat - a1.base) qty.toNat
  unfold Listing.insert
  set r' := l.meet sd.other id (some price.toNat) qty.toNat
  set l' : Listing := { r'.1 with first := some (l.first.getD price.toNat) }
  have hl' : r.1.Lists band cap l' := hm
  have hleft' : r.2 = r'.2 := hleft
  by_cases hz : r.2 = 0
  · simp only [if_pos hz] at hsound ⊢
    rw [if_pos (.inl (hleft' ▸ hz))]
    exact ⟨hl', rfl⟩
  simp only [if_neg hz] at hsound hnamed ⊢
  rcases hf : r.1.free with _ | ⟨s, free⟩
  · rw [rest_full hf, if_pos (.inr ((hl'.free_iff hw2).1 hf))]
    exact ⟨hl', rfl⟩
  · have hroom : ¬ cap ≤ l'.orders.length := fun hc =>
      List.cons_ne_nil _ _ (hf.symm.trans ((hl'.free_iff hw2).2 hc))
    have hi : price.toNat - a1.base < r.1.band :=
      hframe.band ▸ Nat.sub_lt_left_of_lt_add hin.1 hin.2
    have hnew' : ∀ e ∈ l'.orders, e.id ≠ id := by
      intro e he
      obtain ⟨e', he', hhit⟩ := List.mem_filterMap.1 he
      rw [(Listing.hit_keeps _ _ e' e hhit).1]
      exact hnew e' he'
    have hl := hl'.enter hw2 rfl hi hf hnew' hsound hnamed
    rw [hframe.base, Nat.add_sub_cancel' hin.1, hleft'] at hl
    rw [if_neg (not_or.2 ⟨hleft' ▸ hz, hroom⟩)]
    exact ⟨hleft' ▸ hl, (rest_entered id sd _ _ hf).1⟩

end Insert

section Steps

/-- A market order takes from all levels. -/
theorem Lists.processMarketOrder (h : a.Lists band cap l) (hw : a.Wf) (sd : Side) (qty : ℕ) :
    (a.processMarketOrder sd qty).Lists band cap (l.market sd qty) := by
  have hall : ∀ n, (∀ i < a.band, sd.other.Crosses n i) → ∀ i, a.queue sd.other i ≠ [] →
      (sd.other.Crosses n i ↔ ∀ p ∈ (none : Option ℕ), sd.other.Crosses p (a.base + i)) :=
    fun n hn i hi => iff_of_true (hn i (hw.lt_band hi)) fun p hp => absurd hp (Option.not_mem_none p)
  refine (h.meet hw (hall _ fun i hi => ?_) 0 qty).1
  cases sd <;> simp only [Side.other, Side.Crosses] <;> omega

theorem Lists.find_none (h : a.Lists band cap l) (hw : a.Wf) (hfind : l.find id = none) :
    a.find id = NULL_IDX := by
  by_contra hid
  obtain ⟨e, he, heq⟩ := (h.find_ne_null hw).1 hid
  exact List.find?_eq_none.1 hfind e he (decide_eq_true heq)

theorem Lists.execute (h : a.Lists band cap l) (hw : a.Wf) (id : OrderId) (n : ℕ) :
    (a.executeOrder id n).1.Lists band cap (l.execute id n).1 ∧
      (a.executeOrder id n).2 = (l.execute id n).2 := by
  unfold Listing.execute
  rcases hfind : l.find id with _ | e
  · rw [Ladder.executeOrder, if_pos (h.find_none hw hfind)]
    exact ⟨h, rfl⟩
  · obtain ⟨he, rfl⟩ := Listing.mem_of_find hfind
    refine ⟨h.executeOrder hw he n, Bool.eq_iff_iff.2 ?_⟩
    rw [decide_eq_true_iff, ← lower_eq_none]
    exact h.executeOrder_gone hw he n

theorem Lists.reduce (h : a.Lists band cap l) (hw : a.Wf) (id : OrderId) (n : ℕ) :
    (a.reduceOrderQty id n).1.Lists band cap (l.reduce id n).1 ∧
      (a.reduceOrderQty id n).2 = (l.reduce id n).2 := by
  refine ⟨h.reduceOrderQty hw id n, ?_⟩
  unfold Listing.reduce
  rcases hfind : l.find id with _ | e
  · rw [Ladder.reduceOrderQty, if_pos (h.find_none hw hfind)]
    rfl
  · obtain ⟨he, rfl⟩ := Listing.mem_of_find hfind
    refine Bool.eq_iff_iff.2 ?_
    rw [Option.elim_some, decide_eq_true_iff, ← lower_eq_none]
    exact h.reduceOrderQty_gone hw he n

/-- One call, of those that the exchange takes. -/
theorem Lists.step (h : a.Lists band cap l) (hw : a.Wf) : ∀ op : Op, l.Takes band op →
    (a.step op).1.Lists band cap (l.step cap op).1 ∧ (a.step op).2 = (l.step cap op).2
  | .insertLimitOrder _ _ _ _, htakes => h.insertLimitOrder hw htakes
  | .cancelOrder id, _ => ⟨h.cancelOrder hw id, rfl⟩
  | .processMarketOrder sd qty, _ => ⟨h.processMarketOrder hw sd qty.toNat, rfl⟩
  | .executeOrder id fillQty, _ => h.execute hw id fillQty.toNat
  | .reduceOrderQty id cancelQty, _ => h.reduce hw id cancelQty.toNat

end Steps

end Ladder

end Nanomatch
