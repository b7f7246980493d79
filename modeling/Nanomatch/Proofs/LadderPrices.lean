import Mathlib.Data.List.TakeWhile
import Nanomatch.Priority
import Nanomatch.Proofs.LadderVolume

/-!
# What a trade shows of its maker

Orders rest at the prices of their inserts, whatever the window does. A taker trades with them at
these prices, as far as its limit, and with no more of an order than there is.
-/

namespace Nanomatch

open Greedy OrderBook Ladder

namespace Ladder

variable {a a' : Ladder} {sd : Side} {i s price qty limit : ℕ} {id k : OrderId}

section Placed

/-- There is an order with the id `k` at the absolute price `price` of side `sd`. -/
def Placed (a : Ladder) (k : OrderId) (sd : Side) (price : ℕ) : Prop :=
  ∃ s ∈ a.queueAt sd price, (a.info s).id = k

/-- The call is an insert of the order `k` at this price and side. -/
def Inserts (k : OrderId) (sd : Side) (price : ℕ) (op : Op) : Prop :=
  ∃ p qty, op = .insertLimitOrder k sd p qty ∧ p.toNat = price

theorem Placed.of_lighter (h : a'.Placed k sd price) (hl : Lighter a a') : a.Placed k sd price := by
  obtain ⟨s, hs, hid⟩ := h
  exact ⟨s, (hl.fades sd price).subset hs, (hl.id sd price s hs).symm.trans hid⟩

/-- An order that rests is at its own price, and the others stay where they are. -/
theorem Sep.placed_rest (hs : a.Sep) {sd' : Side} (hi : i < a.band)
    (h : (a.rest id sd i qty).1.Placed k sd' price) :
    (id = k ∧ sd = sd' ∧ a.base + i = price) ∨ a.Placed k sd' price := by
  rcases hf : a.free with _ | ⟨s, free⟩
  · rw [rest_full hf] at h
    exact .inr h
  obtain ⟨-, -, hinfo, -⟩ := rest_entered id sd i qty hf
  obtain ⟨x, hx, hid⟩ := h
  rw [rest_queueAt hi hf] at hx
  rw [hinfo] at hid
  split_ifs at hx hid with hc hxs hxs
  · exact .inl ⟨hid, hc.1.symm, hc.2.symm⟩
  · obtain hx | hx := List.mem_append.1 hx
    · exact .inr ⟨x, hx, hid⟩
    · exact absurd (List.mem_singleton.1 hx) hxs
  · -- a free slot is in no queue
    obtain ⟨j, -, -, hj⟩ := mem_queueAt hx
    exact absurd (hf ▸ hxs ▸ List.mem_cons_self) (hs.not_free hj)
  · exact .inr ⟨x, hx, hid⟩

/-- No call but its insert puts an order where it was not. -/
theorem Wf.step_placed (hw : a.Wf) : ∀ op : Op, (a.step op).1.Placed k sd price →
    Inserts k sd price op ∨ a.Placed k sd price
  | .insertLimitOrder id side p qty, h => by
    obtain ⟨b, hb, hl, heq | ⟨i, left, hi, hp, heq⟩⟩ :=
      hw.lighter_insert id side p.toNat qty.toNat
    · rw [Ladder.step, heq] at h
      exact .inr (h.of_lighter hl)
    · rw [Ladder.step, heq] at h
      obtain ⟨rfl, rfl, rfl⟩ | h := hb.placed_rest hi h
      · exact .inl ⟨p, qty, rfl, hp⟩
      · exact .inr (h.of_lighter hl)
  | .cancelOrder id, h => .inr (h.of_lighter (hw.lighter_event id rfl))
  | .processMarketOrder side _, h => .inr (h.of_lighter (hw.lighter_match side.other 0 _ _))
  | .executeOrder id _, h => .inr (h.of_lighter (hw.lighter_event id rfl))
  | .reduceOrderQty id _, h => .inr (h.of_lighter (hw.lighter_event id rfl))

/-- After a run every order is at the price of an insert of the run. -/
theorem Wf.run_placed (hw : a.Wf) (hempty : ∀ k sd price, ¬ a.Placed k sd price) (ops : List Op) :
    (a.run ops).Placed k sd price → ∃ op ∈ ops, Inserts k sd price op := by
  induction ops using List.reverseRecOn with
  | nil => exact fun h => absurd h (hempty k sd price)
  | append_singleton ops op ih =>
    intro h
    have hrun : a.run (ops ++ [op]) = ((a.run ops).step op).1 := List.foldl_append
    rw [hrun] at h
    obtain hop | h := (hw.run ops).step_placed op h
    · exact ⟨op, by simp, hop⟩
    · obtain ⟨op', hmem, hop⟩ := ih h
      exact ⟨op', List.mem_append_left _ hmem, hop⟩

end Placed

section Sold

/-- The trades `new` have the makers `l`, and take no more of a maker than there is. -/
structure Sold (a : Ladder) (l : List ℕ) (new : List Trade) : Prop where
  nodup : l.Nodup
  made : List.Forall₂ (fun s t => a.MadeBy s t ∧ t.qty ≤ a.qtyAt s) l new

theorem sold_nil (a : Ladder) : Sold a [] [] := ⟨List.nodup_nil, .nil⟩

/-- What was left of the orders was there before. -/
theorem Sold.of_lighter {l : List ℕ} {new : List Trade} (h : Sold a' l new) (hl : Lighter a a') :
    Sold a l new where
  nodup := h.nodup
  made := h.made.imp fun s _ ⟨⟨⟨sd, hs⟩, hid⟩, hle⟩ =>
    ⟨⟨⟨sd, (hl.fades sd _).subset hs⟩, (hl.id sd _ s hs).symm.trans hid⟩,
      hle.trans (hl.qty sd _ s hs)⟩

/-- A maker has some quantity, and is within the limit. -/
theorem Wf.maker_within (hw : a.Wf) (hs : s ∈ a.makers sd limit) :
    0 < a.qtyAt s ∧ sd.Crosses limit (a.info s).price := by
  obtain ⟨i, hi, hsq⟩ := List.mem_flatMap.1 hs
  have hcross : sd.Crosses limit i :=
    of_decide_eq_true (List.mem_takeWhile_imp (p := (sd.Crosses limit ·)) hi)
  exact ⟨hw.pos sd i s hsq, (hw.price_eq hsq).symm ▸ hcross⟩

/-- What a taker trades, and with whom. -/
theorem Wf.match_sold (hw : a.Wf) (sd : Side) (t : OrderId) (limit qty : ℕ) : ∃ l new,
    (a.matchAgainst sd t limit qty).1.trades = a.trades ++ new ∧ Sold a l new ∧
      ∀ tr ∈ new, 0 < tr.qty ∧ ∃ i, tr.price = a.base + i ∧ sd.Crosses limit i := by
  have ht := hw.match_took sd t limit qty
  set m := a.makers sd limit
  set f := filled a.qtyAt qty m
  set c := (cut a.qtyAt qty m).toList
  have hsub : (f ++ c).Sublist m := taken_isPrefix.sublist
  have hmade : ∀ s ∈ f ++ c, ∀ n, a.MadeBy s (a.offer t s n) :=
    fun s hs n => hw.madeBy_offer (hw.maker_queue (hsub.subset hs)) t n
  have hwithin : ∀ s ∈ f ++ c, 0 < a.qtyAt s ∧ sd.Crosses limit (a.info s).price :=
    fun s hs => hw.maker_within (hsub.subset hs)
  have hcut : ∀ s ∈ c, 0 < owed a.qtyAt qty m ∧ owed a.qtyAt qty m < a.qtyAt s :=
    fun s hs => owed_of_cut (Option.mem_toList.1 hs)
  refine ⟨f ++ c, _, ht.trades, ⟨(hw.makers_ahead sd limit).1.sublist hsub, ?_⟩, fun tr htr => ?_⟩
  · refine List.rel_append ?_ ?_
    · exact List.forall₂_map_right_iff.2 (List.forall₂_same.2 fun s hs =>
        ⟨hmade s (List.mem_append_left _ hs) _, le_rfl⟩)
    · exact List.forall₂_map_right_iff.2 (List.forall₂_same.2 fun s hs =>
        ⟨hmade s (List.mem_append_right _ hs) _, (hcut s hs).2.le⟩)
  · obtain htr | htr := List.mem_append.1 htr
    · obtain ⟨s, hs, rfl⟩ := List.mem_map.1 htr
      obtain ⟨hpos, hcross⟩ := hwithin s (List.mem_append_left _ hs)
      exact ⟨hpos, _, rfl, hcross⟩
    · obtain ⟨s, hs, rfl⟩ := List.mem_map.1 htr
      exact ⟨(hcut s hs).1, _, rfl, (hwithin s (List.mem_append_right _ hs)).2⟩

theorem Wf.insert_sold (hw : a.Wf) (id : OrderId) (sd : Side) (price qty : UInt32) : ∃ l new,
    (a.insertLimitOrder id sd price.toNat qty.toNat).1.trades = a.trades ++ new ∧ Sold a l new ∧
      ∀ t ∈ new, (Op.insertLimitOrder id sd price qty).Allows t := by
  have hw1 := (hw.anchor price.toNat).1.rebaseFor price.toNat
  have htr := (hw.rebaseFor_booked price.toNat).1
  have hlighter := hw.lighter_rebaseFor price.toNat
  unfold Ladder.insertLimitOrder
  simp only at htr ⊢
  set a1 := (a.anchor price.toNat).rebaseFor price.toNat
  split_ifs with hin
  · obtain ⟨l, new, hnew, hsold, hlimit⟩ :=
      hw1.match_sold sd.other id (price.toNat - a1.base) qty.toNat
    refine ⟨l, new, ?_, hsold.of_lighter hlighter, fun t ht => ?_⟩
    · unfold Ladder.place
      simp only
      split_ifs
      · rw [hnew, htr]
      · rw [(rest_keeps _ _ _ _).2.2, hnew, htr]
    · obtain ⟨hpos, i, hi, hcross⟩ := hlimit t ht
      obtain ⟨h1, h2⟩ := hin
      cases sd with
      | BUY =>
        have hle : i ≤ price.toNat - a1.base := hcross
        exact ⟨hpos, by omega⟩
      | SELL =>
        have hle : price.toNat - a1.base ≤ i := hcross
        exact ⟨hpos, by omega⟩
  · exact ⟨[], [], htr.trans (List.append_nil _).symm, sold_nil a,
      fun t ht => absurd ht List.not_mem_nil⟩

theorem Wf.executeOrder_sold (hw : a.Wf) (id : OrderId) (fillQty : UInt32) : ∃ l new,
    (a.executeOrder id fillQty.toNat).1.trades = a.trades ++ new ∧ Sold a l new := by
  by_cases hid : a.find id = NULL_IDX
  · refine ⟨[], [], ?_, sold_nil a⟩
    unfold Ladder.executeOrder
    rw [if_pos hid, List.append_nil]
  have hon : (Op.executeOrder id fillQty).On id := rfl
  have hr : a.find id ∈ a.queue _ _ := (hw.ids id hid).1
  refine ⟨[a.find id], _, (hw.step_hit hid hon).1.trades, List.nodup_singleton _, .cons ?_ .nil⟩
  exact ⟨hw.madeBy_offer hr 0 _, Nat.min_le_right _ _⟩

/-- What one call trades, and with whom. -/
theorem Wf.step_sold (hw : a.Wf) : ∀ op : Op, ∃ l new,
    (a.step op).1.trades = a.trades ++ new ∧ Sold a l new ∧ ∀ t ∈ new, op.Allows t
  | .insertLimitOrder id sd price qty => hw.insert_sold id sd price qty
  | .processMarketOrder sd _ => by
    obtain ⟨l, new, htr, hsold, -⟩ := hw.match_sold sd.other 0 _ _
    exact ⟨l, new, htr, hsold, fun _ _ => trivial⟩
  | .executeOrder id _ => by
    obtain ⟨l, new, htr, hsold⟩ := hw.executeOrder_sold id _
    exact ⟨l, new, htr, hsold, fun _ _ => trivial⟩
  | .cancelOrder id =>
    ⟨[], [], (hw.cancelOrder_booked id).trades, sold_nil a, fun _ _ => trivial⟩
  | .reduceOrderQty id cancelQty =>
    ⟨[], [], (hw.reduceOrderQty_booked id cancelQty).trades, sold_nil a, fun _ _ => trivial⟩

end Sold

end Ladder

end Nanomatch
