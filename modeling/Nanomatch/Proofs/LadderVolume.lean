import Nanomatch.Cached
import Nanomatch.Proofs.LadderEvents

/-!
# What a level adds up to

All calls take orders or quantity off the queues, but for the order that an insert leaves at its
price. So a queue that adds up to more than 32 bits can hold comes of such an insert.
-/

namespace Nanomatch

open Greedy OrderBook Ladder

namespace Ladder

variable {a a' a'' : Ladder} {sd : Side} {i s price qty : ℕ} {id : OrderId} {op : Op}

section Lighter

/-- The queues of `a'` are what is left of those of `a`. The orders have their ids, and none has
more than it had. -/
structure Lighter (a a' : Ladder) : Prop where
  fades : Fades a a'
  id : ∀ sd price, ∀ s ∈ a'.queueAt sd price, (a'.info s).id = (a.info s).id
  qty : ∀ sd price, ∀ s ∈ a'.queueAt sd price, a'.qtyAt s ≤ a.qtyAt s

theorem Lighter.refl (a : Ladder) : Lighter a a :=
  ⟨Fades.refl a, fun _ _ _ _ => rfl, fun _ _ _ _ => le_rfl⟩

theorem Lighter.trans (h : Lighter a a') (h' : Lighter a' a'') : Lighter a a'' where
  fades := h.fades.trans h'.fades
  id sd price s hs := (h'.id sd price s hs).trans (h.id sd price s ((h'.fades sd price).subset hs))
  qty sd price s hs :=
    (h'.qty sd price s hs).trans (h.qty sd price s ((h'.fades sd price).subset hs))

/-- What the orders at the absolute price `price` add up to. -/
def sumAt (a : Ladder) (sd : Side) (price : ℕ) : ℕ := Greedy.total a.qtyAt (a.queueAt sd price)

theorem sumAt_of_nil (h : a.queueAt sd price = []) : a.sumAt sd price = 0 :=
  congrArg (Greedy.total a.qtyAt) h

theorem Lighter.sumAt_le (h : Lighter a a') (sd : Side) (price : ℕ) :
    a'.sumAt sd price ≤ a.sumAt sd price :=
  total_le_of_sublist (h.fades sd price) (h.qty sd price)

theorem Wf.lighter_rebaseFor (hw : a.Wf) (price : ℕ) :
    Lighter a ((a.anchor price).rebaseFor price) where
  fades := hw.fades_rebaseFor price
  id _ _ s _ := (hw.info_rebaseFor price s).1
  qty _ _ s _ := (hw.info_rebaseFor price s).2.le

theorem Wf.lighter_match (hw : a.Wf) (sd : Side) (t : OrderId) (limit qty : ℕ) :
    Lighter a (a.matchAgainst sd t limit qty).1 where
  fades := (hw.match_took sd t limit qty).fades (hw.match_spec sd t limit qty).frame.band
  id _ _ s _ := (hw.match_spec sd t limit qty).frame.id s
  qty sd' price s hs := by
    have ht := hw.match_took sd t limit qty
    obtain ⟨i, -, -, hi⟩ := mem_queueAt hs
    rw [ht.queue, List.mem_filter, decide_eq_true_eq] at hi
    unfold qtyAt
    rw [ht.info s hi.2]
    split_ifs
    · exact Nat.sub_le _ _
    · exact le_rfl

theorem Hit.lighter (h : Hit op s a a') : Lighter a a' where
  fades := fades_of_queue h.base h.band fun sd i => by
    rw [h.queue]
    split_ifs
    · exact List.erase_sublist
    · exact List.Sublist.refl _
  id _ _ x _ := by
    rw [h.info]
    split_ifs <;> rfl
  qty _ _ x _ := by
    unfold qtyAt
    rw [h.info]
    split_ifs
    · exact Nat.sub_le _ _
    · exact le_rfl

/-- An event makes the queues lighter, or leaves them as they are. -/
theorem Wf.lighter_event (hw : a.Wf) (id : OrderId) (hop : op.On id) : Lighter a (a.step op).1 := by
  by_cases hid : a.find id = NULL_IDX
  · rw [step_dead hid hop]
    exact Lighter.refl a
  · exact (hw.step_hit hid hop).1.lighter

/-- An insert takes from the queues, and then an order may come to rest at its price. -/
theorem Wf.lighter_insert (hw : a.Wf) (id : OrderId) (sd : Side) (price qty : ℕ) :
    ∃ b : Ladder, b.Sep ∧ Lighter a b ∧ ((a.insertLimitOrder id sd price qty).1 = b ∨
      ∃ i left, i < b.band ∧ price = b.base + i ∧
        (a.insertLimitOrder id sd price qty).1 = (b.rest id sd i left).1) := by
  have hw1 := (hw.anchor price).1.rebaseFor price
  have hlighter := hw.lighter_rebaseFor price
  unfold Ladder.insertLimitOrder
  simp only
  set a1 := (a.anchor price).rebaseFor price
  by_cases hin : a1.InWindow price
  · rw [if_pos hin]
    obtain ⟨h1, h2⟩ := hin
    have hframe := (hw1.match_spec sd.other id (price - a1.base) qty).frame
    refine ⟨_, (hw1.matchAgainst id (price - a1.base) qty).toSep,
      hlighter.trans (hw1.lighter_match sd.other id _ _), ?_⟩
    unfold Ladder.place
    simp only
    split_ifs
    · exact .inl rfl
    · refine .inr ⟨price - a1.base, _, ?_, ?_, rfl⟩
      · rw [hframe.band]
        omega
      · rw [hframe.base]
        omega
  · rw [if_neg hin]
    exact ⟨a1, hw1.toSep, hlighter, .inl rfl⟩

end Lighter

section Small

/-- No queue adds up to more than 32 bits can hold. -/
def Small (a : Ladder) : Prop := ∀ sd price, a.sumAt sd price < 2 ^ 32

theorem Small.lighter (h : a.Small) (hl : Lighter a a') : a'.Small :=
  fun sd price => (hl.sumAt_le sd price).trans_lt (h sd price)

/-- If the call leaves an order, then there is room for it in the 32 bits of its level's volume. -/
def Fits (a : Ladder) : Op → Prop
  | .insertLimitOrder _ sd price qty =>
    let met := a.makers sd.other (price.toNat - a.base)
    a.InWindow price.toNat → Greedy.total a.qtyAt met < qty.toNat → a.free ≠ [] ∨ met ≠ [] →
      a.sumAt sd price.toNat + (qty.toNat - Greedy.total a.qtyAt met) < 2 ^ 32
  | _ => True

/-- What the queues add up to after an order came to rest. -/
theorem Sep.rest_sumAt (h : a.Sep) (hi : i < a.band) {free : List ℕ} (hf : a.free = s :: free)
    (sd' : Side) (price : ℕ) : (a.rest id sd i qty).1.sumAt sd' price =
      if sd' = sd ∧ price = a.base + i then a.sumAt sd' price + qty else a.sumAt sd' price := by
  obtain ⟨-, -, hinfo, -⟩ := rest_entered id sd i qty hf
  have hnew : (a.rest id sd i qty).1.qtyAt s = qty := by rw [qtyAt, hinfo, if_pos rfl]
  -- the slot was free, so the other orders stay as they are
  have hold : ∀ x ∈ a.queueAt sd' price, (a.rest id sd i qty).1.qtyAt x = a.qtyAt x := by
    intro x hx
    obtain ⟨j, -, -, hj⟩ := mem_queueAt hx
    have hne : x ≠ s := by
      rintro rfl
      exact h.not_free hj (hf ▸ List.mem_cons_self)
    rw [qtyAt, hinfo, if_neg hne, qtyAt]
  unfold sumAt
  rw [rest_queueAt hi hf]
  split_ifs
  · rw [total_append, total_cons, total_nil, hnew, Greedy.total_congr hold, Nat.add_zero]
  · exact Greedy.total_congr hold

/-- The queues stay small if the order's own one does. -/
theorem Sep.rest_small (h : a.Sep) (hsmall : a.Small) (hi : i < a.band) (hf : a.free ≠ []) :
    (a.rest id sd i qty).1.Small ↔ a.sumAt sd (a.base + i) + qty < 2 ^ 32 := by
  obtain ⟨s, free, hf⟩ := List.exists_cons_of_ne_nil hf
  constructor
  · intro hs
    have hlt := hs sd (a.base + i)
    rwa [h.rest_sumAt hi hf, if_pos ⟨rfl, rfl⟩] at hlt
  · intro hlt sd' price
    rw [h.rest_sumAt hi hf]
    split_ifs with hc
    · obtain ⟨rfl, rfl⟩ := hc
      exact hlt
    · exact hsmall sd' price

/-- A taker does not change the queues of its own side. -/
theorem Wf.sumAt_own (hw : a.Wf) (sd : Side) (t : OrderId) (limit qty price : ℕ) :
    (a.matchAgainst sd.other t limit qty).1.sumAt sd price = a.sumAt sd price := by
  have hframe := (hw.match_spec sd.other t limit qty).frame
  have hne : sd ≠ sd.other := by cases sd <;> exact Side.noConfusion
  have hqueue : (a.matchAgainst sd.other t limit qty).1.queueAt sd price = a.queueAt sd price := by
    unfold queueAt
    rw [hframe.base, hframe.band, hframe.queue sd _ fun hc => hne hc.1]
  unfold sumAt
  rw [hqueue]
  refine Greedy.total_congr fun s hs => congrArg Resting.qty (hframe.info s fun j _ hj => ?_)
  obtain ⟨i, -, -, hi⟩ := mem_queueAt hs
  exact hne (hw.unique hj hi).1

/-- An order that is placed at level `i` keeps the queues small, or its rest does not fit. -/
theorem Wf.place_small (hw : a.Wf) (hsmall : a.Small) (hi : i < a.band) :
    (a.place id sd i qty).1.Small ↔ (Greedy.total a.qtyAt (a.makers sd.other i) < qty →
      a.free ≠ [] ∨ a.makers sd.other i ≠ [] →
      a.sumAt sd (a.base + i) +
        (qty - Greedy.total a.qtyAt (a.makers sd.other i)) < 2 ^ 32) := by
  have hs : Swept sd.other i a (a.matchAgainst sd.other id i qty) := hw.match_spec _ _ _ _
  have ht : Took id qty (a.makers sd.other i) a (a.matchAgainst sd.other id i qty) :=
    hw.match_took _ _ _ _
  have hown := hw.sumAt_own sd id i qty (a.base + i)
  have hleft : Small (a.matchAgainst sd.other id i qty).1 :=
    hsmall.lighter (hw.lighter_match _ _ _ _)
  unfold Ladder.place
  simp only
  set r := a.matchAgainst sd.other id i qty
  split_ifs with hr
  · have hall : qty ≤ Greedy.total a.qtyAt (a.makers sd.other i) := by
      have := ht.left
      omega
    exact ⟨fun _ hlt => absurd hlt (by omega), fun _ => hleft⟩
  -- all makers are filled, and their slots are free
  have hlt : Greedy.total a.qtyAt (a.makers sd.other i) < qty := by
    have := ht.left
    omega
  have hfree : r.1.free = (a.makers sd.other i).reverse ++ a.free := by
    rw [ht.free, (taken_all hlt.le).1]
  by_cases hnil : r.1.free = []
  · rw [rest_full hnil]
    rw [hfree, List.append_eq_nil_iff, List.reverse_eq_nil_iff] at hnil
    exact ⟨fun _ _ hroom => absurd hroom (by simp [hnil.1, hnil.2]), fun _ => hleft⟩
  · rw [hs.core.toSep.rest_small hleft (by rw [hs.frame.band]; exact hi) hnil, hs.frame.base, hown,
      ht.left]
    rw [hfree, List.append_eq_nil_iff, List.reverse_eq_nil_iff] at hnil
    exact ⟨fun h _ _ => h, fun h => h hlt (by tauto)⟩

theorem Wf.insert_small (hw : a.Wf) (hsmall : a.Small) (id : OrderId) (sd : Side)
    (price qty : UInt32) : (a.insertLimitOrder id sd price.toNat qty.toNat).1.Small ↔
      a.Fits (.insertLimitOrder id sd price qty) := by
  have hw1 := (hw.anchor price.toNat).1.rebaseFor price.toNat
  have hlighter := hw.lighter_rebaseFor price.toNat
  have hqty : qty.toNat < 2 ^ 32 := qty.toNat_lt
  unfold Ladder.insertLimitOrder
  simp only
  by_cases hold : a.baseSet = true ∧ a.InWindow price.toNat
  · -- the window stays
    obtain ⟨h1, h2⟩ := hold.2
    rw [rebaseFor_of_inWindow hold.1 hold.2, if_pos hold.2, hw.place_small hsmall (by omega), Nat.add_sub_cancel' h1]
    exact ⟨fun h _ => h, fun h => h hold.2⟩
  · -- nothing rests at the price
    have hnone : a.sumAt sd price.toNat = 0 := by
      refine sumAt_of_nil ?_
      by_cases hin : a.InWindow price.toNat
      · have hset : a.baseSet = false := by simpa [hin] using hold
        exact (if_pos hin).trans (hw.unset hset sd _)
      · exact if_neg hin
    have hfits : a.Fits (.insertLimitOrder id sd price qty) := fun _ _ _ => by
      rw [hnone]
      omega
    refine ⟨fun _ => hfits, fun _ => ?_⟩
    have hsmall1 := hsmall.lighter hlighter
    have hzero := hlighter.sumAt_le sd price.toNat
    set a1 := (a.anchor price.toNat).rebaseFor price.toNat
    split_ifs with hin
    · obtain ⟨h1, h2⟩ := hin
      refine (hw1.place_small hsmall1 (by omega)).2 fun _ _ => ?_
      rw [Nat.add_sub_cancel' h1]
      omega
    · exact hsmall1

/-- The queues stay small, but for an insert whose rest does not fit. -/
theorem Wf.step_small (hw : a.Wf) (h : a.Small) : ∀ op : Op, (a.step op).1.Small ↔ a.Fits op
  | .insertLimitOrder id sd price qty => hw.insert_small h id sd price qty
  | .cancelOrder id => iff_of_true (h.lighter (hw.lighter_event id rfl)) trivial
  | .processMarketOrder sd _ => iff_of_true (h.lighter (hw.lighter_match sd.other 0 _ _)) trivial
  | .executeOrder id _ => iff_of_true (h.lighter (hw.lighter_event id rfl)) trivial
  | .reduceOrderQty id _ => iff_of_true (h.lighter (hw.lighter_event id rfl)) trivial

end Small

end Ladder

end Nanomatch
