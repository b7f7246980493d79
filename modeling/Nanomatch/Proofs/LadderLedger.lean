import Mathlib.Algebra.BigOperators.Group.Finset.Basic
import Nanomatch.Ledger
import Nanomatch.Proofs.Exact

/-!
# The ledger of the ladder

What one call does to the quantity of an id: what rested before or is inserted now rests
afterwards, is traded, is taken out, is left over, or is dropped.
-/

namespace Nanomatch

namespace Ladder

variable {a a' : Ladder} {sd : Side} {i s : ℕ} {w : Resting → ℕ} {k : OrderId}

section Totals

instance (a : Ladder) : DecidablePred a.Rests := fun s =>
  inferInstanceAs (Decidable (s ∈ a.queue (a.info s).side (a.info s).price))

def rested (a : Ladder) : Finset ℕ := (Finset.range a.cap).filter a.Rests

/-- The sum of a weight over the resting orders. -/
def total (a : Ladder) (w : Resting → ℕ) : ℕ := ∑ s ∈ a.rested, w (a.info s)

def idQty (k : OrderId) (o : Resting) : ℕ := if o.id = k then o.qty else 0

theorem Sep.mem_rested (h : a.Sep) : s ∈ a.rested ↔ a.Rests s := by
  rw [rested, Finset.mem_filter, Finset.mem_range, and_iff_right_iff_imp]
  exact fun hs => h.slot_lt hs

/-- Calls that touch neither the queues nor the orders leave every total. -/
theorem total_congr (hcap : a'.cap = a.cap) (hqueue : a'.queue = a.queue) (hinfo : a'.info = a.info) :
    a'.total w = a.total w := by
  have hr : a'.rested = a.rested := by
    ext s
    simp only [rested, Finset.mem_filter, Rests, hcap, hqueue, hinfo]
  rw [total, total, hr, hinfo]

theorem Sep.total_retire (h : a.Sep) (hs : s ∈ a.queue sd i) :
    (a.retire sd i s).total w + w (a.info s) = a.total w := by
  have hr : (a.retire sd i s).rested = a.rested.erase s := by
    ext x
    rw [(h.retire hs).mem_rested, Finset.mem_erase, h.mem_rested]
    exact (mem_retire h hs).trans and_comm
  rw [total, hr]
  exact Finset.sum_erase_add _ _ (h.mem_rested.2 (h.rests hs))

theorem Sep.total_take (h : a.Sep) (hs : a.Rests s) {amount : ℕ} (hle : amount ≤ (a.info s).qty) :
    (a.take s amount).total (idQty k) + (if (a.info s).id = k then amount else 0) =
      a.total (idQty k) := by
  have hr : (a.take s amount).rested = a.rested := by
    ext x
    rw [(h.take s amount).mem_rested, h.mem_rested, take_rests]
  have hmem := h.mem_rested.2 hs
  have hother : ∑ x ∈ a.rested.erase s, idQty k ((a.take s amount).info x) =
      ∑ x ∈ a.rested.erase s, idQty k (a.info x) :=
    Finset.sum_congr rfl fun x hx => by rw [take_info_of_ne (Finset.ne_of_mem_erase hx)]
  have hself : idQty k ((a.take s amount).info s) + (if (a.info s).id = k then amount else 0) =
      idQty k (a.info s) := by
    rw [take_info_self, idQty, idQty]
    simp only
    split_ifs <;> omega
  rw [total, total, hr, ← Finset.sum_erase_add _ _ hmem, ← Finset.sum_erase_add _ _ hmem, hother]
  omega

theorem Core.total_enter (h : a.Core) {free : List ℕ} (hf : a.free = s :: free) {id : OrderId}
    {qty : ℕ} (hset : a.baseSet = true) (hi : i < a.band) (hw : a.base + i < 2 ^ 32)
    (hqty : qty < 2 ^ 32) : ({ a with free }.enter id sd i qty s).total w =
      a.total w + w ⟨id, i, qty, sd⟩ := by
  have hc : ({ a with free }.enter id sd i qty s).Core := h.enter hf hset hi hw hqty
  have hsf : s ∈ a.free := hf ▸ List.mem_cons_self
  have hns : s ∉ a.rested := fun hm => h.not_free (h.mem_rested.1 hm) hsf
  have hne : ∀ x, x ≠ s → ({ a with free }.enter id sd i qty s).info x = a.info x := fun x hx =>
    enter_info_of_ne hx
  have hr : ({ a with free }.enter id sd i qty s).rested = insert s a.rested := by
    ext x
    rw [hc.mem_rested, Finset.mem_insert, h.mem_rested]
    by_cases hx : x = s
    · subst hx
      rw [Rests, enter_info_self]
      simpa using mem_enter.2 (.inr ⟨rfl, rfl, rfl⟩)
    · rw [Rests, hne x hx, mem_enter]
      simp [hx, Rests]
  rw [total, hr, Finset.sum_insert hns, enter_info_self, Nat.add_comm]
  congr 1
  exact Finset.sum_congr rfl fun x hx => by rw [hne x fun he => hns (he ▸ hx)]

/-- The quantity of the resting orders with id `k` that a move of the window drops. -/
def lost (a : Ladder) (newBase : ℕ) (k : OrderId) : ℕ :=
  a.total fun o => if a.Keeps newBase o.price then 0 else idQty k o

theorem Core.total_moveTo (h : a.Core) (newBase : ℕ) :
    (a.moveTo newBase).total (idQty k) + a.lost newBase k = a.total (idQty k) := by
  have hr : (a.moveTo newBase).rested = a.rested.filter fun s => a.Keeps newBase (a.info s).price := by
    ext x
    rw [(h.moveTo newBase).mem_rested, Finset.mem_filter, h.mem_rested]
    constructor
    · intro hx
      obtain ⟨hnr, i, hi, he, hs⟩ := mem_moveTo.1 hx
      refine ⟨h.rests hs, ?_⟩
      rw [h.price_eq hs]
      exact ⟨by omega, by omega⟩
    · rintro ⟨hx, hk⟩
      exact h.rests_moveTo hx hk
  have hlost : a.lost newBase k =
      ∑ s ∈ a.rested.filter (fun s => ¬ a.Keeps newBase (a.info s).price), idQty k (a.info s) := by
    rw [lost, total, Finset.sum_filter]
    exact Finset.sum_congr rfl fun x _ => by split_ifs <;> rfl
  rw [total, hr, hlost]
  exact Finset.sum_filter_add_sum_filter_not _ _ _

theorem Core.total_rebase (h : a.Core) (newBase : ℕ) :
    (a.rebase newBase).total (idQty k) + a.lost newBase k = a.total (idQty k) := by
  unfold rebase
  split_ifs with hb
  · -- the window stays, and every resting order is in it
    have hlost : a.lost newBase k = 0 := by
      rw [lost, total]
      exact Finset.sum_eq_zero fun s hs => if_pos (hb ▸ h.keeps_base (h.mem_rested.1 hs))
    rw [hlost, Nat.add_zero]
  · exact h.total_moveTo newBase

end Totals

section Match

/-- The quantity of the trades in which the order `k` is the maker. -/
def madeQty (trades : List Trade) (k : OrderId) : ℕ :=
  (trades.map fun t => if t.makerId = k then t.qty else 0).sum

/-- What a taker with `remaining` left did to the ladder and to the trades. -/
structure Traded (t : OrderId) (a : Ladder) (remaining : ℕ) (r : Ladder × ℕ) (new : List Trade) :
    Prop where
  trades : r.1.trades = a.trades ++ new
  taker : ∀ x ∈ new, x.takerId = t
  maker : ∀ x ∈ new, ∃ s, a.Rests s ∧ (a.info s).id = x.makerId
  ids : ∀ s, r.1.Rests s → a.Rests s ∧ (r.1.info s).id = (a.info s).id
  made : ∀ k, r.1.total (idQty k) + madeQty new k = a.total (idQty k)
  taken : r.2 + (new.map Trade.qty).sum = remaining

variable {t : OrderId} {remaining limit : ℕ} {r r' : Ladder × ℕ} {new new' : List Trade}

theorem Traded.refl (t : OrderId) (a : Ladder) (remaining : ℕ) :
    Traded t a remaining (a, remaining) [] where
  trades := (List.append_nil _).symm
  taker _ hx := absurd hx List.not_mem_nil
  maker _ hx := absurd hx List.not_mem_nil
  ids _ hs := ⟨hs, rfl⟩
  made _ := rfl
  taken := rfl

theorem Traded.trans (h : Traded t a remaining r new) (h' : Traded t r.1 r.2 r' new') :
    Traded t a remaining r' (new ++ new') where
  trades := by rw [h'.trades, h.trades, List.append_assoc]
  taker x hx := (List.mem_append.1 hx).elim (h.taker x) (h'.taker x)
  maker x hx := by
    rcases List.mem_append.1 hx with hx | hx
    · exact h.maker x hx
    · obtain ⟨s, hs, hid⟩ := h'.maker x hx
      exact ⟨s, (h.ids s hs).1, (h.ids s hs).2.symm.trans hid⟩
  ids s hs := ⟨(h.ids s (h'.ids s hs).1).1, (h'.ids s hs).2.trans (h.ids s (h'.ids s hs).1).2⟩
  made k := by
    rw [madeQty, List.map_append, List.sum_append, ← h.made k, ← h'.made k, madeQty, madeQty]
    omega
  taken := by
    have := h.taken
    have := h'.taken
    rw [List.map_append, List.sum_append]
    omega

/-- The cached top does not matter. -/
theorem Traded.congr (h : Traded t a remaining r new) {b : Ladder} (htr : b.trades = r.1.trades)
    (hcap : b.cap = r.1.cap) (hqueue : b.queue = r.1.queue) (hinfo : b.info = r.1.info) :
    Traded t a remaining (b, r.2) new where
  trades := htr.trans h.trades
  taker := h.taker
  maker := h.maker
  ids s hs := by
    rw [Rests, hqueue, hinfo] at hs
    exact hinfo ▸ h.ids s hs
  made k := (total_congr hcap hqueue hinfo).symm ▸ h.made k
  taken := h.taken

theorem fillOne_traded (h : a.Sep) (hs : s ∈ a.queue sd i) (hle : remaining ≤ (a.info s).qty) :
    Traded t a remaining (a.fillOne sd i t s remaining, 0)
      [⟨(a.info s).id, t, a.base + i, remaining⟩] := by
  have hr := h.rests hs
  have htake := fun k => h.total_take (k := k) hr hle
  have hinfo := (fillOne_fields a sd i s t remaining).2.2.2.2.2.1
  refine ⟨?_, ?_, ?_, ?_, fun k => ?_, by simp⟩
  · simp only [fillOne]
    split_ifs <;> rfl
  · intro x hx
    rw [List.mem_singleton.1 hx]
  · intro x hx
    rw [List.mem_singleton.1 hx]
    exact ⟨s, hr, rfl⟩
  · intro x hx
    obtain ⟨hid, hprice, hside, -⟩ := take_info (a := a) s remaining x
    have hx' : x ∈ (a.fillOne sd i t s remaining).queue (a.info x).side (a.info x).price := by
      rw [← hside, ← hprice, ← hinfo]
      exact hx
    rw [hinfo, hid]
    refine ⟨?_, rfl⟩
    rw [fillOne_queue] at hx'
    split_ifs at hx' with hc
    · rw [Rests, hc.1, hc.2.1]
      exact List.mem_of_mem_erase hx'
    · exact hx'
  · have hmade : madeQty [⟨(a.info s).id, t, a.base + i, remaining⟩] k =
        if (a.info s).id = k then remaining else 0 := by simp [madeQty]
    rw [hmade, ← htake k]
    congr 1
    have hsep := h.take s remaining
    simp only [fillOne]
    split_ifs with hz
    · -- the order is gone, and had no quantity left
      have hret := hsep.total_retire (w := idQty k) (i := i) hs
      have hzero : idQty k ((a.take s remaining).info s) = 0 := by
        rw [take_info_self, idQty]
        simp only [hz, ite_self]
      rw [hzero, Nat.add_zero] at hret
      exact (total_congr rfl rfl rfl).trans hret
    · exact total_congr rfl rfl rfl

theorem fill_traded (sd : Side) (i : ℕ) (t : OrderId) : ∀ (queue : List ℕ) (a : Ladder)
    (remaining : ℕ), a.queue sd i = queue → a.Core →
    ∃ new, Traded t a remaining (fill sd i t queue a remaining) new
  | [], a, remaining, _, _ => ⟨[], Traded.refl t a remaining⟩
  | s :: queue, a, remaining, hq, hc => by
    rw [fill]
    split_ifs with hr
    · exact ⟨[], hr ▸ Traded.refl t a 0⟩
    have hs : s ∈ a.queue sd i := hq ▸ List.mem_cons_self
    simp only
    by_cases hle : (a.info s).qty ≤ remaining
    · rw [Nat.min_eq_right hle]
      have hone := fillOne_traded (t := t) hc.toSep hs le_rfl
      have hq' : (a.fillOne sd i t s (a.info s).qty).queue sd i = queue := by
        rw [fillOne_queue, if_pos ⟨rfl, rfl, le_rfl⟩, hq, List.erase_cons_head]
      obtain ⟨new, hnew⟩ := fill_traded sd i t queue _ (remaining - (a.info s).qty) hq'
        (hc.fillOne hs t (a.info s).qty)
      have hone' : Traded t a remaining
          (a.fillOne sd i t s (a.info s).qty, remaining - (a.info s).qty) _ :=
        { hone with taken := by simpa using Nat.sub_add_cancel hle }
      exact ⟨_, hone'.trans hnew⟩
    · have hlt := Nat.lt_of_not_le hle
      rw [Nat.min_eq_left hlt.le, Nat.sub_self, fill_zero]
      exact ⟨_, fillOne_traded hc.toSep hs hlt.le⟩

theorem sweep_traded (sd : Side) (t : OrderId) (limit : ℕ) : ∀ (levels : List ℕ) (a : Ladder)
    (remaining : ℕ), a.Core → a.Pos →
    ∃ new, Traded t a remaining (sweep sd t limit levels a remaining) new
  | [], a, remaining, _, _ => ⟨[], Traded.refl t a remaining⟩
  | i :: levels, a, remaining, hc, hpos => by
    rw [sweep]
    split_ifs
    · exact ⟨[], Traded.refl t a remaining⟩
    obtain ⟨new, hnew⟩ := fill_traded sd i t _ a remaining rfl hc
    obtain ⟨h1, h2, -, -, -⟩ := fill_spec (t := t) (a.queue sd i) a remaining rfl hc hpos
    simp only
    set r := fill sd i t (a.queue sd i) a remaining
    split_ifs
    · have hnew' : Traded t a remaining (r.1.setTop sd (firstOf levels), r.2) new :=
        hnew.congr rfl rfl rfl rfl
      obtain ⟨new', hrest⟩ := sweep_traded sd t limit levels (r.1.setTop sd (firstOf levels)) r.2
        (h1.setTop sd _) h2
      exact ⟨new ++ new', hnew'.trans hrest⟩
    · exact ⟨new, hnew.congr rfl rfl rfl rfl⟩

end Match

section Ops

open OrderBook

/-- The quantity of the trades in which the order `k` is the taker. -/
def takenQty (trades : List Trade) (k : OrderId) : ℕ :=
  (trades.map fun t => if t.takerId = k then t.qty else 0).sum

def foundQty (a : Ladder) (id : OrderId) : ℕ :=
  if a.find id = NULL_IDX then 0 else (a.info (a.find id)).qty

def removedQty (a : Ladder) : Op → OrderId → ℕ
  | .cancelOrder id, k => if id = k then a.foundQty id else 0
  | .reduceOrderQty id cancelQty, k => if id = k then min cancelQty.toNat (a.foundQty id) else 0
  | _, _ => 0

def droppedQty (a : Ladder) : Op → OrderId → ℕ
  | .insertLimitOrder _ _ price _, k =>
    if a.Moves price.toNat then a.lost (centeredBase a.band price.toNat) k else 0
  | _, _ => 0

/-- What the matching of an order leaves of it. -/
def remaining (a : Ladder) (id : OrderId) (sd : Side) (price qty : ℕ) : ℕ :=
  let a := (a.anchor price).rebaseFor price
  if a.InWindow price then (a.matchAgainst sd.other id (price - a.base) qty).2 else qty

def unfilledQty (a : Ladder) : Op → OrderId → ℕ
  | .insertLimitOrder id sd price qty, k =>
    if id = k ∧ (a.insertLimitOrder id sd price.toNat qty.toNat).2 = false then
      a.remaining id sd price.toNat qty.toNat
    else 0
  | _, _ => 0

/-- The id of the taker in the trades of a call. -/
def takerOf : Op → OrderId
  | .insertLimitOrder id _ _ _ => id
  | _ => 0

/-- What a call does to the trades and to the quantity of every id but the takers' mark 0. -/
structure Booked (op : Op) (a a' : Ladder) (new : List Trade) : Prop where
  trades : a'.trades = a.trades ++ new
  taker : ∀ x ∈ new, x.takerId = takerOf op
  maker : ∀ x ∈ new, ∃ s, a.Rests s ∧ (a.info s).id = x.makerId
  ids : ∀ s, a'.Rests s → (∃ s', a.Rests s' ∧ (a.info s').id = (a'.info s).id) ∨
    op.insertedId = some (a'.info s).id
  balance : ∀ k ≠ 0, a'.total (idQty k) + madeQty new k + takenQty new k + a.removedQty op k +
    a.unfilledQty op k + a.droppedQty op k = a.total (idQty k) + insertedQty op k

theorem takenQty_eq {t : OrderId} {new : List Trade} (h : ∀ x ∈ new, x.takerId = t) (k : OrderId) :
    takenQty new k = if t = k then (new.map Trade.qty).sum else 0 := by
  have he : (new.map fun x => if x.takerId = k then x.qty else 0) =
      new.map fun x => if t = k then x.qty else 0 :=
    List.map_congr_left fun x hx => by rw [h x hx]
  rw [takenQty, he]
  split_ifs
  · rfl
  · simp

theorem refreshTop_fields (a : Ladder) (sd : Side) (i : ℕ) :
    (a.refreshTop sd i).cap = a.cap ∧ (a.refreshTop sd i).queue = a.queue ∧
      (a.refreshTop sd i).info = a.info ∧ (a.refreshTop sd i).trades = a.trades := by
  unfold refreshTop
  split_ifs <;> exact ⟨rfl, rfl, rfl, rfl⟩

/-- An order leaves the book by `cancel_order`. -/
theorem Wf.cancelAt_total (h : a.Wf) (hs : a.Rests s) :
    (a.cancelAt s).total w + w (a.info s) = a.total w := by
  obtain ⟨hcap, hqueue, hinfo, -⟩ := refreshTop_fields
    (a.retire (a.info s).side (a.info s).price s) (a.info s).side (a.info s).price
  rw [Ladder.cancelAt, total_congr hcap hqueue hinfo]
  exact h.toSep.total_retire hs

theorem Wf.cancelAt_rests (h : a.Wf) (hs : a.Rests s) {x : ℕ} (hx : (a.cancelAt s).Rests x) :
    a.Rests x ∧ ((a.cancelAt s).info x).id = (a.info x).id := by
  obtain ⟨-, hqueue, hinfo, -⟩ := refreshTop_fields
    (a.retire (a.info s).side (a.info s).price s) (a.info s).side (a.info s).price
  rw [Ladder.cancelAt, Rests, hqueue, hinfo] at hx
  rw [Ladder.cancelAt, hinfo]
  exact ⟨((mem_retire h.toSep hs).1 hx).1, rfl⟩

theorem takePartly_fields (a : Ladder) (s amount : ℕ) :
    (a.takePartly s amount).cap = a.cap ∧ (a.takePartly s amount).queue = a.queue ∧
      (a.takePartly s amount).info = (a.take s amount).info ∧
      (a.takePartly s amount).trades = a.trades := by
  unfold takePartly
  split_ifs <;> exact ⟨rfl, rfl, rfl, rfl⟩

theorem takePartly_rests {amount x : ℕ} (hx : (a.takePartly s amount).Rests x) :
    a.Rests x ∧ ((a.takePartly s amount).info x).id = (a.info x).id := by
  obtain ⟨-, hqueue, hinfo, -⟩ := takePartly_fields a s amount
  have hx' : (a.take s amount).Rests x := by
    rw [Rests, hqueue, hinfo] at hx
    exact hx
  rw [hinfo]
  exact ⟨take_rests.1 hx', (take_info s amount x).1⟩

theorem Sep.takePartly_total (h : a.Sep) (hs : a.Rests s) {amount : ℕ}
    (hle : amount ≤ (a.info s).qty) :
    (a.takePartly s amount).total (idQty k) + (if (a.info s).id = k then amount else 0) =
      a.total (idQty k) := by
  obtain ⟨hcap, hqueue, hinfo, -⟩ := takePartly_fields a s amount
  rw [← h.total_take hs hle]
  congr 1
  exact total_congr hcap hqueue hinfo

theorem Wf.foundQty_eq (h : a.Wf) {id : OrderId} (hid : a.find id ≠ NULL_IDX) :
    a.Rests (a.find id) ∧ (a.info (a.find id)).id = id ∧
      a.foundQty id = (a.info (a.find id)).qty :=
  ⟨(h.ids id hid).1, (h.ids id hid).2, if_neg hid⟩

theorem Wf.cancelOrder_booked (h : a.Wf) (id : OrderId) :
    Booked (.cancelOrder id) a (a.cancelOrder id) [] := by
  unfold Ladder.cancelOrder
  split_ifs with hid
  · refine ⟨(List.append_nil _).symm, by simp, by simp, fun s hs => .inl ⟨s, hs, rfl⟩, ?_⟩
    intro k _
    simp [removedQty, foundQty, hid, unfilledQty, droppedQty, insertedQty, madeQty, takenQty]
  · obtain ⟨hr, hinfo, hqty⟩ := h.foundQty_eq hid
    refine ⟨?_, by simp, by simp, fun s hs => ?_, fun k _ => ?_⟩
    · rw [Ladder.cancelAt, (refreshTop_fields _ _ _).2.2.2, List.append_nil]
      rfl
    · obtain ⟨h1, h2⟩ := h.cancelAt_rests hr hs
      exact .inl ⟨s, h1, h2.symm⟩
    · rw [← h.cancelAt_total hr, idQty, hinfo, removedQty, hqty]
      simp [unfilledQty, droppedQty, insertedQty, madeQty, takenQty]

theorem Wf.reduceOrderQty_booked (h : a.Wf) (id : OrderId) (cancelQty : UInt32) :
    Booked (.reduceOrderQty id cancelQty) a (a.reduceOrderQty id cancelQty.toNat).1 [] := by
  unfold Ladder.reduceOrderQty
  split_ifs with hid hle
  · refine ⟨(List.append_nil _).symm, by simp, by simp, fun s hs => .inl ⟨s, hs, rfl⟩, ?_⟩
    intro k _
    simp [removedQty, foundQty, hid, unfilledQty, droppedQty, insertedQty, madeQty, takenQty]
  · obtain ⟨hr, hinfo, hqty⟩ := h.foundQty_eq hid
    refine ⟨?_, by simp, by simp, fun s hs => ?_, fun k _ => ?_⟩
    · rw [Ladder.cancelAt, (refreshTop_fields _ _ _).2.2.2, List.append_nil]
      rfl
    · obtain ⟨h1, h2⟩ := h.cancelAt_rests hr hs
      exact .inl ⟨s, h1, h2.symm⟩
    · rw [← h.cancelAt_total hr, idQty, hinfo, removedQty, hqty, Nat.min_eq_right hle]
      simp [unfilledQty, droppedQty, insertedQty, madeQty, takenQty]
  · obtain ⟨hr, hinfo, hqty⟩ := h.foundQty_eq hid
    have hlt := (Nat.lt_of_not_le hle).le
    refine ⟨?_, by simp, by simp, fun s hs => ?_, fun k _ => ?_⟩
    · rw [(takePartly_fields a _ _).2.2.2, List.append_nil]
    · obtain ⟨h1, h2⟩ := takePartly_rests hs
      exact .inl ⟨s, h1, h2.symm⟩
    · rw [← h.toSep.takePartly_total hr hlt, hinfo, removedQty, hqty, Nat.min_eq_left hlt]
      simp [unfilledQty, droppedQty, insertedQty, madeQty, takenQty]

/-- A match whose taker is no order of the book, as a market order. -/
theorem Wf.match_booked (h : a.Wf) (sd : Side) (limit : ℕ) (qty : UInt32) : ∃ new,
    Booked (.processMarketOrder sd qty) a (a.matchAgainst sd.other 0 limit qty.toNat).1 new := by
  obtain ⟨new, hnew⟩ := sweep_traded sd.other 0 limit (a.candidates sd.other) a qty.toNat
    h.toCore h.pos
  refine ⟨new, hnew.trades, hnew.taker, hnew.maker, fun s hs => ?_, fun k hk => ?_⟩
  · obtain ⟨h1, h2⟩ := hnew.ids s hs
    exact .inl ⟨s, h1, h2.symm⟩
  · rw [takenQty_eq hnew.taker, if_neg hk.symm]
    exact hnew.made k

theorem Wf.processMarketOrder_booked (h : a.Wf) (sd : Side) (qty : UInt32) :
    ∃ new, Booked (.processMarketOrder sd qty) a (a.processMarketOrder sd qty.toNat) new :=
  h.match_booked sd _ qty

theorem Wf.executeOrder_booked (h : a.Wf) (id : OrderId) (fillQty : UInt32) :
    ∃ new, Booked (.executeOrder id fillQty) a (a.executeOrder id fillQty.toNat).1 new := by
  unfold Ladder.executeOrder
  split_ifs with hid
  · refine ⟨[], (List.append_nil _).symm, by simp, by simp, fun s hs => .inl ⟨s, hs, rfl⟩, ?_⟩
    intro k _
    simp [removedQty, unfilledQty, droppedQty, insertedQty, madeQty, takenQty]
  obtain ⟨hr, hinfo, -⟩ := h.foundQty_eq hid
  set s := a.find id
  set x : Trade := ⟨(a.info s).id, 0, a.base + (a.info s).price, min fillQty.toNat (a.info s).qty⟩
  have hw := h.trade x
  have htaken : ∀ k ≠ 0, takenQty [x] k = 0 := fun k hk => by
    rw [takenQty_eq (t := 0) (by simp [x]), if_neg hk.symm]
  have hmade : ∀ k, madeQty [x] k =
      if (a.info s).id = k then min fillQty.toNat (a.info s).qty else 0 := fun k => by
    simp [madeQty, x]
  have hmaker : ∀ y ∈ [x], ∃ s, a.Rests s ∧ (a.info s).id = y.makerId := fun y hy =>
    ⟨s, hr, by rw [List.mem_singleton.1 hy]⟩
  have htrade : ∀ w, (a.trade x).total w = a.total w := fun w => total_congr rfl rfl rfl
  unfold Ladder.executeAt
  simp only
  split_ifs with hle
  · rw [refreshTop_dropLive]
    refine ⟨[x], ?_, by simp [x, takerOf], hmaker, fun y hy => ?_, fun k hk => ?_⟩
    · exact (refreshTop_fields _ _ _).2.2.2
    · obtain ⟨h1, h2⟩ := hw.cancelAt_rests (s := s) hr hy
      exact .inl ⟨y, h1, h2.symm⟩
    · have htot := hw.cancelAt_total (s := s) (w := idQty k) hr
      rw [htrade] at htot
      have hmade' := hmade k
      rw [Nat.min_eq_right hle] at hmade'
      rw [htaken k hk, hmade']
      exact htot
  · have hlt := (Nat.lt_of_not_le hle).le
    refine ⟨[x], (takePartly_fields _ _ _).2.2.2, by simp [x, takerOf], hmaker, fun y hy => ?_,
      fun k hk => ?_⟩
    · obtain ⟨h1, h2⟩ := takePartly_rests hy
      exact .inl ⟨y, h1, h2.symm⟩
    · have htot := hw.toSep.takePartly_total (s := s) (k := k) hr hlt
      rw [htrade] at htot
      have hmade' := hmade k
      rw [Nat.min_eq_left hlt] at hmade'
      rw [htaken k hk, hmade']
      exact htot

/-- The window moves, or not, before an order is matched. -/
theorem Wf.rebaseFor_booked (h : a.Wf) (price : ℕ) :
    let a' := (a.anchor price).rebaseFor price
    a'.trades = a.trades ∧ (∀ s, a'.Rests s → a.Rests s ∧ (a'.info s).id = (a.info s).id) ∧
      ∀ k, a'.total (idQty k) +
        (if a.Moves price then a.lost (centeredBase a.band price) k else 0) =
          a.total (idQty k) := by
  unfold Ladder.anchor Ladder.rebaseFor
  simp only
  split_ifs with hset hc hm hm hc hm hm
  · refine ⟨(rebase_fields _).2.2.2, fun s hs => ?_, fun k => h.toCore.total_rebase _⟩
    unfold Ladder.rebase at hs ⊢
    split_ifs at hs ⊢
    · exact ⟨hs, rfl⟩
    · obtain ⟨-, i, -, -, hsq⟩ := mem_moveTo.1 hs
      exact ⟨h.rests hsq, rfl⟩
  · exact absurd ⟨hset, hc⟩ hm
  · exact absurd ⟨hm.2.1, hm.2.2⟩ hc
  · exact ⟨rfl, fun s hs => ⟨hs, rfl⟩, fun _ => rfl⟩
  · exact absurd hm.1 hset
  · exact absurd (centeredBase_inWindow h.band_pos price) hc.1
  · exact absurd hm.1 hset
  · exact ⟨rfl, fun s hs => ⟨hs, rfl⟩, fun _ => rfl⟩

variable {id : OrderId} {qty : ℕ}

theorem Core.rest_booked (h : a.Core) (id : OrderId) (sd : Side) (hset : a.baseSet = true)
    (hi : i < a.band)
    (hw : a.base + i < 2 ^ 32) (hqty : qty < 2 ^ 32) :
    (a.rest id sd i qty).1.trades = a.trades ∧
    (∀ s, (a.rest id sd i qty).1.Rests s → (a.Rests s ∧ ((a.rest id sd i qty).1.info s).id =
      (a.info s).id) ∨ ((a.rest id sd i qty).1.info s).id = id) ∧
    ∀ k, (a.rest id sd i qty).1.total (idQty k) = a.total (idQty k) +
      if id = k ∧ (a.rest id sd i qty).2 = true then qty else 0 := by
  rw [Ladder.rest]
  split
  · exact ⟨rfl, fun s hs => .inl ⟨hs, rfl⟩, fun k => by simp⟩
  rename_i s free hf
  simp only
  set a' := ({ a with free } : Ladder).enter id sd i qty s
  set b := if sd.Better i (a'.tob.best sd) then a'.setTop sd i else a'
  have hb : b.cap = a'.cap ∧ b.queue = a'.queue ∧ b.info = a'.info ∧ b.trades = a.trades := by
    simp only [b]
    split_ifs <;> exact ⟨rfl, rfl, rfl, rfl⟩
  obtain ⟨hcap, hqueue, hinfo, htr⟩ := hb
  refine ⟨htr, fun x hx => ?_, fun k => ?_⟩
  · rw [Rests, hqueue, hinfo] at hx
    rw [hinfo]
    by_cases hxs : x = s
    · subst hxs
      exact .inr (congrArg Resting.id enter_info_self)
    · have hne : a'.info x = a.info x := enter_info_of_ne hxs
      rw [hne] at hx ⊢
      exact .inl ⟨(mem_enter.1 hx).resolve_right fun hc => hxs hc.1, rfl⟩
  · rw [total_congr hcap hqueue hinfo, h.total_enter hf hset hi hw hqty, idQty]
    simp

theorem Wf.insertLimitOrder_booked (h : a.Wf) (id : OrderId) (sd : Side) (price qty : UInt32) :
    ∃ new, Booked (.insertLimitOrder id sd price qty) a
      (a.insertLimitOrder id sd price.toNat qty.toNat).1 new := by
  obtain ⟨htr, hids, hdrop⟩ := h.rebaseFor_booked price.toNat
  obtain ⟨hwa, hset⟩ := h.anchor price.toNat
  have hw1 := hwa.rebaseFor price.toNat
  have hset1 := (rebaseFor_fields (a := a.anchor price.toNat) price.toNat).1.trans hset
  have hprice := price.toNat_lt
  have hqty := qty.toNat_lt
  have hins : ∀ k, insertedQty (.insertLimitOrder id sd price qty) k =
      if id = k then qty.toNat else 0 := fun _ => rfl
  have hrem : ∀ k, a.removedQty (.insertLimitOrder id sd price qty) k = 0 := fun _ => rfl
  have hdropped : ∀ k, a.droppedQty (.insertLimitOrder id sd price qty) k =
      if a.Moves price.toNat then a.lost (centeredBase a.band price.toNat) k else 0 := fun _ => rfl
  have hun : ∀ k, a.unfilledQty (.insertLimitOrder id sd price qty) k =
      if id = k ∧ (a.insertLimitOrder id sd price.toNat qty.toNat).2 = false then
        a.remaining id sd price.toNat qty.toNat else 0 := fun _ => rfl
  unfold Ladder.insertLimitOrder at hun ⊢
  unfold Ladder.remaining at hun
  simp only at htr hids hdrop hw1 hset1 hun ⊢
  set a1 := (a.anchor price.toNat).rebaseFor price.toNat
  by_cases hin : a1.InWindow price.toNat
  · simp only [if_pos hin] at hun ⊢
    unfold Ladder.place at hun ⊢
    simp only at hun ⊢
    obtain ⟨new, hnew⟩ := sweep_traded sd.other id (price.toNat - a1.base)
      (a1.candidates sd.other) a1 qty.toNat hw1.toCore hw1.pos
    have hsw := hw1.match_spec sd.other id (price.toNat - a1.base) qty.toNat
    change Traded id a1 qty.toNat
      (a1.matchAgainst sd.other id (price.toNat - a1.base) qty.toNat) new at hnew
    set r := a1.matchAgainst sd.other id (price.toNat - a1.base) qty.toNat
    have htaken := takenQty_eq hnew.taker
    have hmaker : ∀ x ∈ new, ∃ s, a.Rests s ∧ (a.info s).id = x.makerId := fun x hx => by
      obtain ⟨s, hs, hid⟩ := hnew.maker x hx
      exact ⟨s, (hids s hs).1, (hids s hs).2.symm.trans hid⟩
    have hsum := hnew.taken
    obtain ⟨hin1, hin2⟩ := hin
    obtain ⟨hrtr, hrids, hrtot⟩ := hsw.core.rest_booked id sd (i := price.toNat - a1.base)
      (hsw.frame.baseSet.trans hset1) (by rw [hsw.frame.band]; omega) (by rw [hsw.frame.base]; omega)
      (show r.2 < 2 ^ 32 by omega)
    by_cases hr0 : r.2 = 0
    · simp only [if_pos hr0] at hun ⊢
      refine ⟨new, hnew.trades.trans (htr ▸ rfl), hnew.taker, hmaker, fun s hs => ?_, fun k _ => ?_⟩
      · obtain ⟨h1, h2⟩ := hnew.ids s hs
        exact .inl ⟨s, (hids s h1).1, ((hids s h1).2.symm.trans h2.symm)⟩
      · have h1 := hnew.made k
        have h2 := hdrop k
        rw [htaken, hun, hrem, hdropped, hins]
        split_ifs at * <;> omega
    · simp only [if_neg hr0] at hun ⊢
      refine ⟨new, hrtr.trans (hnew.trades.trans (htr ▸ rfl)), hnew.taker, hmaker, fun s hs => ?_,
        fun k _ => ?_⟩
      · rcases hrids s hs with ⟨h0, hid⟩ | hid
        · obtain ⟨h1, h2⟩ := hnew.ids s h0
          exact .inl ⟨s, (hids s h1).1, (hids s h1).2.symm.trans (h2.symm.trans hid.symm)⟩
        · exact .inr (congrArg some hid.symm)
      · have h1 := hnew.made k
        have h2 := hdrop k
        have h3 := hrtot k
        rw [htaken, hun, hrem, hdropped, hins, h3]
        rcases (r.1.rest id sd (price.toNat - a1.base) r.2).2 <;> by_cases hk : id = k <;>
          simp only [hk, true_and, false_and, if_true, if_false, reduceCtorEq] <;> omega
  · simp only [if_neg hin] at hun ⊢
    refine ⟨[], htr.trans (List.append_nil _).symm, by simp, by simp, fun s hs => ?_, fun k _ => ?_⟩
    · obtain ⟨h1, h2⟩ := hids s hs
      exact .inl ⟨s, h1, h2.symm⟩
    · have h2 := hdrop k
      have hm : madeQty [] k = 0 := rfl
      have ht : takenQty [] k = 0 := rfl
      rw [hm, ht, hun, hrem, hdropped, hins]
      simp only [and_true]
      omega

/-- Every call keeps the ledger. -/
theorem Wf.step_booked (h : a.Wf) : ∀ op : Op, ∃ new, Booked op a (a.step op).1 new
  | .insertLimitOrder id sd price qty => h.insertLimitOrder_booked id sd price qty
  | .cancelOrder id => ⟨[], h.cancelOrder_booked id⟩
  | .processMarketOrder sd qty => h.processMarketOrder_booked sd qty
  | .executeOrder id fillQty => h.executeOrder_booked id fillQty
  | .reduceOrderQty id cancelQty => ⟨[], h.reduceOrderQty_booked id cancelQty⟩

end Ops

end Ladder

end Nanomatch
