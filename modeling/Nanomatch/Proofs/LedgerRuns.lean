import Nanomatch.Proofs.ExactRuns
import Nanomatch.Proofs.LadderLedger

/-!
# No quantity is lost but by a move of the window

The amounts of the ledger, read off a book, are those of the ladder it represents, and every call
keeps the balance. Over a run with fresh ids, what an order was inserted with is the sum of the
rest. A move of the window is the one way for quantity to go without a trace.
-/

namespace Nanomatch

open OrderBook Ladder

variable {M : Type} [IdMapOps M] {L : IdMapLaws M} {c : OrderBook M} {a : Ladder} {k : OrderId}

section Amounts

/-- The slots of a side's orders, level by level. -/
def Ladder.slotList (a : Ladder) (sd : Side) : List ℕ := (List.range a.band).flatMap (a.queue sd)

theorem Ladder.Sep.slotList_nodup (h : a.Sep) (sd : Side) : (a.slotList sd).Nodup := by
  refine List.nodup_flatMap.2 ⟨fun i _ => h.nodup sd i, List.nodup_range.imp fun hij => ?_⟩
  intro x hx hx'
  exact hij (h.unique hx hx').2.symm

theorem Ladder.Sep.mem_slotList (h : a.Sep) {sd : Side} {s : ℕ} :
    s ∈ a.slotList sd ↔ a.Rests s ∧ (a.info s).side = sd := by
  simp only [slotList, List.mem_flatMap, List.mem_range]
  constructor
  · rintro ⟨i, -, hs⟩
    exact ⟨h.rests hs, h.side_eq hs⟩
  · rintro ⟨hs, rfl⟩
    exact ⟨_, h.level_lt hs, hs⟩

/-- A total, as a sum over the two sides' levels. -/
theorem Ladder.Sep.total_eq (h : a.Sep) (w : Resting → ℕ) :
    a.total w = ((a.slotList .BUY ++ a.slotList .SELL).map fun s => w (a.info s)).sum := by
  have hnd : (a.slotList .BUY ++ a.slotList .SELL).Nodup := by
    refine List.nodup_append.2 ⟨h.slotList_nodup _, h.slotList_nodup _, ?_⟩
    rintro x hx y hy rfl
    exact Side.noConfusion ((h.mem_slotList.1 hx).2.symm.trans (h.mem_slotList.1 hy).2)
  have hset : (a.slotList .BUY ++ a.slotList .SELL).toFinset = a.rested := by
    ext s
    rw [List.mem_toFinset, List.mem_append, h.mem_slotList, h.mem_slotList, h.mem_rested]
    cases (a.info s).side <;> simp
  rw [total, ← hset, List.sum_toFinset _ hnd]

theorem Rep.resting_map (h : Rep L c a) (hs : a.Sep) (sd : Side) :
    (c.resting sd).map Order.resting = (a.slotList sd).map a.info := by
  rw [resting, slotList, h.levels, List.map_flatMap, List.map_flatMap]
  exact List.flatMap_congr fun i hi => h.orders_map hs sd (List.mem_range.1 hi)

theorem Rep.sum_resting (h : Rep L c a) (hs : a.Sep) (w : Resting → ℕ) :
    ((c.resting .BUY ++ c.resting .SELL).map fun o => w o.resting).sum = a.total w := by
  have hmap : (c.resting .BUY ++ c.resting .SELL).map Order.resting =
      (a.slotList .BUY ++ a.slotList .SELL).map a.info := by
    rw [List.map_append, List.map_append, h.resting_map hs, h.resting_map hs]
  have hsum := congrArg (fun l => (l.map w).sum) hmap
  simp only [List.map_map] at hsum
  exact hsum.trans (hs.total_eq w).symm

theorem sum_filter_map {α : Type} (p : α → Prop) [DecidablePred p] (f : α → ℕ) (l : List α) :
    ((l.filter p).map f).sum = (l.map fun x => if p x then f x else 0).sum := by
  induction l with
  | nil => rfl
  | cons x l ih => by_cases hx : p x <;> simp [hx, ih]

theorem Rep.restingQty_eq (h : Rep L c a) (hs : a.Sep) (k : OrderId) :
    c.restingQty k = a.total (idQty k) := by
  rw [restingQty, qtyWith, sum_filter_map]
  exact h.sum_resting hs (idQty k)

theorem Rep.droppedQty_eq (h : Rep L c a) (hs : a.Sep) (k : OrderId) : ∀ op : Op,
    c.droppedQty op k = a.droppedQty op k
  | .insertLimitOrder _ _ price _ => by
    rw [OrderBook.droppedQty, Ladder.droppedQty]
    refine if_congr (h.moves_iff price.toNat) ?_ rfl
    rw [h.size, lost, qtyWith, sum_filter_map, sum_filter_map, ← h.sum_resting hs]
    refine congrArg List.sum (List.map_congr_left fun o _ => ?_)
    have hk : c.Keeps (centeredBase a.band price.toNat) (c.absPrice o) ↔
        a.Keeps (centeredBase a.band price.toNat) o.price := by
      rw [OrderBook.Keeps, Ladder.Keeps, h.size, absPrice, h.base]
    simp only [hk, ite_not]
    rfl
  | .cancelOrder _ => rfl
  | .processMarketOrder _ _ => rfl
  | .executeOrder _ _ => rfl
  | .reduceOrderQty _ _ => rfl

theorem Rep.foundQty_eq (h : Rep L c a) (hw : a.Wf) (hg : L.Good a.calls) (id : OrderId) :
    c.foundQty id = a.foundQty id := by
  have hf : c.findId id = some (a.find id) := L.find h.sync hg id
  rw [OrderBook.foundQty, hf, Ladder.foundQty]
  simp only
  split_ifs with hid
  · rfl
  · exact congrArg Resting.qty (h.data _ _ _ (hw.ids id hid).1)

theorem Rep.removedQty_eq (h : Rep L c a) (hw : a.Wf) (hg : L.Good a.calls) (k : OrderId) :
    ∀ op : Op, c.removedQty op k = a.removedQty op k
  | .insertLimitOrder _ _ _ _ => rfl
  | .cancelOrder id => by rw [OrderBook.removedQty, Ladder.removedQty, h.foundQty_eq hw hg]
  | .processMarketOrder _ _ => rfl
  | .executeOrder _ _ => rfl
  | .reduceOrderQty id _ => by rw [OrderBook.removedQty, Ladder.removedQty, h.foundQty_eq hw hg]

end Amounts

section Finite

variable {c : OrderBook FinMap}

theorem Rep.remaining_eq (h : Rep finLaws c a) (hw : a.Wf) {id : OrderId} {sd : Side} {price qty : ℕ} :
    c.remaining id sd price qty = some (a.remaining id sd price qty) := by
  obtain ⟨hw1, -⟩ := hw.anchor price
  have hw2 := hw1.rebaseFor price
  obtain ⟨c2, hc2, h2⟩ := (h.anchor hw price).rebaseFor hw1 price trivial
  have hin := h2.inBand_iff price
  unfold Ladder.remaining
  simp only
  set a2 := (a.anchor price).rebaseFor price
  refine bind_some hc2 ?_
  by_cases hwin : a2.InWindow price
  · rw [if_pos hwin, if_neg (not_not.2 (hin.2 hwin))]
    obtain ⟨hwin1, hwin2⟩ := hwin
    have hbase : c2.base = a2.base := h2.base
    have hidx : (c2.toIdx price).toNat = price - a2.base := by
      simp only [toIdx, hbase]
      omega
    obtain ⟨c3, hc3, -⟩ := h2.matchOther hw2 id sd qty
      (i := price - a2.base) (by omega) trivial
    simp only [hidx]
    exact bind_some hc3 rfl
  · rw [if_neg hwin]
    exact if_pos (mt hin.1 hwin)

theorem Rep.unfilledQty_eq (h : Rep finLaws c a) (hw : a.Wf) (k : OrderId) : ∀ op : Op,
    c.unfilledQty op k = a.unfilledQty op k
  | .insertLimitOrder id sd price qty => by
    obtain ⟨c', hc', -⟩ := h.step hw (.insertLimitOrder id sd price qty) trivial
    have hstep : c.insertLimitOrder id sd price.toNat qty.toNat =
        some (c', (a.insertLimitOrder id sd price.toNat qty.toNat).2) := hc'
    rw [OrderBook.unfilledQty, Ladder.unfilledQty, hstep, h.remaining_eq hw]
    simp
  | .cancelOrder _ => rfl
  | .processMarketOrder _ _ => rfl
  | .executeOrder _ _ => rfl
  | .reduceOrderQty _ _ => rfl

end Finite

section Trades

theorem tradedQty_append (l new : List Trade) (k : OrderId) :
    tradedQty (l ++ new) k = tradedQty l k + tradedQty new k := by
  simp [tradedQty, List.filter_append]

/-- Trades of an order with itself apart, it is maker or taker. -/
theorem tradedQty_eq : ∀ {new : List Trade}, (∀ x ∈ new, ¬ (x.makerId = k ∧ x.takerId = k)) →
    tradedQty new k = madeQty new k + takenQty new k
  | [], _ => rfl
  | x :: l, h => by
    have ih := tradedQty_eq fun y hy => h y (List.mem_cons_of_mem x hy)
    have hx := h x List.mem_cons_self
    simp only [tradedQty, madeQty, takenQty] at ih ⊢
    rw [List.filter_cons, List.map_cons, List.map_cons, List.sum_cons, List.sum_cons]
    by_cases hm : x.makerId = k <;> by_cases ht : x.takerId = k <;> simp_all <;> omega

/-- The book's part of one call's entry in the ledger. -/
theorem Rep.step_ledger {c : OrderBook FinMap} (h : Rep finLaws c a) (hw : a.Wf) (op : Op)
    (hk : k ≠ 0) (hself : takerOf op = k → ∀ s, a.Rests s → (a.info s).id ≠ k) :
    ∃ c', c.step op = some (c', (a.step op).2) ∧ Rep finLaws c' (a.step op).1 ∧
      tradedQty c.logger k + c.restingQty k + insertedQty op k =
        tradedQty c'.logger k + c.removedQty op k + c'.restingQty k + c.unfilledQty op k +
          c.droppedQty op k := by
  obtain ⟨c', hc', hrep⟩ := h.step hw op trivial
  obtain ⟨new, hnew⟩ := hw.step_booked op
  have hno : ∀ x ∈ new, ¬ (x.makerId = k ∧ x.takerId = k) := by
    rintro x hx ⟨hm, ht⟩
    obtain ⟨s, hs, hid⟩ := hnew.maker x hx
    exact hself ((hnew.taker x hx).symm.trans ht) s hs (hid.trans hm)
  have hbal := hnew.balance k hk
  refine ⟨c', hc', hrep, ?_⟩
  rw [hrep.logger, hnew.trades, ← h.logger, tradedQty_append, tradedQty_eq hno,
    h.restingQty_eq hw.toSep, hrep.restingQty_eq (hw.step op).toSep, h.removedQty_eq hw trivial,
    h.unfilledQty_eq hw, h.droppedQty_eq hw.toSep]
  omega

end Trades

section Runs

/-- The ledger of a run whose ids are none of those that rest. -/
theorem Rep.ledger_run (hk : k ≠ 0) : ∀ (ops : List Op) {c : OrderBook FinMap} {a : Ladder},
    Rep finLaws c a → a.Wf → (ops.filterMap Op.insertedId).Nodup →
    (∀ s, a.Rests s → (a.info s).id ∉ ops.filterMap Op.insertedId) →
    ∃ c', c.run ops = some c' ∧
      tradedQty c.logger k + c.restingQty k + (ops.map (insertedQty · k)).sum =
        tradedQty c'.logger k + c.sumAlong (removedQty · · k) ops + c'.restingQty k +
          c.sumAlong (unfilledQty · · k) ops + c.sumAlong (OrderBook.droppedQty · · k) ops
  | [], c, a, _, _, _, _ => ⟨c, rfl, rfl⟩
  | op :: ops, c, a, h, hw, hnd, hrest => by
    have hself : takerOf op = k → ∀ s, a.Rests s → (a.info s).id ≠ k := by
      rintro ht s hs rfl
      cases op with
      | insertLimitOrder id sd price qty =>
        exact hrest s hs (List.mem_filterMap.2 ⟨_, List.mem_cons_self, congrArg some ht⟩)
      | _ => exact hk ht.symm
    obtain ⟨c1, hc1, hr1, hbal⟩ := h.step_ledger hw op hk hself
    obtain ⟨new, hnew⟩ := hw.step_booked op
    have hnd' : (ops.filterMap Op.insertedId).Nodup := by
      rcases hop : op.insertedId with _ | id
      · rwa [List.filterMap_cons_none hop] at hnd
      · rw [List.filterMap_cons_some hop] at hnd
        exact (List.nodup_cons.1 hnd).2
    have hrest' : ∀ s, (a.step op).1.Rests s →
        ((a.step op).1.info s).id ∉ ops.filterMap Op.insertedId := by
      intro s hs hmem
      rcases hnew.ids s hs with ⟨s', hs', hid⟩ | hid
      · refine hrest s' hs' (hid ▸ ?_)
        rcases hop : op.insertedId with _ | id
        · rwa [List.filterMap_cons_none hop]
        · rw [List.filterMap_cons_some hop]
          exact List.mem_cons_of_mem id hmem
      · rw [List.filterMap_cons_some hid] at hnd
        exact (List.nodup_cons.1 hnd).1 hmem
    obtain ⟨c2, hc2, hrun⟩ := Rep.ledger_run hk ops hr1 (hw.step op) hnd' hrest'
    refine ⟨c2, bind_some hc1 hc2, ?_⟩
    simp only [sumAlong, hc1, List.map_cons, List.sum_cons]
    omega

/-- The quantity that an id is inserted with, when no two inserts share an id. -/
theorem sum_insertedQty {id : OrderId} {sd : Side} {price qty : UInt32} : ∀ {ops : List Op},
    (ops.filterMap Op.insertedId).Nodup → .insertLimitOrder id sd price qty ∈ ops →
    (ops.map (insertedQty · id)).sum = qty.toNat
  | [], _, hm => absurd hm List.not_mem_nil
  | op :: ops, hnd, hm => by
    have hzero : ∀ l : List Op, id ∉ l.filterMap Op.insertedId →
        (l.map (insertedQty · id)).sum = 0 := fun l hl =>
      List.sum_eq_zero fun x hx => by
        obtain ⟨op, hop, rfl⟩ := List.mem_map.1 hx
        cases op with
        | insertLimitOrder id' sd' price' qty' =>
          exact if_neg fun he => hl (List.mem_filterMap.2 ⟨_, hop, congrArg some he⟩)
        | _ => rfl
    rw [List.map_cons, List.sum_cons]
    rcases List.mem_cons.1 hm with rfl | hm
    · have hnd' : (id :: ops.filterMap Op.insertedId).Nodup := hnd
      rw [hzero ops (List.nodup_cons.1 hnd').1]
      simp [insertedQty]
    · have hid : id ∈ ops.filterMap Op.insertedId := List.mem_filterMap.2 ⟨_, hm, rfl⟩
      rcases hop : op.insertedId with _ | id'
      · rw [List.filterMap_cons_none hop] at hnd
        have h0 : insertedQty op id = 0 := by cases op <;> simp [Op.insertedId] at hop <;> rfl
        rw [h0, Nat.zero_add]
        exact sum_insertedQty hnd hm
      · rw [List.filterMap_cons_some hop] at hnd
        obtain ⟨hnid, hnd⟩ := List.nodup_cons.1 hnd
        have h0 : insertedQty op id = 0 := by
          cases op with
          | insertLimitOrder id'' sd' price' qty' =>
            refine if_neg fun he => hnid ?_
            obtain rfl : id'' = id' := Option.some.inj hop
            rwa [he]
          | _ => rfl
        rw [h0, Nat.zero_add]
        exact sum_insertedQty hnd hm

variable {band cap : ℕ} (hband : 0 < band) (hband' : band < 2 ^ 32) (hcap : 0 < cap)
  (hcap' : cap < 2 ^ 32)

include hband hband' hcap hcap'

/-- The inserted quantity of every order is traded, removed, resting, unfilled or dropped with a
level that a move of the window left behind, and no insert takes quantity from another order but
by trades or by such a move. -/
theorem run_ledger (ops : List Op) (hfresh : FreshIds ops) : ∃ c, (fresh band cap).run ops = some c ∧
    (∀ id side price qty, .insertLimitOrder id side price qty ∈ ops →
      qty.toNat = tradedQty c.logger id + (fresh band cap).sumAlong (removedQty · · id) ops +
        c.restingQty id + (fresh band cap).sumAlong (unfilledQty · · id) ops +
        (fresh band cap).sumAlong (OrderBook.droppedQty · · id) ops) ∧
    ∀ id side price qty, ∀ k ≠ 0, k ≠ id → ∃ c' r,
      c.step (.insertLimitOrder id side price qty) = some (c', r) ∧
        c.restingQty k + tradedQty c.logger k = c'.restingQty k + tradedQty c'.logger k +
          c.droppedQty (.insertLimitOrder id side price qty) k := by
  obtain ⟨hnd, hzero⟩ := hfresh
  have hrep : Rep finLaws (OrderBook.new band cap FinMap.init) (Ladder.new band cap) :=
    rep_new hcap rfl
  have hw := new_wf hband hband' hcap'
  obtain ⟨c, hc, hr, hwc⟩ := run_fresh hband hband' hcap hcap' ops
  refine ⟨c, hc, fun id side price qty hm => ?_, fun id side price qty k hk hne => ?_⟩
  · have hid : id ≠ 0 := fun h0 => hzero (h0 ▸ List.mem_filterMap.2 ⟨_, hm, rfl⟩)
    obtain ⟨c', hc', hbal⟩ := hrep.ledger_run hid ops hw hnd fun s hs => absurd hs List.not_mem_nil
    obtain rfl : c = c' := Option.some.inj (hc.symm.trans hc')
    rw [sum_insertedQty hnd hm] at hbal
    have hrest : (OrderBook.new band cap FinMap.init).restingQty id = 0 := by
      rw [hrep.restingQty_eq hw.toSep]
      exact Finset.sum_eq_zero fun s hs => absurd ((hw.mem_rested).1 hs) List.not_mem_nil
    have htraded : tradedQty (OrderBook.new band cap FinMap.init).logger id = 0 := rfl
    rw [hrest, htraded] at hbal
    rw [fresh]
    omega
  · obtain ⟨c', hc', -, hbal⟩ := hr.step_ledger hwc (.insertLimitOrder id side price qty) hk
      fun ht => absurd ht.symm hne
    have hins : insertedQty (.insertLimitOrder id side price qty) k = 0 := if_neg (Ne.symm hne)
    have hun : c.unfilledQty (.insertLimitOrder id side price qty) k = 0 :=
      if_neg fun he => hne he.1.symm
    have hrem : c.removedQty (.insertLimitOrder id side price qty) k = 0 := rfl
    exact ⟨c', _, hc', by omega⟩

end Runs

section Examples

/-- An order is filled in part, reduced and filled by the feed, and one is left unfilled. -/
def settledOps : List Op := [.insertLimitOrder 1 .BUY 6 9, .insertLimitOrder 2 .SELL 6 4,
  .reduceOrderQty 1 2, .executeOrder 1 1, .insertLimitOrder 3 .BUY 5 6, .insertLimitOrder 4 .BUY 4 8]

theorem run_ledger_settled : ∃ c, (fresh 10 2).run settledOps = some c ∧
    (∀ id side price qty, .insertLimitOrder id side price qty ∈ settledOps →
      qty.toNat = tradedQty c.logger id + (fresh 10 2).sumAlong (removedQty · · id) settledOps +
        c.restingQty id + (fresh 10 2).sumAlong (unfilledQty · · id) settledOps +
        (fresh 10 2).sumAlong (OrderBook.droppedQty · · id) settledOps) ∧
    ∀ id side price qty, ∀ k ≠ 0, k ≠ id → ∃ c' r,
      c.step (.insertLimitOrder id side price qty) = some (c', r) ∧
        c.restingQty k + tradedQty c.logger k = c'.restingQty k + tradedQty c'.logger k +
          c.droppedQty (.insertLimitOrder id side price qty) k :=
  run_ledger (by decide) (by decide) (by decide) (by decide) settledOps (by decide)

/-- The second order moves the window away from the first one. -/
def droppingOps : List Op := [.insertLimitOrder 1 .BUY 100 5, .insertLimitOrder 2 .BUY 500 3]

theorem not_forall_run_ledger : ¬ ∀ band cap, 0 < band → band < 2 ^ 32 → 0 < cap → cap < 2 ^ 32 →
    ∀ ops, FreshIds ops → (∀ id side price qty, .insertLimitOrder id side price qty ∈ ops → 0 < qty) →
    ∃ c, (fresh band cap).run ops = some c ∧
      ∀ id side price qty, .insertLimitOrder id side price qty ∈ ops →
        qty.toNat = tradedQty c.logger id + (fresh band cap).sumAlong (removedQty · · id) ops +
          c.restingQty id + (fresh band cap).sumAlong (unfilledQty · · id) ops := by
  intro h
  have hpos : ∀ id side price qty, .insertLimitOrder id side price qty ∈ droppingOps → 0 < qty := by
    intro id side price qty hm
    simp only [droppingOps, List.mem_cons, OrderBook.Op.insertLimitOrder.injEq, List.not_mem_nil,
      or_false] at hm
    rcases hm with ⟨-, -, -, rfl⟩ | ⟨-, -, -, rfl⟩ <;> decide
  obtain ⟨c, hrun, hled⟩ := h 10 4 (by decide) (by decide) (by decide) (by decide) droppingOps
    (by decide) hpos
  have hval : ((fresh 10 4).run droppingOps).map (fun c => (tradedQty c.logger 1, c.restingQty 1))
      = some (0, 0) := by
    decide +kernel
  have hremoved : (fresh 10 4).sumAlong (removedQty · · 1) droppingOps = 0 := by decide +kernel
  have hunfilled : (fresh 10 4).sumAlong (unfilledQty · · 1) droppingOps = 0 := by decide +kernel
  rw [hrun, Option.map_some, Option.some.injEq, Prod.mk.injEq] at hval
  have h1 := hled 1 .BUY 100 5 List.mem_cons_self
  rw [hval.1, hval.2, hremoved, hunfilled] at h1
  exact absurd h1 (by decide)

end Examples

end Nanomatch
