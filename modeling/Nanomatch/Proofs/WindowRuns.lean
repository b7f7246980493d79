import Nanomatch.Window
import Nanomatch.Proofs.LadderCached
import Nanomatch.Proofs.LedgerRuns

/-!
# A move of the window

The queue at an absolute price stays when the window moves over it, and an order that falls out of
the window leaves its id and its slot. The live count drops by the number of these orders, if it is
that large.
-/

namespace Nanomatch

open OrderBook Ladder

variable {M : Type} [IdMapOps M] {L : IdMapLaws M} {c : OrderBook M} {a : Ladder} {sd : Side}
  {i s price newBase : ℕ}

section Ladder

/-- The queue at the absolute price `price`. -/
def Ladder.queueAt (a : Ladder) (sd : Side) (price : ℕ) : List ℕ :=
  if a.base ≤ price ∧ price < a.base + a.band then a.queue sd (price - a.base) else []

theorem Ladder.queueAt_add (hi : i < a.band) : a.queueAt sd (a.base + i) = a.queue sd i := by
  unfold queueAt
  rw [if_pos (by omega), Nat.add_sub_cancel_left]

theorem Ladder.queueAt_new (band cap : ℕ) (sd : Side) (price : ℕ) :
    (Ladder.new band cap).queueAt sd price = [] := by
  unfold queueAt
  split_ifs <;> rfl

theorem Ladder.mem_queueAt (hs : s ∈ a.queueAt sd price) : ∃ i < a.band, price = a.base + i ∧
    s ∈ a.queue sd i := by
  unfold queueAt at hs
  split_ifs at hs with hin
  · obtain ⟨h1, h2⟩ := hin
    exact ⟨price - a.base, by omega, by omega, hs⟩
  · exact absurd hs List.not_mem_nil

/-- The queues at the absolute prices of the new window stay. -/
theorem Ladder.queueAt_moveTo (a : Ladder) (newBase : ℕ) (sd : Side) (price : ℕ) :
    (a.moveTo newBase).queueAt sd price =
      if newBase ≤ price ∧ price < newBase + a.band then a.queueAt sd price else [] := by
  obtain ⟨hband, -⟩ := moveTo_fields a newBase
  have hbase : (a.moveTo newBase).base = newBase := rfl
  unfold queueAt
  rw [hband, hbase]
  split_ifs with hnew
  · rw [moveTo_queue (by omega), shifted, if_pos (by omega)]
    congr 1
    omega
  · rw [moveTo_queue (by omega), shifted, if_neg (by omega)]
  all_goals rfl

theorem Ladder.queueAt_rebase (a : Ladder) (newBase : ℕ) (sd : Side) (price : ℕ) :
    (a.rebase newBase).queueAt sd price =
      if newBase ≤ price ∧ price < newBase + a.band then a.queueAt sd price else [] := by
  unfold Ladder.rebase
  split_ifs with hb hin hin
  · rfl
  · rw [hb] at hin
    exact if_neg hin
  · exact (a.queueAt_moveTo newBase sd price).trans (if_pos hin)
  · exact (a.queueAt_moveTo newBase sd price).trans (if_neg hin)

/-- An order that falls out of the window loses its id. -/
theorem Ladder.find_rebase_outside (hw : a.Wf) (hs : a.Rests s)
    (hk : ¬ a.Keeps newBase (a.info s).price) :
    (a.rebase newBase).find (a.info s).id = NULL_IDX := by
  unfold Ladder.rebase
  split_ifs with hb
  · exact absurd (hb ▸ hw.keeps_base hs) hk
  · refine (find_moveTo (a.info s).id).trans (if_pos ?_)
    exact List.mem_map.2 ⟨s, hw.mem_droppedSlots.2 ⟨hs, hk⟩, rfl⟩

/-- All other ids stay. -/
theorem Ladder.find_rebase_inside (hw : a.Wf) {k : OrderId}
    (hk : ∀ s, a.Rests s → (a.info s).id = k → a.Keeps newBase (a.info s).price) :
    (a.rebase newBase).find k = a.find k := by
  unfold Ladder.rebase
  split_ifs
  · rfl
  · refine (find_moveTo k).trans (if_neg ?_)
    intro hmem
    obtain ⟨s, hs, hid⟩ := List.mem_map.1 hmem
    obtain ⟨hr, hout⟩ := hw.mem_droppedSlots.1 hs
    exact hout (hk s hr hid)

/-- The slots of the orders that fall out of the window are free after it moved. -/
theorem Ladder.mem_free_rebase (hw : a.Wf) (hs : a.Rests s)
    (hk : ¬ a.Keeps newBase (a.info s).price) : s ∈ (a.rebase newBase).free := by
  unfold Ladder.rebase
  split_ifs with hb
  · exact absurd (hb ▸ hw.keeps_base hs) hk
  · obtain ⟨-, -, -, -, -, hfree, -⟩ := moveTo_fields a newBase
    have hmem : s ∈ (a.moveTo newBase).free := by
      rw [hfree]
      exact List.mem_append_left _ (List.mem_reverse.2 (hw.mem_droppedSlots.2 ⟨hs, hk⟩))
    exact hmem

theorem Ladder.live_rebase (hw : a.Wf) (newBase : ℕ) :
    (a.rebase newBase).live = a.live - (a.droppedSlots newBase).length := by
  unfold Ladder.rebase
  split_ifs with hb
  · have hnil : a.droppedSlots newBase = [] := by
      refine List.eq_nil_iff_forall_not_mem.2 fun s hs => ?_
      obtain ⟨hr, hk⟩ := hw.mem_droppedSlots.1 hs
      exact hk (hb ▸ hw.keeps_base hr)
    rw [hnil]
    rfl
  · obtain ⟨-, -, -, -, -, -, -, -, hlive, -⟩ := dropAll_fields (a.droppedSlots newBase) a
    exact hlive

theorem Ladder.rebase_base (newBase : ℕ) : (a.rebase newBase).base = newBase := by
  unfold Ladder.rebase
  split_ifs with hb
  · exact hb.symm
  · rfl

/-- An order that the window moved with is as it was, at its absolute price. -/
theorem Ladder.info_rebase (a : Ladder) (newBase s : ℕ) :
    ((a.rebase newBase).info s).id = (a.info s).id ∧
      ((a.rebase newBase).info s).side = (a.info s).side ∧
      ((a.rebase newBase).info s).qty = (a.info s).qty := by
  unfold Ladder.rebase
  split_ifs <;> exact ⟨rfl, rfl, rfl⟩

end Ladder

section Transfer

theorem Rep.slotsAt_eq (h : Rep L c a) (hs : a.Sep) (sd : Side) (price : ℕ) :
    c.slotsAt sd price = a.queueAt sd price := by
  unfold slotsAt queueAt
  rw [h.base, h.size]
  split_ifs with hin
  · exact h.slots_eq hs sd (by omega)
  · rfl

/-- What an order shows, on the ladder. -/
theorem Rep.shown_eq (h : Rep L c a) (hs : a.Sep) (hsq : s ∈ a.queueAt sd price) :
    c.shown s = ((a.info s).id, sd, (a.info s).qty, price) := by
  obtain ⟨i, hi, rfl, hsi⟩ := mem_queueAt hsq
  have hdata := h.data sd i s hsi
  have hid : (c.pool.pool.cell s).id = (a.info s).id := congrArg Resting.id hdata
  have hside : (c.pool.pool.cell s).side = (a.info s).side := congrArg Resting.side hdata
  have hqty : (c.pool.pool.cell s).qty = (a.info s).qty := congrArg Resting.qty hdata
  have hprice : (c.pool.pool.cell s).price = (a.info s).price := congrArg Resting.price hdata
  unfold shown absPrice
  rw [hid, hside, hqty, hprice, h.base, hs.side_eq hsi, hs.price_eq hsi]

theorem Rep.outsideCount_eq (h : Rep L c a) (hs : a.Sep) (newBase : ℕ) :
    c.outsideCount newBase = (a.droppedSlots newBase).length := by
  have hside : ∀ sd, ((c.resting sd).filter fun o => ¬ c.Keeps newBase (c.absPrice o)).length =
      (a.dropped newBase sd a.band).length := by
    intro sd
    have hmap := congrArg (fun l => (l.filter fun o : Resting =>
      ¬ a.Keeps newBase o.price).length) (h.resting_map hs sd)
    have hbook : ((c.resting sd).map Order.resting).filter (fun o => ¬ a.Keeps newBase o.price) =
        ((c.resting sd).filter fun o => ¬ c.Keeps newBase (c.absPrice o)).map Order.resting := by
      rw [List.filter_map]
      refine congrArg (List.map _) (List.filter_congr fun o _ => ?_)
      have hk : a.Keeps newBase o.resting.price ↔ c.Keeps newBase (c.absPrice o) := by
        unfold OrderBook.Keeps Ladder.Keeps absPrice
        rw [h.size, h.base]
        rfl
      simp only [Function.comp_apply, hk]
    have hladder : (a.slotList sd).filter (fun s => ¬ a.Keeps newBase (a.info s).price) =
        a.dropped newBase sd a.band := by
      unfold slotList dropped
      rw [List.filter_flatMap]
      refine congrArg List.flatten (List.map_congr_left fun i _ => ?_)
      split_ifs with hk
      · refine List.filter_eq_nil_iff.2 fun s hsq => ?_
        simp [hs.price_eq hsq, hk]
      · refine List.filter_eq_self.2 fun s hsq => ?_
        simp [hs.price_eq hsq, hk]
    rw [hbook, List.length_map, List.filter_map, List.length_map] at hmap
    exact hmap.trans (congrArg List.length hladder)
  unfold outsideCount
  rw [List.filter_append, List.length_append, hside, hside, droppedSlots, List.length_append]

theorem Rep.distinctIds (h : Rep L c a) (hs : a.Sep) (hd : c.DistinctIds) {x y : ℕ}
    (hx : a.Rests x) (hy : a.Rests y) (hid : (a.info x).id = (a.info y).id) : x = y := by
  have hmap : (c.resting .BUY ++ c.resting .SELL).map Order.id =
      (a.slotList .BUY ++ a.slotList .SELL).map fun s => (a.info s).id := by
    have hall : (c.resting .BUY ++ c.resting .SELL).map Order.resting =
        (a.slotList .BUY ++ a.slotList .SELL).map a.info := by
      rw [List.map_append, List.map_append, h.resting_map hs, h.resting_map hs]
    have hids := congrArg (List.map Resting.id) hall
    rwa [List.map_map, List.map_map] at hids
  unfold DistinctIds at hd
  rw [hmap] at hd
  have hmem : ∀ {z}, a.Rests z → z ∈ a.slotList .BUY ++ a.slotList .SELL := by
    intro z hz
    rw [List.mem_append, hs.mem_slotList, hs.mem_slotList]
    rcases hsd : (a.info z).side
    · exact .inl ⟨hz, rfl⟩
    · exact .inr ⟨hz, rfl⟩
  exact List.inj_on_of_nodup_map hd (hmem hx) (hmem hy) hid

end Transfer

section Rebase

variable {c : OrderBook FinMap}

theorem Rep.cell_id (h : Rep finLaws c a) (hs : s ∈ a.queue sd i) :
    (c.pool.pool.cell s).id = (a.info s).id := congrArg Resting.id (h.data sd i s hs)

theorem Rep.findId_eq (h : Rep finLaws c a) (k : OrderId) : c.findId k = some (a.find k) :=
  finLaws.find h.sync trivial k

/-- What a move of the window does, but for the live count. -/
theorem Rep.rebased_iff (h : Rep finLaws c a) (hw : a.Wf) (hd : c.DistinctIds) (newBase : ℕ) :
    ∃ c', c.rebaseBase newBase = some c' ∧ (c.Rebased a.band a.cap newBase c' ↔
      c.outsideCount newBase ≤ c.liveOrderCount) := by
  obtain ⟨c', hc', h'⟩ := h.rebaseBase hw newBase trivial
  have hw' := hw.rebase newBase
  obtain ⟨-, hband, hcap, -⟩ := rebase_fields (a := a) newBase
  have hlive : c'.liveOrderCount = c.liveOrderCount - c.outsideCount newBase := by
    rw [h'.live, live_rebase hw, h.live, h.outsideCount_eq hw.toSep]
  have hcons := h'.consistent hw' trivial
  rw [hband, hcap] at hcons
  have hqueue : ∀ {sd price s}, s ∈ (a.rebase newBase).queueAt sd price →
      (newBase ≤ price ∧ price < newBase + a.band) ∧ s ∈ a.queueAt sd price := by
    intro sd price s hs
    rw [a.queueAt_rebase] at hs
    split_ifs at hs with hin
    · exact ⟨hin, hs⟩
    · exact absurd hs List.not_mem_nil
  refine ⟨c', hc', fun hr => ?_, fun hle => ⟨?_, hcons, fun sd price => ?_, fun sd price s hs => ?_,
    fun sd price hout s hs => ?_, ?_⟩⟩
  · have := hr.live
    omega
  · rw [h'.base, rebase_base]
  · rw [h'.slotsAt_eq hw'.toSep, h.slotsAt_eq hw.toSep, a.queueAt_rebase]
  · rw [h'.slotsAt_eq hw'.toSep] at hs
    obtain ⟨hin, hold⟩ := hqueue hs
    obtain ⟨hid, -, hqty⟩ := a.info_rebase newBase s
    rw [h'.shown_eq hw'.toSep hs, h.shown_eq hw.toSep hold, hid, hqty]
    refine ⟨rfl, ?_⟩
    obtain ⟨i, hi, hp, hsi⟩ := mem_queueAt hold
    rw [h'.findId_eq, h.findId_eq, find_rebase_inside hw]
    intro x hx hxid
    obtain rfl := h.distinctIds hw.toSep hd hx (hw.rests hsi) (hxid.trans (h.cell_id hsi))
    rw [hw.price_eq hsi]
    exact ⟨by omega, by omega⟩
  · rw [h.slotsAt_eq hw.toSep] at hs
    obtain ⟨i, hi, rfl, hsi⟩ := mem_queueAt hs
    have hk : ¬ a.Keeps newBase (a.info s).price := by
      rw [hw.price_eq hsi]
      exact hout
    have hfree := mem_free_rebase hw (hw.rests hsi) hk
    rw [h'.freeSlots_eq hw'.toSep, h'.findId_eq, h.cell_id hsi,
      find_rebase_outside hw (hw.rests hsi) hk]
    exact ⟨List.count_eq_one_of_mem hw'.free_nodup hfree, rfl⟩
  · omega

end Rebase

section Runs

variable {band cap : ℕ} (hband : 0 < band) (hband' : band < 2 ^ 32) (hcap : 0 < cap)
  (hcap' : cap < 2 ^ 32)

include hband hband' hcap hcap'

/-- A move of the window does what it is to do exactly if the live count is no less than the number
of orders that fall out. -/
theorem run_rebased_iff (ops : List Op) : ∃ c, (fresh band cap).run ops = some c ∧
    (c.DistinctIds → ∀ newBase, ∃ c', c.rebaseBase newBase = some c' ∧
      (c.Rebased band cap newBase c' ↔ c.outsideCount newBase ≤ c.liveOrderCount)) := by
  obtain ⟨c, hrun, hrep, hw⟩ := run_fresh hband hband' hcap hcap' ops
  obtain ⟨hb, hc⟩ := (new_wf hband hband' hcap').run_sizes ops
  refine ⟨c, hrun, fun hd newBase => ?_⟩
  obtain ⟨c', hc', hiff⟩ := hrep.rebased_iff hw hd newBase
  rw [hb, hc] at hiff
  exact ⟨c', hc', hiff⟩

end Runs

section Examples

/-- An order rests, and `n` times another one is inserted behind it and cancelled. -/
def churnOps (n : ℕ) : List Op := .insertLimitOrder 1 .BUY 6 5 ::
  (List.replicate n [Op.insertLimitOrder 2 .BUY 5 1, Op.cancelOrder 2]).flatten

/-- One bid rests, and the live count is `n`. -/
structure Idle (n : ℕ) (a : Ladder) : Prop where
  band : a.band = 10
  base : a.base = 1
  baseSet : a.baseSet = true
  bid : a.tob.bestBid = 5
  ask : a.tob.bestAsk = UINT32_MAX
  live : a.live = n
  free : a.free = [1, 2, 3]
  info : a.info 0 = ⟨1, 5, 5, .BUY⟩
  queue : ∀ sd i, a.queue sd i = if sd = .BUY ∧ i = 5 then [0] else []

/-- An insert that meets nothing rests behind the best level. -/
theorem insert_behind (id : OrderId) (sd : Side) (price qty : UInt32) {free : List ℕ}
    (hset : a.baseSet = true) (hin : a.InWindow price.toNat) (hother : a.tob.best sd.other = UINT32_MAX)
    (hfree : a.free = s :: free) (hqty : qty.toNat ≠ 0)
    (hb : ¬ sd.Better (price.toNat - a.base) (a.tob.best sd)) :
    a.step (.insertLimitOrder id sd price qty) =
      ({ a with free }.enter id sd (price.toNat - a.base) qty.toNat s, true) := by
  have hanchor : a.anchor price.toNat = a := if_pos hset
  have hrebase : a.rebaseFor price.toNat = a := if_neg fun hc => hc.1 hin
  have hcand : a.candidates sd.other = [] := if_pos hother
  have hmatch : ∀ i m, a.matchAgainst sd.other id i m = (a, m) := by
    intro i m
    unfold Ladder.matchAgainst
    rw [hcand]
    rfl
  simp only [Ladder.step]
  unfold Ladder.insertLimitOrder
  rw [hanchor, hrebase]
  simp only
  rw [if_pos hin]
  unfold Ladder.place
  rw [hmatch]
  simp only
  rw [if_neg hqty]
  unfold Ladder.rest
  rw [hfree]
  exact congrArg (·, true) (if_neg hb)

/-- The order that entered last leaves from behind the best level. -/
theorem cancel_entered (id : OrderId) (sd : Side) (i qty : ℕ) (hs : s ≠ NULL_IDX)
    (hi : i ≠ a.tob.best sd) :
    (a.enter id sd i qty s).step (.cancelOrder id) =
      ((a.enter id sd i qty s).retire sd i s, false) := by
  have hfind : (a.enter id sd i qty s).find id = s := (find_enter id).trans (if_pos rfl)
  simp only [Ladder.step, Ladder.cancelOrder, hfind]
  rw [if_neg hs, Ladder.cancelAt, enter_info_self]
  have htob : ((a.enter id sd i qty s).retire sd i s).tob = a.tob := by
    simp [Ladder.enter, retire, unlink, setQueue, setInfo, Ladder.eraseId, release]
  unfold Ladder.refreshTop
  simp only [htob]
  rw [if_neg hi]

/-- An order that enters and leaves again takes its slot back to the free ones. -/
theorem enter_retire_fields {id : OrderId} {qty : ℕ} {b : Ladder}
    (hb : b = (a.enter id sd i qty s).retire sd i s) :
    b.band = a.band ∧ b.base = a.base ∧ b.baseSet = a.baseSet ∧ b.tob = a.tob ∧
      b.live = add32 a.live 1 ∧ b.free = s :: a.free ∧ (∀ x ≠ s, b.info x = a.info x) ∧
      ∀ sd' j, b.queue sd' j =
        if sd' = sd ∧ j = i then (a.queue sd i ++ [s]).erase s else a.queue sd' j := by
  have hinfo : ∀ x ≠ s, b.info x = a.info x := by
    intro x hx
    have hr : b.info = (a.enter id sd i qty s).info := by
      rw [hb]
      rfl
    rw [hr, enter_info_of_ne hx]
  have hqueue : ∀ sd' j, b.queue sd' j =
      if sd' = sd ∧ j = i then (a.queue sd i ++ [s]).erase s else a.queue sd' j := by
    intro sd' j
    rw [hb, retire_queue]
    simp only [Ladder.enter, Ladder.setQueue, Ladder.setInfo, and_self, if_true]
    by_cases hc : sd' = sd ∧ j = i
    · rw [if_pos hc, if_pos hc]
    · rw [if_neg hc, if_neg hc, if_neg hc]
  refine ⟨?_, ?_, ?_, ?_, ?_, ?_, hinfo, hqueue⟩ <;>
    simp [hb, Ladder.enter, retire, unlink, setQueue, setInfo, Ladder.eraseId, release]

/-- An insert that rests and its cancel raise the live count by one. -/
theorem Idle.churn {n : ℕ} (h : Idle n a) :
    Idle (add32 n 1) (a.run [.insertLimitOrder 2 .BUY 5 1, .cancelOrder 2]) := by
  have hi : 5 - a.base = 4 := by rw [h.base]
  have hbetter : ¬ Side.BUY.Better 4 a.tob.bestBid := by
    rw [h.bid]
    decide
  have hin : a.InWindow 5 := by
    unfold InWindow
    rw [h.base, h.band]
    decide
  have hins : a.step (.insertLimitOrder 2 .BUY 5 1) =
      ({ a with free := [2, 3] }.enter 2 .BUY 4 1 1, true) := by
    have := insert_behind (s := 1) (a := a) 2 .BUY 5 1 h.baseSet hin h.ask h.free (by decide)
      (hi.symm ▸ hbetter)
    rwa [show (5 : UInt32).toNat - a.base = 4 from hi] at this
  have hcancel := cancel_entered (a := { a with free := [2, 3] }) (s := 1) 2 .BUY 4 1 (by decide)
    (show 4 ≠ a.tob.bestBid by rw [h.bid]; decide)
  obtain ⟨b, hb⟩ : ∃ b,
      b = (({ a with free := [2, 3] } : Ladder).enter 2 .BUY 4 1 1).retire .BUY 4 1 :=
    ⟨_, rfl⟩
  obtain ⟨h1, h2, h3, h4, h5, h6, h7, h8⟩ := enter_retire_fields hb
  have hrun : a.run [.insertLimitOrder 2 .BUY 5 1, .cancelOrder 2] = b := by
    simp only [Ladder.run, List.foldl_cons, List.foldl_nil, hins]
    exact (congrArg Prod.fst hcancel).trans hb.symm
  rw [hrun]
  refine ⟨h1.trans h.band, h2.trans h.base, h3.trans h.baseSet, ?_, ?_, ?_, h6, ?_, fun sd i => ?_⟩
  · rw [h4]
    exact h.bid
  · rw [h4]
    exact h.ask
  · rw [h5, ← h.live]
  · rw [h7 0 (by decide)]
    exact h.info
  · rw [h8]
    have hqueue := h.queue
    split_ifs with hc hc' hc'
    · omega
    · have hempty : a.queue .BUY 4 = [] := (hqueue .BUY 4).trans (if_neg (by decide))
      simp [hempty]
    · exact (hqueue sd i).trans (if_pos hc')
    · exact (hqueue sd i).trans (if_neg hc')

theorem idle_churnOps : ∀ n, Idle ((n + 1) % 2 ^ 32) ((Ladder.new 10 4).run (churnOps n)) := by
  have h0 : Idle 1 ((Ladder.new 10 4).run [.insertLimitOrder 1 .BUY 6 5]) := by
    have hfirst : (Ladder.new 10 4).run [.insertLimitOrder 1 .BUY 6 5] = (({ Ladder.new 10 4 with
        base := 1, baseSet := true, free := [1, 2, 3] } : Ladder).enter 1 .BUY 5 5 0).setTop .BUY 5 :=
      rfl
    rw [hfirst]
    refine ⟨?_, ?_, ?_, ?_, ?_, ?_, ?_, ?_, fun sd i => ?_⟩
    case refine_9 =>
      simp only [Ladder.setTop, Ladder.enter, Ladder.setQueue, Ladder.setInfo, Ladder.new]
      by_cases hc : sd = .BUY ∧ i = 5 <;> simp [hc]
    all_goals
      simp [Ladder.setTop, Ladder.enter, Ladder.setQueue, Ladder.setInfo, Ladder.new,
        TopOfBook.setTop, add32]
  have hchurn : ∀ (n m : ℕ) (b : Ladder), Idle (m % 2 ^ 32) b → Idle ((n + m) % 2 ^ 32)
      (b.run (List.replicate n [Op.insertLimitOrder 2 .BUY 5 1, Op.cancelOrder 2]).flatten) := by
    intro n
    induction n with
    | zero => exact fun m b h => (Nat.zero_add m).symm ▸ h
    | succ n ih =>
      intro m b h
      have hnext := ih (m + 1) _ (Rep.add32_mod m 1 ▸ h.churn)
      rw [List.replicate_succ, List.flatten_cons, Ladder.run, List.foldl_append, Nat.add_right_comm]
      exact hnext
  exact fun n => hchurn n 1 _ h0

/-- Two orders rest, one of them in the window that starts at 5. -/
def spreadBids : List Op := [.insertLimitOrder 1 .BUY 6 5, .insertLimitOrder 2 .BUY 3 7]

theorem run_rebased_iff_spreadBids : ∃ c c', (fresh 10 4).run spreadBids = some c ∧
    c.rebaseBase 5 = some c' ∧ c.Rebased 10 4 5 c' := by
  have hband : 10 < 2 ^ 32 := by decide
  have hcap : 4 < 2 ^ 32 := by decide
  obtain ⟨c, hrun, h⟩ := run_rebased_iff (by decide) hband (by decide) hcap spreadBids
  have hval : ((fresh 10 4).run spreadBids).map (fun c =>
      (decide c.DistinctIds, decide (c.outsideCount 5 ≤ c.liveOrderCount))) = some (true, true) := by
    decide +kernel
  rw [hrun, Option.map_some, Option.some.injEq, Prod.mk.injEq, decide_eq_true_eq,
    decide_eq_true_eq] at hval
  obtain ⟨c', hc', hiff⟩ := h hval.1 5
  exact ⟨c, c', hrun, hc', hiff.2 hval.2⟩

/-- After 2^32 inserts the live count is back at zero, with an order still resting. -/
theorem not_forall_run_rebased : ¬ ∀ band cap, 0 < band → band < 2 ^ 32 → 0 < cap → cap < 2 ^ 32 →
    ∀ ops, ∃ c, (fresh band cap).run ops = some c ∧
      (c.DistinctIds → ∀ newBase, ∃ c', c.rebaseBase newBase = some c' ∧
        c.Rebased band cap newBase c') := by
  intro h
  have hband : 10 < 2 ^ 32 := by decide
  have hcap : 4 < 2 ^ 32 := by decide
  obtain ⟨c, hrun, hmove⟩ := h 10 4 (by decide) hband (by decide) hcap (churnOps (2 ^ 32 - 1))
  obtain ⟨c', hrun', hrep, hw⟩ := run_fresh (by decide) hband (by decide) hcap
    (churnOps (2 ^ 32 - 1))
  obtain rfl : c = c' := Option.some.inj (hrun.symm.trans hrun')
  have hidle := idle_churnOps (2 ^ 32 - 1)
  set a := (Ladder.new 10 4).run (churnOps (2 ^ 32 - 1))
  have hslots : a.slotList .BUY = [0] ∧ a.slotList .SELL = [] := by
    unfold slotList
    rw [hidle.band, funext (hidle.queue .BUY), funext (hidle.queue .SELL)]
    decide
  have hdist : c.DistinctIds := by
    have hids := congrArg (List.map Resting.id) (congrArg₂ (· ++ ·)
      (hrep.resting_map hw.toSep .BUY) (hrep.resting_map hw.toSep .SELL))
    rw [hslots.1, hslots.2, ← List.map_append, List.map_map] at hids
    unfold DistinctIds
    exact (congrArg List.Nodup hids).mpr (List.nodup_singleton _)
  obtain ⟨c', -, hr⟩ := hmove hdist 100
  -- the order at 6 falls out, but there is nothing to take it off
  have hout : 0 ∈ a.droppedSlots 100 := by
    have hsq : 0 ∈ a.queue .BUY 5 := by
      rw [hidle.queue]
      decide
    refine hw.mem_droppedSlots.2 ⟨hw.rests hsq, ?_⟩
    unfold Ladder.Keeps
    rw [hw.price_eq hsq, hidle.base]
    omega
  have hcount := List.length_pos_of_mem hout
  rw [← hrep.outsideCount_eq hw.toSep] at hcount
  have hlive : c.liveOrderCount = 0 := hrep.live.trans hidle.live
  have := hr.live
  omega

end Examples

end Nanomatch
