import Nanomatch.Proofs.CachedRuns

/-!
# How many trades a run makes

A taker fills every maker that it trades with but the last one, and an order that is filled leaves
its slot. So each trade of a call but one is paid for by an order that an earlier call left: a run
makes no more trades than it has calls that can trade, less the orders that still rest.
-/

namespace Nanomatch

open OrderBook

/-- The calls that can make a trade without taking out an order. -/
def OrderBook.Op.trading : Op → ℕ
  | .insertLimitOrder _ _ _ _ => 1
  | .cancelOrder _ => 0
  | .processMarketOrder _ _ => 1
  | .executeOrder _ _ => 1
  | .reduceOrderQty _ _ => 0

def OrderBook.tradingCalls (ops : List Op) : ℕ := (ops.map Op.trading).sum

namespace Ladder

variable {a b c : Ladder} {sd : Side} {i s n m : ℕ}

section Steps

/-- All trades on the way from `a` to `b` but `n` have freed a slot. -/
def Paid (n : ℕ) (a b : Ladder) : Prop :=
  b.trades.length + a.free.length ≤ a.trades.length + b.free.length + n

theorem paid_of_eq (htrades : b.trades = a.trades) (hfree : b.free = a.free) : Paid 0 a b := by
  rw [Paid, htrades, hfree, Nat.add_zero]

theorem Paid.trans (h : Paid n a b) (h' : Paid m b c) : Paid (n + m) a c := by
  unfold Paid at *
  omega

theorem Paid.mono (h : Paid n a b) (hle : n ≤ m) : Paid m a b := by
  unfold Paid at *
  omega

theorem fillOne_paid (takerId : OrderId) (amount : ℕ) :
    Paid (if (a.info s).qty ≤ amount then 0 else 1) a (a.fillOne sd i takerId s amount) := by
  unfold Paid fillOne
  by_cases hle : (a.info s).qty ≤ amount
  · rw [if_pos (Nat.sub_eq_zero_of_le hle), if_pos hle]
    simp only [trade, take, setInfo, retire, unlink, setQueue, eraseId, release, dropLive,
      List.length_append, List.length_cons, List.length_nil]
    omega
  · rw [if_neg (by omega), if_neg hle]
    simp only [trade, take, setInfo, List.length_append, List.length_cons, List.length_nil]
    omega

/-- A taker that still wants something has filled all the orders of the level. -/
theorem fill_paid (sd : Side) (i : ℕ) (takerId : OrderId) : ∀ (queue : List ℕ) (a : Ladder)
    (remaining : ℕ), Paid (if (fill sd i takerId queue a remaining).2 = 0 then 1 else 0) a
      (fill sd i takerId queue a remaining).1
  | [], a, remaining => (paid_of_eq rfl rfl).mono (Nat.zero_le _)
  | s :: queue, a, remaining => by
    rw [fill]
    by_cases hr : remaining = 0
    · rw [if_pos hr]
      exact (paid_of_eq rfl rfl).mono (Nat.zero_le _)
    rw [if_neg hr]
    set amount := min remaining (a.info s).qty with hamount
    have hone : Paid _ a (a.fillOne sd i takerId s amount) := fillOne_paid takerId amount
    by_cases hle : (a.info s).qty ≤ amount
    · rw [if_pos hle] at hone
      have hrest := hone.trans (fill_paid sd i takerId queue _ (remaining - amount))
      rwa [Nat.zero_add] at hrest
    · have hrem : remaining - amount = 0 := by omega
      rw [if_neg hle] at hone
      simp only [hrem, fill_zero]
      exact hone

theorem sweep_zero (takerId : OrderId) (limit : ℕ) (levels : List ℕ) (a : Ladder) :
    sweep sd takerId limit levels a 0 = (a, 0) := by
  cases levels with
  | nil => rfl
  | cons i levels => rw [sweep, if_pos (.inl rfl)]

theorem sweep_paid (sd : Side) (takerId : OrderId) (limit : ℕ) : ∀ (levels : List ℕ) (a : Ladder)
    (remaining : ℕ), Paid (if (sweep sd takerId limit levels a remaining).2 = 0 then 1 else 0) a
      (sweep sd takerId limit levels a remaining).1
  | [], a, remaining => (paid_of_eq rfl rfl).mono (Nat.zero_le _)
  | i :: levels, a, remaining => by
    rw [sweep]
    simp only
    by_cases hstop : remaining = 0 ∨ ¬ sd.Crosses limit i
    · rw [if_pos hstop]
      exact (paid_of_eq rfl rfl).mono (Nat.zero_le _)
    rw [if_neg hstop]
    have hfill := fill_paid sd i takerId (a.queue sd i) a remaining
    generalize fill sd i takerId (a.queue sd i) a remaining = r at hfill ⊢
    by_cases hq : r.1.queue sd i = []
    · rw [if_pos hq]
      have hset : Paid _ a (r.1.setTop sd (firstOf levels)) :=
        hfill.trans (paid_of_eq (b := r.1.setTop sd (firstOf levels)) rfl rfl)
      by_cases hr : r.2 = 0
      · rw [hr, sweep_zero, if_pos rfl]
        rwa [if_pos hr] at hset
      · have hrest := hset.trans (sweep_paid sd takerId limit levels _ r.2)
        rwa [if_neg hr, Nat.add_zero, Nat.zero_add] at hrest
    · rw [if_neg hq]
      exact hfill.trans (paid_of_eq (b := r.1.setTopQty sd i) rfl rfl)

theorem matchAgainst_paid (takerId : OrderId) (limit qty : ℕ) :
    Paid (if (a.matchAgainst sd takerId limit qty).2 = 0 then 1 else 0) a
      (a.matchAgainst sd takerId limit qty).1 := sweep_paid sd takerId limit _ a qty

theorem rest_paid (id : OrderId) (sd : Side) (i qty : ℕ) : Paid 1 a (a.rest id sd i qty).1 := by
  unfold rest
  split
  · exact (paid_of_eq rfl rfl).mono (Nat.zero_le _)
  · rename_i s free hfree
    have hlen : a.free.length = free.length + 1 := by rw [hfree, List.length_cons]
    have henter : Paid 1 a ({ a with free }.enter id sd i qty s) := by
      simp only [Paid, enter, setQueue, setInfo]
      omega
    simp only
    split_ifs
    · exact henter.trans (m := 0) (paid_of_eq rfl rfl)
    · exact henter

theorem place_paid (id : OrderId) (i qty : ℕ) : Paid 1 a (a.place id sd i qty).1 := by
  have hmatch : Paid _ a (a.matchAgainst sd.other id i qty).1 := matchAgainst_paid id i qty
  unfold place
  simp only
  split_ifs with hr
  · rwa [if_pos hr] at hmatch
  · rw [if_neg hr] at hmatch
    exact hmatch.trans (rest_paid id sd i _)

theorem rebase_paid (newBase : ℕ) : Paid 0 a (a.rebase newBase) := by
  obtain ⟨-, -, -, -, htrades, hfree, -⟩ := moveTo_fields a newBase
  unfold rebase
  split_ifs
  · exact paid_of_eq rfl rfl
  · simp only [Paid, updateBest, setTop, htrades, hfree, List.length_append]
    omega

theorem insertLimitOrder_paid (id : OrderId) (price qty : ℕ) :
    Paid 1 a (a.insertLimitOrder id sd price qty).1 := by
  have hanchor : Paid 0 a (a.anchor price) := by
    unfold anchor
    split_ifs <;> exact paid_of_eq rfl rfl
  have hmoved : Paid 0 a ((a.anchor price).rebaseFor price) := by
    unfold rebaseFor
    split_ifs
    · exact hanchor.trans (rebase_paid _)
    · exact hanchor
  unfold insertLimitOrder
  simp only
  split_ifs
  · exact hmoved.trans (place_paid id _ qty)
  · exact hmoved.mono (Nat.zero_le _)

theorem retire_paid (sd : Side) (i s : ℕ) : Paid 0 a (a.retire sd i s) := by
  simp only [Paid, retire, unlink, setQueue, eraseId, release, List.length_cons]
  omega

theorem dropLive_paid (a : Ladder) : Paid 0 a a.dropLive := paid_of_eq rfl rfl

theorem refreshTop_paid (sd : Side) (i : ℕ) : Paid 0 a (a.refreshTop sd i) := by
  unfold refreshTop
  split_ifs <;> exact paid_of_eq rfl rfl

theorem takePartly_paid (s amount : ℕ) : Paid 0 a (a.takePartly s amount) := by
  unfold takePartly
  split_ifs <;> exact paid_of_eq rfl rfl

theorem executeAt_paid (s fillQty : ℕ) : Paid 1 a (a.executeAt s fillQty).1 := by
  have htrade : ∀ t, Paid 1 a (a.trade t) := fun t => by
    simp only [Paid, trade, List.length_append, List.length_cons, List.length_nil]
    omega
  unfold executeAt
  simp only
  split_ifs
  · have hretire := (htrade ⟨(a.info s).id, 0, a.base + (a.info s).price,
      min fillQty (a.info s).qty⟩).trans (retire_paid (a.info s).side (a.info s).price s)
    exact (hretire.trans (dropLive_paid _)).trans (refreshTop_paid _ _)
  · exact (htrade _).trans (takePartly_paid s fillQty)

theorem step_paid : ∀ op : Op, Paid op.trading a (a.step op).1
  | .insertLimitOrder id sd price qty => insertLimitOrder_paid id _ _
  | .cancelOrder id => by
    simp only [step, cancelOrder]
    split_ifs
    · exact paid_of_eq rfl rfl
    · exact (retire_paid _ _ _).trans (refreshTop_paid _ _)
  | .processMarketOrder sd qty =>
    (matchAgainst_paid 0 _ _).mono (by split_ifs <;> simp [Op.trading])
  | .executeOrder id fillQty => by
    simp only [step, executeOrder]
    split_ifs
    · exact (paid_of_eq rfl rfl).mono (Nat.zero_le _)
    · exact executeAt_paid _ _
  | .reduceOrderQty id cancelQty => by
    simp only [step, reduceOrderQty]
    split_ifs
    · exact paid_of_eq rfl rfl
    · exact (retire_paid _ _ _).trans (refreshTop_paid _ _)
    · exact takePartly_paid _ _

end Steps

section Runs

theorem run_paid : ∀ (ops : List Op) (a : Ladder), Paid (tradingCalls ops) a (a.run ops)
  | [], _ => paid_of_eq rfl rfl
  | op :: ops, a => by
    have h := (step_paid (a := a) op).trans (run_paid ops (a.step op).1)
    rw [tradingCalls, List.map_cons, List.sum_cons]
    exact h

end Runs

end Ladder

section Runs

theorem OrderBook.run_append {M : Type} [IdMapOps M] (book : OrderBook M) (ops ops' : List Op) :
    book.run (ops ++ ops') = (book.run ops).bind fun book => book.run ops' := by
  induction ops generalizing book with
  | nil => rfl
  | cons op ops ih =>
    rcases h : book.step op with _ | ⟨book', r⟩
    · simp [OrderBook.run, h]
    · simp [OrderBook.run, h, ih]

theorem run_of_runResults {M : Type} [IdMapOps M] {c c' : OrderBook M} {ops : List Op}
    {rs : List Bool} (h : c.runResults ops = some (c', rs)) : c.run ops = some c' := by
  induction ops generalizing c rs with
  | nil => exact congrArg (Option.map Prod.fst) h
  | cons op ops ih =>
    obtain ⟨⟨c₁, r⟩, hstep, hrest⟩ := Option.bind_eq_some_iff.1 h
    obtain ⟨⟨c₂, rs'⟩, hrun, he⟩ := Option.bind_eq_some_iff.1 hrest
    obtain ⟨rfl, -⟩ := Prod.mk.inj (Option.some.inj he)
    exact bind_some hstep (ih hrun)

variable {band cap : ℕ} {ops : List Op} {c : OrderBook FinMap}

/-- A book that represents the ladder after a run is consistent. -/
theorem Rep.consistent_run (hrep : Rep finLaws c ((Ladder.new band cap).run ops))
    (hnew : (Ladder.new band cap).Wf) : c.Consistent band cap := by
  obtain ⟨hb, hc⟩ := hnew.run_sizes ops
  have h := hrep.consistent (hnew.run ops) trivial
  rwa [hb, hc] at h

theorem Rep.trades_le (hrep : Rep finLaws c ((Ladder.new band cap).run ops))
    (hnew : (Ladder.new band cap).Wf) :
    c.logger.length + c.restingCount ≤ tradingCalls ops := by
  have hw := hnew.run ops
  have hpaid : (((Ladder.new band cap).run ops).trades.length + (List.range cap).length ≤
      0 + ((Ladder.new band cap).run ops).free.length + tradingCalls ops) := Ladder.run_paid ops _
  have hheld := hw.toCore.held_add_free
  have hsize : ((Ladder.new band cap).run ops).cap = cap := (hnew.run_sizes ops).2
  rw [hsize] at hheld
  rw [hrep.logger, hrep.restingCount_eq hw.toSep]
  rw [List.length_range] at hpaid
  omega

/-- The trades that a run reports and the orders that rest after it are no more than its calls that
can trade. -/
theorem run_trades_le (hband : 0 < band) (hband' : band < 2 ^ 32) (hcap : 0 < cap)
    (hcap' : cap < 2 ^ 32) (ops : List Op) : ∃ c, (fresh band cap).run ops = some c ∧
      c.logger.length + c.restingCount ≤ tradingCalls ops := by
  obtain ⟨c, hc, hrep, -⟩ := run_fresh hband hband' hcap hcap' ops
  exact ⟨c, hc, hrep.trades_le (Ladder.new_wf hband hband' hcap')⟩

/-- Two asks, a bid that fills the first and part of the second, and two fills of the rest: four
trades for five calls, and none rests. -/
def paidTwice : List Op := [.insertLimitOrder 1 .SELL 6 5, .insertLimitOrder 2 .SELL 7 5,
  .insertLimitOrder 3 .BUY 7 8, .executeOrder 2 1, .executeOrder 2 4]

theorem run_trades_le_paidTwice : ∃ c, (fresh 10 2).run paidTwice = some c ∧
    c.logger.length + c.restingCount ≤ tradingCalls paidTwice :=
  run_trades_le (by decide) (by decide) (by decide) (by decide) paidTwice

end Runs

end Nanomatch
