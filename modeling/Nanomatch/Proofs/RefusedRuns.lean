import Nanomatch.Proofs.WindowRuns

/-!
# An insert that is refused changes nothing

An insert that returns false with quantity left was out of the window of a large book, or found no
free slot. Every order that it filled and every order that a move of the window dropped would have
left a free slot, so there were none.
-/

namespace Nanomatch

open Greedy OrderBook Ladder

section Ladder

namespace Ladder

variable {a a' a'' : Ladder} {sd : Side} {i s price qty want limit : ℕ} {id t : OrderId}
  {r : Ladder × ℕ}

/-- `a'` has the trades, the orders and the ids of `a`. -/
structure Unchanged (a a' : Ladder) : Prop where
  trades : a'.trades = a.trades
  queue : ∀ sd price, a'.queueAt sd price = a.queueAt sd price
  info : ∀ s, (a'.info s).id = (a.info s).id ∧ (a'.info s).qty = (a.info s).qty
  find : ∀ k, a'.find k = a.find k

theorem Unchanged.refl (a : Ladder) : Unchanged a a :=
  ⟨rfl, fun _ _ => rfl, fun _ => ⟨rfl, rfl⟩, fun _ => rfl⟩

theorem Unchanged.trans (h : Unchanged a a') (h' : Unchanged a' a'') : Unchanged a a'' where
  trades := h'.trades.trans h.trades
  queue sd price := (h'.queue sd price).trans (h.queue sd price)
  info s := ⟨(h'.info s).1.trans (h.info s).1, (h'.info s).2.trans (h.info s).2⟩
  find k := (h'.find k).trans (h.find k)

/-- A taker that leaves no slot free and has quantity left met no order. -/
theorem Took.unchanged {l : List ℕ} (h : Took t want l a r) (hband : r.1.band = a.band)
    (hfree : r.1.free = []) (hleft : r.2 ≠ 0) : Unchanged a r.1 ∧ a.free = [] := by
  have hle : Greedy.total a.qtyAt l ≤ want := by
    have := h.left
    omega
  obtain ⟨hl, hn⟩ := taken_all hle
  obtain ⟨hnil, hfree'⟩ := List.append_eq_nil_iff.1 (h.free.symm.trans hfree)
  rw [List.reverse_eq_nil_iff] at hnil
  refine ⟨⟨?_, fun sd price => ?_, fun s => ?_, fun k => ?_⟩, hfree'⟩
  · rw [h.trades, hnil, hn]
    simp
  · unfold queueAt
    rw [h.base, hband, h.queue, hnil]
    simp
  · rw [h.info s (by rw [hnil]; exact List.not_mem_nil), hn]
    simp
  · unfold find
    rw [h.calls, hnil]
    rfl

/-- A move of the window that leaves no slot free drops no order. -/
theorem Wf.unchanged_rebase (hw : a.Wf) (newBase : ℕ) (hfree : (a.rebase newBase).free = []) :
    Unchanged a (a.rebase newBase) := by
  have hkeep : ∀ s, a.Rests s → a.Keeps newBase (a.info s).price := by
    intro s hs
    by_contra hk
    have := mem_free_rebase hw hs hk
    rw [hfree] at this
    exact List.not_mem_nil this
  refine ⟨(rebase_fields newBase).2.2.2, fun sd price => ?_, fun s => ?_, fun k => ?_⟩
  · rw [a.queueAt_rebase]
    split_ifs with hin
    · rfl
    · refine (List.eq_nil_iff_forall_not_mem.2 fun s hs => hin ?_).symm
      obtain ⟨i, hi, rfl, hsi⟩ := mem_queueAt hs
      exact hw.price_eq hsi ▸ hkeep s (hw.rests hsi)
  · obtain ⟨h1, -, h2⟩ := a.info_rebase newBase s
    exact ⟨h1, h2⟩
  · exact find_rebase_inside hw fun s hs _ => hkeep s hs

theorem Wf.unchanged_anchor (hw : a.Wf) (price : ℕ) : Unchanged a (a.anchor price) := by
  unfold Ladder.anchor
  split_ifs with hset
  · exact Unchanged.refl a
  · have hq := hw.unset (by simpa using hset)
    refine ⟨rfl, fun sd price => ?_, fun s => ⟨rfl, rfl⟩, fun k => rfl⟩
    unfold queueAt
    simp only [hq, ite_self]

theorem Wf.unchanged_rebaseFor (hw : a.Wf) (price : ℕ)
    (hfree : ((a.anchor price).rebaseFor price).free = []) :
    Unchanged a ((a.anchor price).rebaseFor price) := by
  obtain ⟨hw1, -⟩ := hw.anchor price
  refine (hw.unchanged_anchor price).trans ?_
  unfold Ladder.rebaseFor at hfree ⊢
  split_ifs at hfree ⊢
  · exact hw1.unchanged_rebase _ hfree
  · exact Unchanged.refl _

/-- An insert that returns false with quantity left changes no order. -/
theorem Wf.insert_unfilled (hw : a.Wf) (h : (a.insertLimitOrder id sd price qty).2 = false)
    (hleft : a.remaining id sd price qty ≠ 0) :
    Unchanged a (a.insertLimitOrder id sd price qty).1 := by
  have hw1 := (hw.anchor price).1.rebaseFor price
  unfold Ladder.insertLimitOrder at h ⊢
  unfold Ladder.remaining at hleft
  simp only at h hleft ⊢
  set a1 := (a.anchor price).rebaseFor price with ha1
  by_cases hin : a1.InWindow price
  · rw [if_pos hin] at h hleft ⊢
    have hs := hw1.match_spec sd.other id (price - a1.base) qty
    have ht := hw1.match_took sd.other id (price - a1.base) qty
    unfold Ladder.place at h ⊢
    simp only at h ⊢
    rw [if_neg hleft] at h ⊢
    obtain ⟨heq, hfree⟩ := rest_refused h
    obtain ⟨hsame, hfree1⟩ := ht.unchanged hs.frame.band hfree hleft
    rw [heq]
    exact (hw.unchanged_rebaseFor price hfree1).trans hsame
  · rw [if_neg hin]
    exact (hw.rebaseFor_refused hin).2.2.2 ▸ Unchanged.refl a

/-- What an insert traded and what it has left make up its quantity. -/
theorem Wf.insert_traded (hw : a.Wf) (id : OrderId) (sd : Side) (price qty : ℕ) :
    ∃ new, (a.insertLimitOrder id sd price qty).1.trades = a.trades ++ new ∧
      (new.map Trade.qty).sum + a.remaining id sd price qty = qty := by
  have hw1 := (hw.anchor price).1.rebaseFor price
  have htr := (hw.rebaseFor_booked price).1
  unfold Ladder.insertLimitOrder Ladder.remaining
  simp only at htr ⊢
  set a1 := (a.anchor price).rebaseFor price
  split_ifs with hin
  · obtain ⟨new, hnew⟩ := sweep_traded sd.other id (price - a1.base) (a1.candidates sd.other) a1 qty
      hw1.toCore hw1.pos
    change Traded id a1 qty (a1.matchAgainst sd.other id (price - a1.base) qty) new at hnew
    refine ⟨new, ?_, by have := hnew.taken; omega⟩
    unfold Ladder.place
    simp only
    split_ifs
    · rw [hnew.trades, htr]
    · rw [(rest_keeps _ _ _ _).2.2, hnew.trades, htr]
  · exact ⟨[], by rw [htr, List.append_nil], by simp⟩

end Ladder

end Ladder

section Transfer

variable {c c' : OrderBook FinMap} {a a' : Ladder}

theorem Rep.sameOrders (h : Rep finLaws c a) (hw : a.Wf) (h' : Rep finLaws c' a') (hw' : a'.Wf)
    (hsame : Unchanged a a') : c.SameOrders c' where
  logger := by rw [h'.logger, h.logger, hsame.trades]
  slots sd price := by rw [h'.slotsAt_eq hw'.toSep, h.slotsAt_eq hw.toSep, hsame.queue]
  orders sd price s hs := by
    rw [h.slotsAt_eq hw.toSep] at hs
    obtain ⟨hid, hqty⟩ := hsame.info s
    rw [h.shown_eq hw.toSep hs, h'.shown_eq hw'.toSep ((hsame.queue sd price).symm ▸ hs), hid, hqty]
  ids k := by rw [h'.findId_eq, h.findId_eq, hsame.find]

end Transfer

section Runs

variable {band cap : ℕ} (hband : 0 < band) (hband' : band < 2 ^ 32) (hcap : 0 < cap)
  (hcap' : cap < 2 ^ 32)

include hband hband' hcap hcap'

/-- An insert that returns false without having traded its whole quantity leaves the trades, the
orders and the ids as they were, and only a large book refuses an insert for its price. -/
theorem run_refused (ops : List Op) : ∃ c, (fresh band cap).run ops = some c ∧
    ∀ id side price qty c', c.step (.insertLimitOrder id side price qty) = some (c', false) →
      ((c'.logger.drop c.logger.length).map Trade.qty).sum < qty.toNat →
      c.SameOrders c' ∧
        (¬ c'.inBand (c'.toIdx price.toNat) → BOOTSTRAP_REBASE_LIMIT < c.liveOrderCount) := by
  obtain ⟨c, hrun, hrep, hw⟩ := run_fresh hband hband' hcap hcap' ops
  refine ⟨c, hrun, fun id side price qty c' hins hsum => ?_⟩
  obtain ⟨c1, hc1, hrep1⟩ := hrep.step hw (.insertLimitOrder id side price qty) trivial
  obtain ⟨rfl, hr⟩ := Prod.mk.inj (Option.some.inj (hins.symm.trans hc1))
  obtain ⟨new, htr, hnew⟩ := hw.insert_traded id side price.toNat qty.toNat
  have hlogger : c'.logger = c.logger ++ new := by
    rw [hrep1.logger, hrep.logger]
    exact htr
  rw [hlogger, List.drop_left] at hsum
  have hleft : ((Ladder.new band cap).run ops).remaining id side price.toNat qty.toNat ≠ 0 := by
    omega
  refine ⟨hrep.sameOrders hw hrep1 (hw.step _) (hw.insert_unfilled hr.symm hleft), fun hout => ?_⟩
  rw [hrep.live]
  exact (hw.insert_refused (mt (hrep1.inBand_iff price.toNat).2 hout)).2.2.1

end Runs

section Examples

/-- The second order finds the only slot taken. -/
theorem run_refused_fullPool : ∃ c c', (fresh 10 1).run [.insertLimitOrder 1 .BUY 6 5] = some c ∧
    c.step (.insertLimitOrder 2 .BUY 6 3) = some (c', false) ∧ c.SameOrders c' := by
  have hband : 10 < 2 ^ 32 := by decide
  have hcap : 1 < 2 ^ 32 := by decide
  obtain ⟨c, hrun, h⟩ := run_refused (by decide) hband (by decide) hcap [.insertLimitOrder 1 .BUY 6 5]
  have hval : ((fresh 10 1).run [.insertLimitOrder 1 .BUY 6 5]).map (fun c =>
      (c.step (.insertLimitOrder 2 .BUY 6 3)).map fun r =>
        (r.2, ((r.1.logger.drop c.logger.length).map Trade.qty).sum)) = some (some (false, 0)) := by
    decide +kernel
  rw [hrun, Option.map_some, Option.some.injEq, Option.map_eq_some_iff] at hval
  obtain ⟨⟨c', b⟩, hstep, hb⟩ := hval
  rw [Prod.mk.injEq] at hb
  obtain ⟨rfl, hsum⟩ := hb
  exact ⟨c, c', hrun, hstep, (h 2 .BUY 6 3 c' hstep (by rw [hsum]; decide)).1⟩

end Examples

end Nanomatch
