import Nanomatch.Priority
import Nanomatch.Proofs.LadderPriority

/-!
# Runs keep time priority

In every state of a run the levels are in the order of the inserts, so a match trades with the
makers of a price in this order.
-/

namespace Nanomatch

open Greedy OrderBook Ladder

variable {c c' : OrderBook FinMap} {a a' : Ladder} {born : ℕ → ℕ} {n : ℕ}

section Transfer

theorem Rep.levelsInOrder (h : Rep finLaws c a) (hw : a.Wf) (ho : a.InOrder born n) :
    c.LevelsInOrder born := by
  intro sd i hi
  have hlt : i < a.band := (h.levels sd) ▸ hi
  rw [h.slots_eq hw.toSep sd hlt, ← queueAt_add hlt]
  exact ho.sorted sd (a.base + i)

theorem Rep.cell_id_at (h : Rep finLaws c a) {sd : Side} {price s : ℕ} (hs : s ∈ a.queueAt sd price) :
    (c.pool.pool.cell s).id = (a.info s).id ∧ c.qtyAt s = a.qtyAt s := by
  obtain ⟨i, -, -, hi⟩ := mem_queueAt hs
  exact ⟨congrArg Resting.id (h.data sd i s hi), h.qtyAt_eq hi⟩

theorem Rep.tradesInOrder (h : Rep finLaws c a) (hw : a.Wf) (ho : a.InOrder born n) {l : List ℕ}
    {new : List Trade} (hm : Met a l new) : c.TradesInOrder born new := by
  refine ⟨l, hm.nodup, hm.made.imp fun s t => ?_, hm.ahead.imp fun {x y} hxy he => ?_⟩
  · rintro ⟨⟨sd, hs⟩, hid⟩
    exact ⟨⟨sd, (h.slotsAt_eq hw.toSep sd _).symm ▸ hs⟩, (h.cell_id_at hs).1.trans hid⟩
  · obtain ⟨⟨sd, hsub⟩, hqty⟩ := hxy he
    have hborn := (ho.sorted sd x.2.price).sublist (hsub.map born)
    have hx : x.1 ∈ a.queueAt sd x.2.price := hsub.subset List.mem_cons_self
    refine ⟨?_, hqty.trans (h.cell_id_at hx).2.symm⟩
    simpa using hborn

/-- The numbers of the inserts go on with every call. -/
theorem Rep.step_born (hw : a.Wf) (ho : a.InOrder born n) : ∀ op : Op,
    Rep finLaws c' (a.step op).1 →
    (a.step op).1.InOrder (c'.bornAfter op (a.step op).2 n born) (n + 1)
  | .insertLimitOrder id sd price qty, h' => by
    have hw' := hw.step (.insertLimitOrder id sd price qty)
    simp only [Ladder.step] at h' hw' ⊢
    unfold bornAfter
    simp only
    split_ifs with hr
    · simp only [h'.findId_eq, Option.some.injEq]
      exact ho.gains hw'.toSep (hw.insert_gains hr)
    · exact ho.fades (hw.insert_fades (by simpa using hr))
  | .cancelOrder id, _ => ho.fades (fades_cancelOrder id)
  | .processMarketOrder sd qty, _ => ho.fades (hw.processMarketOrder_fades sd _)
  | .executeOrder id fillQty, _ => ho.fades (fades_executeOrder id _)
  | .reduceOrderQty id cancelQty, _ => ho.fades (fades_reduceOrderQty id _)

end Transfer

section Runs

theorem Rep.run_born : ∀ (ops : List Op) {c : OrderBook FinMap} {a : Ladder} {born : ℕ → ℕ} {n : ℕ},
    Rep finLaws c a → a.Wf → a.InOrder born n → ∃ c' born', c.runBorn born n ops = some (c', born') ∧
      c.run ops = some c' ∧ ∃ a' : Ladder, Rep finLaws c' a' ∧ a'.Wf ∧ ∃ n', a'.InOrder born' n'
  | [], c, a, born, n, h, hw, ho => ⟨c, born, rfl, rfl, a, h, hw, n, ho⟩
  | op :: ops, c, a, born, n, h, hw, ho => by
    obtain ⟨c1, h1, hr1⟩ := h.step hw op trivial
    obtain ⟨c2, born2, hb, hc, hrest⟩ :=
      Rep.run_born ops hr1 (hw.step op) (Rep.step_born hw ho op hr1)
    exact ⟨c2, born2, bind_some h1 hb, bind_some h1 hc, hrest⟩

theorem inOrder_new (band cap : ℕ) : (Ladder.new band cap).InOrder (fun _ => 0) 0 := by
  refine ⟨fun sd price s hs => ?_, fun sd price => ?_⟩
  · rw [queueAt_new] at hs
    exact absurd hs List.not_mem_nil
  · rw [queueAt_new]
    exact List.Pairwise.nil

variable {band cap : ℕ} (hband : 0 < band) (hband' : band < 2 ^ 32) (hcap : 0 < cap)
  (hcap' : cap < 2 ^ 32)

include hband hband' hcap hcap'

/-- After every run the orders of each level are in the order of their inserts, and of two makers
that a next call trades with at one price the one inserted first is traded first and is filled. -/
theorem run_priority (ops : List Op) : ∃ c born,
    (fresh band cap).runBorn (fun _ => 0) 0 ops = some (c, born) ∧
    (fresh band cap).run ops = some c ∧ c.LevelsInOrder born ∧
    ∀ op c' r, c.step op = some (c', r) → ∃ new, c'.logger = c.logger ++ new ∧
      c.TradesInOrder born new := by
  obtain ⟨c, born, hborn, hrun, a, h, hw, n, ho⟩ := Rep.run_born ops
    (rep_new hcap (L := finLaws) (m := FinMap.init) rfl) (new_wf hband hband' hcap')
    (inOrder_new band cap)
  refine ⟨c, born, hborn, hrun, h.levelsInOrder hw ho, fun op c' r hstep => ?_⟩
  obtain ⟨c1, hc1, hrep1⟩ := h.step hw op trivial
  obtain ⟨rfl, -⟩ := Prod.mk.inj (Option.some.inj (hstep.symm.trans hc1))
  obtain ⟨l, new, htr, hmet⟩ := hw.step_met op
  refine ⟨new, ?_, h.tradesInOrder hw ho hmet⟩
  rw [hrep1.logger, h.logger, htr]

end Runs

section Examples

/-- The third bid comes into the slot that the first one left. -/
def recycledSlots : List Op := [.insertLimitOrder 1 .BUY 6 5, .insertLimitOrder 2 .BUY 6 3,
  .cancelOrder 1, .insertLimitOrder 3 .BUY 6 4]

theorem run_priority_recycledSlots : ∃ c born, (fresh 10 4).runBorn (fun _ => 0) 0 recycledSlots =
    some (c, born) ∧ (c.slots .BUY 5).map born = [1, 3] ∧ c.LevelsInOrder born ∧
    ∃ c' new, c.step (.processMarketOrder .SELL 5) = some (c', false) ∧ c'.logger = c.logger ++ new ∧
      c.TradesInOrder born new := by
  have hband : 10 < 2 ^ 32 := by decide
  have hcap : 4 < 2 ^ 32 := by decide
  obtain ⟨c, born, hborn, hrun, hlevels, htrades⟩ :=
    run_priority (by decide) hband (by decide) hcap recycledSlots
  have hval : ((fresh 10 4).runBorn (fun _ => 0) 0 recycledSlots).map (fun r =>
      ((r.1.slots .BUY 5).map r.2, (r.1.step (.processMarketOrder .SELL 5)).map Prod.snd)) =
        some ([1, 3], some false) := by
    decide +kernel
  rw [hborn, Option.map_some, Option.some.injEq, Prod.mk.injEq, Option.map_eq_some_iff] at hval
  obtain ⟨hslots, ⟨c', r⟩, hstep, rfl⟩ := hval
  obtain ⟨new, hlogger, hnew⟩ := htrades _ c' false hstep
  exact ⟨c, born, hborn, hslots, hlevels, c', new, hstep, hlogger, hnew⟩

end Examples

end Nanomatch
