import Nanomatch.Proofs.LadderEvents

/-!
# Events on single orders of a book

What holds of the ladder's events holds of the book's: events on different orders commute, and one
event may be made in two steps.
-/

namespace Nanomatch

open LinkedList WordBits OrderBook Ladder

variable {c c' c₁ c₂ : OrderBook FinMap} {a a' a₁ a₂ : Ladder} {id x y : OrderId} {f g : Op}

section Transfer

/-- Books that stand for ladders with the same orders have the same levels, links included. -/
theorem Rep.sameLevels (h : Rep finLaws c a) (h' : Rep finLaws c' a') (ha : a.Sep) (ha' : a'.Sep)
    (hl : Alike a a') : c.SameLevels c' := by
  have hlt : ∀ {sd i}, i < (c.levels sd).size → i < a.band := fun {sd i} hi => h.levels sd ▸ hi
  have hlinks : ∀ sd, ∀ i < a.band, (c'.levelAt sd i).headIdx = (c.levelAt sd i).headIdx ∧
      (c'.levelAt sd i).tailIdx = (c.levelAt sd i).tailIdx ∧
      ∀ s ∈ a.queue sd i, c'.nextOf s = c.nextOf s ∧ c'.prevOf s = c.prevOf s := by
    intro sd i hi
    have hd := (h'.level sd i (hl.band ▸ hi)).links
    rw [hl.queue] at hd
    exact (h.level sd i hi).links.seg.links_eq hd.seg
  refine ⟨fun sd => ?_, fun sd i hi => ?_, fun sd i hi s hs => ?_, fun sd i hi => ?_,
    fun sd i hi => ⟨?_, ?_⟩, fun sd => ⟨?_, fun p => ?_⟩, fun k => ?_⟩
  · rw [h'.levels, h.levels, hl.band]
  · rw [h'.slots_eq ha' sd (hl.band ▸ hlt hi), h.slots_eq ha sd (hlt hi), hl.queue]
  · rw [h.slots_eq ha sd (hlt hi)] at hs
    obtain ⟨hn, hp⟩ := (hlinks sd i (hlt hi)).2.2 s hs
    have hd : (c'.pool.pool.cell s).resting = (c.pool.pool.cell s).resting := by
      rw [h'.data sd i s (hl.queue sd i ▸ hs), h.data sd i s hs, hl.info sd i s hs]
    obtain ⟨h1, h2, h3, h4⟩ := Resting.mk.inj hd
    rcases hc' : c'.pool.pool.cell s with ⟨i1, n1, p1, r1, q1, s1⟩
    rcases hc : c.pool.pool.cell s with ⟨i2, n2, p2, r2, q2, s2⟩
    simp only [nextOf, prevOf, hc, hc'] at hn hp h1 h2 h3 h4
    rw [hn, hp, h1, h2, h3, h4]
  · obtain ⟨h1, h2, -⟩ := hlinks sd i (hlt hi)
    exact ⟨h1, h2⟩
  · rw [(h'.level sd i (hl.band ▸ hlt hi)).volume, (h.level sd i (hlt hi)).volume]
    exact hl.volume sd i
  · rw [(h'.level sd i (hl.band ▸ hlt hi)).count, (h.level sd i (hlt hi)).count, hl.queue]
  · rw [h'.bitmap, h.bitmap, hl.band]
  · rw [Bool.eq_iff_iff, h'.bit, h.bit, hl.queue]
  · rw [h'.findId_eq, h.findId_eq, hl.find]

end Transfer

section Commute

/-- A call of the book, next to the ladder's. -/
theorem Rep.step_eq (h : Rep finLaws c a) (hw : a.Wf) (op : Op) :
    ∃ c', c.step op = some (c', (a.step op).2) ∧ Rep finLaws c' (a.step op).1 ∧
      (a.step op).1.Wf := by
  obtain ⟨c', hc', hr⟩ := h.step hw op trivial
  exact ⟨c', hc', hr, hw.step op⟩

theorem Rep.commute (h : Rep finLaws c a) (hw : a.Wf) (hs : a.Swaps f g) : c.Commute f g := by
  obtain ⟨cf, hcf, hrf, hwf⟩ := h.step_eq hw f
  obtain ⟨cg, hcg, hrg, hwg⟩ := h.step_eq hw g
  obtain ⟨cfg, hcfg, hrfg, hwfg⟩ := hrf.step_eq hwf g
  obtain ⟨cgf, hcgf, hrgf, hwgf⟩ := hrg.step_eq hwg f
  obtain ⟨tf, tg, ⟨h1, h2⟩, h3, h4⟩ := hs.trades
  rw [hs.result.2] at hcfg
  rw [hs.result.1] at hcgf
  refine ⟨cf, cg, cfg, cgf, _, _, tf, tg, ⟨hcf, hcfg⟩, ⟨hcg, hcgf⟩, ⟨?_, ?_⟩, ⟨?_, ?_⟩,
    hrfg.sameLevels hrgf hwfg.toSep hwgf.toSep hs.alike, ?_, ?_⟩
  · rw [hrf.logger, h.logger, h1]
  · rw [hrfg.logger, hrf.logger, h2]
  · rw [hrg.logger, h.logger, h3]
  · rw [hrgf.logger, hrg.logger, h4]
  · rw [hrgf.tob, hrfg.tob, hs.tob]
  · rw [hrgf.live, hrfg.live, hs.live]

end Commute

section Split

variable {fill : Bool} {m n : UInt32} {new new' : List Trade}

theorem Rep.splits (h : Rep finLaws c a) (hw : a.Wf) (hp : a.Parts fill id m n new new') :
    c.Splits (lower fill id m) (lower fill id n) (lower fill id (m + n)) new new' := by
  obtain ⟨c₁, hc₁, hr₁, hw₁⟩ := h.step_eq hw (lower fill id m)
  obtain ⟨c₂, hc₂, hr₂, hw₂⟩ := hr₁.step_eq hw₁ (lower fill id n)
  obtain ⟨c', hc', hr', hw'⟩ := h.step_eq hw (lower fill id (m + n))
  rw [hp.result] at hc'
  refine ⟨c₁, c₂, c', _, _, ⟨hc₁, hc₂⟩, hc', ?_, ?_,
    hr'.sameLevels hr₂ hw'.toSep hw₂.toSep hp.same.alike, ?_, ?_, ?_⟩
  · rw [hr₂.logger, hp.trades, h.logger]
  · rw [hr'.logger, hp.trades', h.logger]
  · rw [hr₂.tob, hr'.tob, hp.same.tob]
  · rw [hr₂.live, hr'.live, hp.same.live]
  · rw [hr₂.freeSlots_eq hw₂.toSep, hr'.freeSlots_eq hw'.toSep, hp.same.free]

end Split

section Runs

variable {band cap : ℕ} (hband : 0 < band) (hband' : band < 2 ^ 32) (hcap : 0 < cap)
  (hcap' : cap < 2 ^ 32)

include hband hband' hcap hcap'

/-- After every run, two events on different orders may come in either order. -/
theorem run_commute (ops : List Op) (hf : f.On x) (hg : g.On y) (hxy : x ≠ y) :
    ∃ c, (fresh band cap).run ops = some c ∧ c.Commute f g := by
  obtain ⟨c, hrun, hrep, hw⟩ := run_fresh hband hband' hcap hcap' ops
  exact ⟨c, hrun, hrep.commute hw (hw.swaps hf hg hxy)⟩

/-- After every run, a fill or a reduction may be made in two steps. -/
theorem run_splits (ops : List Op) (id : OrderId) (m n : UInt32)
    (hsum : m.toNat + n.toNat < 2 ^ 32) : ∃ c, (fresh band cap).run ops = some c ∧
      (∃ new new', c.Splits (.executeOrder id m) (.executeOrder id n) (.executeOrder id (m + n))
        new new' ∧ (new.map Trade.qty).sum = (new'.map Trade.qty).sum ∧
        ∃ price, ∀ t ∈ new ++ new', t.price = price) ∧
      c.Splits (.reduceOrderQty id m) (.reduceOrderQty id n) (.reduceOrderQty id (m + n)) [] [] := by
  obtain ⟨c, hrun, hrep, hw⟩ := run_fresh hband hband' hcap hcap' ops
  have hadd : (m + n).toNat = m.toNat + n.toNat := by
    rw [UInt32.toNat_add, Nat.mod_eq_of_lt hsum]
  obtain ⟨new, new', hfill⟩ := hw.parts true id hadd
  obtain ⟨none, none', hreduce⟩ := hw.parts false id hadd
  obtain ⟨rfl, rfl⟩ := hreduce.quiet rfl
  exact ⟨c, hrun, ⟨new, new', hrep.splits hw hfill, hfill.sum, hfill.price⟩, hrep.splits hw hreduce⟩

end Runs

section Examples

/-- Bids at 100 and at 99, the best one alone at its level. -/
def twoBids : List Op := [.insertLimitOrder 1 .BUY 100 5, .insertLimitOrder 2 .BUY 99 7]

/-- The fill of order 1 makes order 2 the best one, if that is still there. -/
theorem run_commute_twoBids : ∃ c, (fresh 16 4).run twoBids = some c ∧
    c.Commute (.executeOrder 1 5) (.cancelOrder 2) :=
  run_commute (by decide) (by decide) (by decide) (by decide) twoBids rfl rfl (by decide)

theorem run_splits_twoBids : ∃ c, (fresh 16 4).run twoBids = some c ∧
    (∃ new new', c.Splits (.executeOrder 1 3) (.executeOrder 1 4) (.executeOrder 1 (3 + 4)) new new' ∧
      (new.map Trade.qty).sum = (new'.map Trade.qty).sum ∧
      ∃ price, ∀ t ∈ new ++ new', t.price = price) ∧
    c.Splits (.reduceOrderQty 1 3) (.reduceOrderQty 1 4) (.reduceOrderQty 1 (3 + 4)) [] [] :=
  run_splits (by decide) (by decide) (by decide) (by decide) twoBids 1 3 4 (by decide)

end Examples

end Nanomatch
