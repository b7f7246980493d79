import Nanomatch.Lib.Simulation
import Nanomatch.Proofs.IdTableRuns

/-!
# The book over its hash table is the book over the finite map

A run of the constructor's book whose erases are all safe does what the same run does over the
finite map that the table stands for: the same results, the same trades, the same orders in the same
slots. Ids may be used again. So what holds of every run over the finite map holds of these runs of
the code.
-/

namespace Nanomatch

open OrderBook Ladder

variable {M M' : Type} [IdMapOps M] [IdMapOps M'] {L : IdMapLaws M} {L' : IdMapLaws M'} {a : Ladder}
  {e : ℕ}

section Compare

/-- Two books that stand for one ladder are the same book. -/
theorem Rep.sameBook {c : OrderBook M} {d : OrderBook M'} (h : Rep L c a) (h' : Rep L' d a)
    (ha : a.Sep) (hg : L.Good a.calls) (hg' : L'.Good a.calls) : c.SameBook d := by
  have hlt : ∀ {sd i}, i < (c.levels sd).size → i < a.band := fun {sd i} hi => h.levels sd ▸ hi
  have hlinks : ∀ sd, ∀ i < a.band, (d.levelAt sd i).headIdx = (c.levelAt sd i).headIdx ∧
      (d.levelAt sd i).tailIdx = (c.levelAt sd i).tailIdx ∧
      ∀ s ∈ a.queue sd i, d.nextOf s = c.nextOf s ∧ d.prevOf s = c.prevOf s := fun sd i hi =>
    (h.level sd i hi).links.seg.links_eq (h'.level sd i hi).links.seg
  refine ⟨?_, ?_, ⟨?_, ?_⟩, ?_, ?_, fun sd => ?_, fun sd i hi => ?_, fun sd i hi s hs => ?_,
    fun sd i hi hq => ?_, fun sd p => ?_, fun k => ?_⟩
  · rw [h'.tob, h.tob]
  · rw [h'.logger, h.logger]
  · rw [h'.base, h.base]
  · rw [h'.baseSet, h.baseSet]
  · rw [h'.live, h.live]
  · rw [h'.freeSlots_eq ha, h.freeSlots_eq ha]
  · rw [h'.levels, h.levels]
  · rw [h'.slots_eq ha sd (hlt hi), h.slots_eq ha sd (hlt hi)]
  · rw [h.slots_eq ha sd (hlt hi)] at hs
    obtain ⟨hn, hp⟩ := (hlinks sd i (hlt hi)).2.2 s hs
    have hd : (d.pool.pool.cell s).resting = (c.pool.pool.cell s).resting := by
      rw [h'.data sd i s hs, h.data sd i s hs]
    obtain ⟨h1, h2, h3, h4⟩ := Resting.mk.inj hd
    rcases hd' : d.pool.pool.cell s with ⟨i1, n1, p1, r1, q1, s1⟩
    rcases hc : c.pool.pool.cell s with ⟨i2, n2, p2, r2, q2, s2⟩
    simp only [nextOf, prevOf, hc, hd'] at hn hp h1 h2 h3 h4
    rw [hn, hp, h1, h2, h3, h4]
  · rw [h.slots_eq ha sd (hlt hi)] at hq
    obtain ⟨hhead, htail, -⟩ := hlinks sd i (hlt hi)
    have hprice := (h'.price sd i hq).trans (h.price sd i hq).symm
    have hvol := (h'.level sd i (hlt hi)).volume.trans (h.level sd i (hlt hi)).volume.symm
    have hcount := (h'.level sd i (hlt hi)).count.trans (h.level sd i (hlt hi)).count.symm
    rcases hd' : d.levelAt sd i with ⟨p1, v1, b1, t1, n1⟩
    rcases hc : c.levelAt sd i with ⟨p2, v2, b2, t2, n2⟩
    simp only [hc, hd'] at hhead htail hprice hvol hcount
    rw [hprice, hvol, hhead, htail, hcount]
  · rw [Bool.eq_iff_iff, h'.bit, h.bit]
  · rw [h'.findId hg', h.findId hg]

end Compare

section Simulation

/-- A book over a table of `2 ^ e` entries and one over the finite map, in every state of a run. -/
structure Backed (e : ℕ) (c : OrderBook IdMap) (d : OrderBook FinMap) (a : Ladder) : Prop where
  table : Rep (tableLaws e) c a
  finite : Rep finLaws d a
  wf : a.Wf
  good : (tableLaws e).Good a.calls
  cap : a.cap < 2 ^ e

theorem Backed.sameBook {c : OrderBook IdMap} {d : OrderBook FinMap} (h : Backed e c d a) :
    c.SameBook d :=
  h.table.sameBook h.finite h.wf.toSep h.good trivial

/-- One call whose erases are safe. -/
theorem Backed.step {c : OrderBook IdMap} {d : OrderBook FinMap} (h : Backed e c d a) (op : Op)
    (hsafe : c.SafeErases op) : ∃ c' d', c.step op = some (c', (a.step op).2) ∧
      d.step op = some (d', (a.step op).2) ∧ Backed e c' d' (a.step op).1 := by
  obtain ⟨calls, hcalls, heq⟩ := h.table.callsOf h.wf h.good op
  obtain ⟨hval, hroom⟩ := h.wf.step_room h.cap op h.good.1 h.good.2.1
  have hgood : (tableLaws e).Good (a.step op).1.calls :=
    ⟨hval, hroom, heq ▸ safeCalls_append h.good.2.2 h.table.sync.1 calls (hsafe calls hcalls)⟩
  obtain ⟨c', hc', hrep⟩ := h.table.step h.wf op hgood
  obtain ⟨d', hd', hrep'⟩ := h.finite.step h.wf op trivial
  exact ⟨c', d', hc', hd', hrep, hrep', h.wf.step op, hgood, (h.wf.step_sizes op).2.symm ▸ h.cap⟩

end Simulation

section Runs

/-- The constructor's book. -/
theorem backed_create {band maxOrders : ℕ} (hband : 0 < band) (hband' : band < 2 ^ 32)
    (h1 : 1 ≤ maxOrders) (h30 : maxOrders ≤ 2 ^ 30) : ∃ e,
      Backed e (create band maxOrders) (fresh band maxOrders) (Ladder.new band maxOrders) := by
  obtain ⟨e, he, hsize, hle⟩ := roundUpPow2_double h1 h30
  have hm : maxOrders % 2 ^ 32 = maxOrders := by omega
  have hcreate : create band maxOrders = OrderBook.new band maxOrders (IdMap.new (2 ^ e)) := by
    unfold create
    rw [hsize, hm]
  refine ⟨e, ?_, rep_new (by omega) rfl, new_wf hband hband' (by omega), ⟨?_, ?_, safeCalls_nil⟩, ?_⟩
  · rw [hcreate]
    exact rep_new (by omega) ⟨rfl, IdMap.new_sound he⟩
  · exact fun key val hm => absurd hm List.not_mem_nil
  · intro l hl
    obtain rfl := List.suffix_nil.1 hl
    exact Nat.two_pow_pos e
  · exact lt_of_lt_of_le (by omega : maxOrders < 2 * maxOrders) hle

end Runs

end Nanomatch
