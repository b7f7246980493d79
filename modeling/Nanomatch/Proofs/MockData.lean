import Nanomatch.MockData
import Nanomatch.Proofs.MmapParser

/-!
# The mock feed is well formed

Whatever numbers `random` gives, the orders of the feed have the ids 1, 2 and so on, and a
cancellation names an order that was placed before it and that no other cancellation names. All
numbers fit their fields, so the feed packs.
-/

namespace Nanomatch

namespace MockRecord

variable {r : MockRecord} {records : List MockRecord}

def insertedId (r : MockRecord) : Option ℕ := if r.type = 'L'.toUInt8 then some r.orderId else none

def cancelledId (r : MockRecord) : Option ℕ := if r.type = 'C'.toUInt8 then some r.orderId else none

def insertedIds (records : List MockRecord) : List ℕ := records.filterMap insertedId

def cancelledIds (records : List MockRecord) : List ℕ := records.filterMap cancelledId

/-- The record of an order that seeds side `side` of the book, at a price from `low` to `high`. -/
inductive Seeds (low high side : ℕ) : MockRecord → Prop
  | order {id price qty : ℕ} : low ≤ price → price ≤ high → 1 ≤ qty → qty ≤ 100 →
      Seeds low high side ⟨id, price, qty, side, 'L'.toUInt8⟩

/-- The record of an action of the second loop. -/
inductive Acts : MockRecord → Prop
  | limit {id price qty side : ℕ} :
      1 ≤ price ∧ price ≤ 5 ∨ 95 ≤ price ∧ price ≤ 105 ∨ 1000 ≤ price ∧ price ≤ 5000 →
      1 ≤ qty → qty ≤ 150 → side < 2 → Acts ⟨id, price, qty, side, 'L'.toUInt8⟩
  | market {qty side : ℕ} : 5 ≤ qty → qty ≤ 50 → side < 2 → Acts ⟨0, 0, qty, side, 'M'.toUInt8⟩
  | cancel {id side : ℕ} : side < 2 → Acts ⟨id, 0, 0, side, 'C'.toUInt8⟩

/-- All numbers of the feed lie in the ranges that they are drawn from: a bid and an ask for each of
the `seeds` rounds of the first loop, and then the actions of the second. -/
def Drawn (seeds : ℕ) (records : List MockRecord) : Prop :=
  ∃ (pairs : List (MockRecord × MockRecord)) (actions : List MockRecord),
    records = (pairs.flatMap fun x => [x.1, x.2]) ++ actions ∧ pairs.length = seeds ∧
    (∀ x ∈ pairs, Seeds 90 99 0 x.1 ∧ Seeds 101 110 1 x.2) ∧ ∀ r ∈ actions, Acts r

/-- The numbers of a record, whichever draw they are of. -/
inductive Small : MockRecord → Prop
  | limit {id price qty side : ℕ} : price ≤ 5000 → qty ≤ 150 → side < 2 →
      Small ⟨id, price, qty, side, 'L'.toUInt8⟩
  | market {qty side : ℕ} : qty ≤ 50 → side < 2 → Small ⟨0, 0, qty, side, 'M'.toUInt8⟩
  | cancel {id side : ℕ} : side < 2 → Small ⟨id, 0, 0, side, 'C'.toUInt8⟩

theorem Seeds.small {low high side : ℕ} (h : Seeds low high side r) (hhigh : high ≤ 5000)
    (hside : side < 2) : r.Small := by
  cases h with
  | order _ hprice _ hqty => exact .limit (hprice.trans hhigh) (hqty.trans (by decide)) hside

theorem Acts.small (h : r.Acts) : r.Small := by
  cases h with
  | limit hprice _ hqty hside => exact .limit (by omega) hqty hside
  | market _ hqty hside => exact .market hqty hside
  | cancel hside => exact .cancel hside

theorem Drawn.small {seeds : ℕ} (h : Drawn seeds records) : ∀ r ∈ records, r.Small := by
  obtain ⟨pairs, actions, rfl, -, hpairs, hactions⟩ := h
  intro r hr
  rcases List.mem_append.1 hr with hr | hr
  · obtain ⟨x, hx, hr⟩ := List.mem_flatMap.1 hr
    obtain ⟨hbid, hask⟩ := hpairs x hx
    rcases List.mem_pair.1 hr with rfl | rfl
    · exact hbid.small (by decide) (by decide)
    · exact hask.small (by decide) (by decide)
  · exact (hactions r hr).small

end MockRecord

open MockRecord

namespace MockFeed

variable {random : ℕ → ℕ} {g : MockFeed} {r : MockRecord} {ids : List ℕ} {idx n seeds actions : ℕ}

section Draws

theorem randint_le (r : ℕ) {a b : ℕ} (h : a ≤ b) : a ≤ randint r a b ∧ randint r a b ≤ b := by
  have := Nat.mod_lt r (by omega : 0 < b - a + 1)
  unfold randint
  omega

theorem swapPop_perm (h : idx < ids.length) :
    (swapPop ids idx ++ [ids.getD idx 0]).Perm ids := by
  obtain ⟨init, last, rfl⟩ : ∃ init last, ids = init ++ [last] :=
    ⟨ids.dropLast, ids.getLast (List.length_pos_iff.1 (by omega)),
      (List.dropLast_append_getLast _).symm⟩
  rw [List.length_append, List.length_singleton] at h
  unfold swapPop
  rcases Nat.lt_or_ge idx init.length with hlt | hge
  · have hset : (init ++ [last]).set idx ((init ++ [last]).getLastD 0) =
        init.set idx last ++ [last] := by
      rw [List.set_append_left _ _ hlt]
      simp
    have hget : (init ++ [last]).getD idx 0 = init[idx] := by
      rw [List.getD_eq_getElem?_getD, List.getElem?_append_left hlt, List.getElem?_eq_getElem hlt]
      rfl
    rw [hset, hget, List.dropLast_concat, List.set_eq_take_append_cons_drop, if_pos hlt]
    have hinit : init = init.take idx ++ init[idx] :: init.drop (idx + 1) := by
      rw [← List.drop_eq_getElem_cons hlt, List.take_append_drop]
    conv_rhs => rw [hinit]
    rw [List.append_assoc, List.append_assoc]
    refine List.Perm.append_left _ ?_
    -- the last id and the one at `idx` change places
    exact (List.perm_append_singleton init[idx] (last :: init.drop (idx + 1))).trans
      ((List.perm_append_singleton last (init.drop (idx + 1))).symm.cons _)
  · obtain rfl : idx = init.length := by omega
    simp

end Draws

section Sound

/-- What holds of the feed after every round. -/
structure Sound (g : MockFeed) : Prop where
  pos : 1 ≤ g.nextId
  inserted : insertedIds g.records = List.range' 1 (g.nextId - 1)
  active : (g.activeIds ++ cancelledIds g.records).Perm (insertedIds g.records)
  earlier : ∀ before r after, g.records = before ++ r :: after →
    ∀ id, r.cancelledId = some id → id ∈ insertedIds before

theorem sound_empty : Sound {} where
  pos := le_rfl
  inserted := rfl
  active := .refl _
  earlier before r after h := absurd h.symm (by simp)

theorem insertedIds_append (records : List MockRecord) (r : MockRecord) :
    insertedIds (records ++ [r]) = insertedIds records ++ r.insertedId.toList := by
  rw [insertedIds, List.filterMap_append, List.filterMap_cons]
  cases r.insertedId <;> rfl

theorem cancelledIds_append (records : List MockRecord) (r : MockRecord) :
    cancelledIds (records ++ [r]) = cancelledIds records ++ r.cancelledId.toList := by
  rw [cancelledIds, List.filterMap_append, List.filterMap_cons]
  cases r.cancelledId <;> rfl

/-- The last record may name the orders that were placed before it. -/
theorem Sound.earlier_append (h : g.Sound) (hr : ∀ id, r.cancelledId = some id →
    id ∈ insertedIds g.records) : ∀ before r' after, g.records ++ [r] = before ++ r' :: after →
    ∀ id, r'.cancelledId = some id → id ∈ insertedIds before := by
  intro before r' after heq id hid
  rcases List.eq_nil_or_concat after with rfl | ⟨after, last, rfl⟩
  · obtain ⟨rfl, hlast⟩ := List.append_inj' heq rfl
    exact hr id (List.singleton_inj.1 hlast ▸ hid)
  · rw [List.concat_eq_append, ← List.cons_append, ← List.append_assoc] at heq
    exact h.earlier before r' after (List.append_inj' heq rfl).1 id hid

theorem Sound.limitOrder (h : g.Sound) (price qty side : ℕ) :
    (g.limitOrder price qty side).Sound where
  pos := Nat.le_add_left 1 g.nextId
  inserted := by
    have hpos := h.pos
    have hrange : List.range' 1 ((g.limitOrder price qty side).nextId - 1) =
        List.range' 1 (g.nextId - 1) ++ [g.nextId] := by
      obtain ⟨n, hn⟩ := Nat.exists_eq_add_of_le hpos
      have hnext : (g.limitOrder price qty side).nextId - 1 = n + 1 := by
        simp only [MockFeed.limitOrder, append]
        omega
      rw [hnext, hn, Nat.add_sub_cancel_left, List.range'_concat, Nat.one_mul]
    exact (insertedIds_append _ _).trans (by rw [h.inserted, hrange]; rfl)
  active := by
    have hcancelled : cancelledIds (g.limitOrder price qty side).records =
        cancelledIds g.records := (cancelledIds_append _ _).trans (List.append_nil _)
    have hinserted : insertedIds (g.limitOrder price qty side).records =
        insertedIds g.records ++ [g.nextId] := insertedIds_append _ _
    rw [hcancelled, hinserted]
    have hmove : (g.activeIds ++ [g.nextId] ++ cancelledIds g.records).Perm
        (g.activeIds ++ cancelledIds g.records ++ [g.nextId]) := by
      rw [List.append_assoc, List.append_assoc]
      exact List.perm_append_comm.append_left _
    exact hmove.trans (h.active.append_right _)
  earlier := h.earlier_append fun id hid => absurd hid.symm (Option.some_ne_none id)

theorem Sound.market (h : g.Sound) (qty side : ℕ) :
    (g.append ⟨0, 0, qty, side, 'M'.toUInt8⟩).Sound where
  pos := h.pos
  inserted := (insertedIds_append _ _).trans ((List.append_nil _).trans h.inserted)
  active := by
    have hcancelled : cancelledIds (g.append ⟨0, 0, qty, side, 'M'.toUInt8⟩).records =
        cancelledIds g.records := (cancelledIds_append _ _).trans (List.append_nil _)
    have hinserted : insertedIds (g.append ⟨0, 0, qty, side, 'M'.toUInt8⟩).records =
        insertedIds g.records := (insertedIds_append _ _).trans (List.append_nil _)
    rw [hcancelled, hinserted]
    exact h.active
  earlier := h.earlier_append fun id hid => absurd hid.symm (Option.some_ne_none id)

theorem Sound.cancel (h : g.Sound) (side : ℕ) (hidx : idx < g.activeIds.length) :
    Sound { g.append ⟨g.activeIds.getD idx 0, 0, 0, side, 'C'.toUInt8⟩ with
      activeIds := swapPop g.activeIds idx } := by
  set id := g.activeIds.getD idx 0 with hid
  have hperm : (swapPop g.activeIds idx ++ [id]).Perm g.activeIds := swapPop_perm hidx
  have hinserted : insertedIds (g.records ++ [⟨id, 0, 0, side, 'C'.toUInt8⟩]) =
      insertedIds g.records := (insertedIds_append _ _).trans (List.append_nil _)
  have hcancelled : cancelledIds (g.records ++ [⟨id, 0, 0, side, 'C'.toUInt8⟩]) =
      cancelledIds g.records ++ [id] := cancelledIds_append _ _
  have hmem : id ∈ insertedIds g.records :=
    h.active.subset (List.mem_append_left _ (hperm.subset (by simp)))
  refine ⟨h.pos, hinserted.trans h.inserted, ?_, h.earlier_append ?_⟩
  · change (swapPop g.activeIds idx ++ cancelledIds (g.records ++ [_])).Perm
      (insertedIds (g.records ++ [_]))
    rw [hinserted, hcancelled]
    have hmove : (swapPop g.activeIds idx ++ (cancelledIds g.records ++ [id])).Perm
        (swapPop g.activeIds idx ++ [id] ++ cancelledIds g.records) := by
      rw [List.append_assoc]
      exact List.perm_append_comm.append_left _
    exact hmove.trans ((hperm.append_right _).trans h.active)
  · rintro id' hid'
    obtain rfl : id = id' := by simpa [cancelledId] using hid'
    exact hmem

theorem Sound.setDrawn (h : g.Sound) (n : ℕ) : Sound { g with drawn := n } :=
  ⟨h.pos, h.inserted, h.active, h.earlier⟩

theorem Sound.seedRound (h : g.Sound) : (g.seedRound random).Sound :=
  ((h.limitOrder _ _ _).limitOrder _ _ _).setDrawn _

theorem Sound.actionRound (h : g.Sound) : (g.actionRound random).Sound := by
  unfold MockFeed.actionRound
  simp only
  split
  · exact (h.limitOrder _ _ _).setDrawn _
  · exact (h.market _ _).setDrawn _
  · split_ifs with hnil
    · exact h.setDrawn _
    · have hpos := List.length_pos_iff.2 hnil
      have hle := (randint_le (random (g.drawn + 2)) (Nat.zero_le (g.activeIds.length - 1))).2
      exact (h.cancel _ (by omega)).setDrawn _

end Sound

section Ranges

/-- A round of the first loop makes a bid and an ask. -/
theorem seedRound_drawn (random : ℕ → ℕ) (g : MockFeed) : ∃ bid ask,
    (g.seedRound random).records = g.records ++ [bid, ask] ∧ Seeds 90 99 0 bid ∧
      Seeds 101 110 1 ask := by
  obtain ⟨h₁, h₂⟩ := randint_le (random (g.drawn + 0)) (a := 90) (b := 99) (by decide)
  obtain ⟨h₃, h₄⟩ := randint_le (random (g.drawn + 1)) (a := 1) (b := 100) (by decide)
  obtain ⟨h₅, h₆⟩ := randint_le (random (g.drawn + 2)) (a := 101) (b := 110) (by decide)
  obtain ⟨h₇, h₈⟩ := randint_le (random (g.drawn + 3)) (a := 1) (b := 100) (by decide)
  exact ⟨⟨g.nextId, _, _, 0, _⟩, ⟨g.nextId + 1, _, _, 1, _⟩, List.append_assoc _ _ _,
    .order h₁ h₂ h₃ h₄, .order h₅ h₆ h₇ h₈⟩

theorem seeds_drawn (random : ℕ → ℕ) : ∀ seeds, ∃ pairs : List (MockRecord × MockRecord),
    ((seedRound random)^[seeds] {}).records = (pairs.flatMap fun x => [x.1, x.2]) ∧
      pairs.length = seeds ∧ ∀ x ∈ pairs, Seeds 90 99 0 x.1 ∧ Seeds 101 110 1 x.2
  | 0 => ⟨[], rfl, rfl, List.forall_mem_nil _⟩
  | seeds + 1 => by
    obtain ⟨pairs, hrecords, hlen, hpairs⟩ := seeds_drawn random seeds
    obtain ⟨bid, ask, hround, hbid, hask⟩ := seedRound_drawn random ((seedRound random)^[seeds] {})
    rw [Function.iterate_succ_apply', hround, hrecords]
    refine ⟨pairs ++ [(bid, ask)], ?_, by rw [List.length_append, hlen]; rfl, fun x hx => ?_⟩
    · rw [List.flatMap_append, List.flatMap_singleton]
    · rcases List.mem_append.1 hx with hx | hx
      · exact hpairs x hx
      · exact List.mem_singleton.1 hx ▸ ⟨hbid, hask⟩

/-- The price of a limit order of the second loop. -/
theorem price_mem (r₁ r₂ r₃ k : ℕ) {price : ℕ}
    (hprice : price = [randint r₁ 1 5, randint r₂ 95 105, randint r₃ 1000 5000].getD (k % 3) 0) :
    1 ≤ price ∧ price ≤ 5 ∨ 95 ≤ price ∧ price ≤ 105 ∨ 1000 ≤ price ∧ price ≤ 5000 := by
  have hk := Nat.mod_lt k (by decide : 0 < 3)
  rcases hkm : k % 3 with _ | _ | _ | j
  · rw [hkm] at hprice
    exact .inl (hprice ▸ randint_le r₁ (by decide))
  · rw [hkm] at hprice
    exact .inr (.inl (hprice ▸ randint_le r₂ (by decide)))
  · rw [hkm] at hprice
    exact .inr (.inr (hprice ▸ randint_le r₃ (by decide)))
  · omega

/-- A round of the second loop makes at most one record. -/
theorem actionRound_drawn (random : ℕ → ℕ) (g : MockFeed) : ∃ new,
    (g.actionRound random).records = g.records ++ new ∧ ∀ r ∈ new, Acts r := by
  have hside : random (g.drawn + 1) % 2 < 2 := Nat.mod_lt _ (by decide)
  unfold actionRound
  simp only
  split
  · obtain ⟨h₁, h₂⟩ := randint_le (random (g.drawn + 6)) (a := 1) (b := 150) (by decide)
    exact ⟨_, rfl, List.forall_mem_singleton.2 (.limit (price_mem _ _ _ _ rfl) h₁ h₂ hside)⟩
  · obtain ⟨h₁, h₂⟩ := randint_le (random (g.drawn + 2)) (a := 5) (b := 50) (by decide)
    exact ⟨_, rfl, List.forall_mem_singleton.2 (.market h₁ h₂ hside)⟩
  · split_ifs
    · exact ⟨[], (List.append_nil _).symm, List.forall_mem_nil _⟩
    · exact ⟨_, rfl, List.forall_mem_singleton.2 (.cancel hside)⟩

theorem after_drawn (random : ℕ → ℕ) (seeds : ℕ) : ∀ actions,
    Drawn seeds (after random seeds actions).records
  | 0 => by
    obtain ⟨pairs, hrecords, hlen, hpairs⟩ := seeds_drawn random seeds
    exact ⟨pairs, [], hrecords.trans (List.append_nil _).symm, hlen, hpairs, List.forall_mem_nil _⟩
  | actions + 1 => by
    obtain ⟨pairs, acts, hrecords, hlen, hpairs, hacts⟩ := after_drawn random seeds actions
    obtain ⟨new, hnew, hnewActs⟩ := actionRound_drawn random (after random seeds actions)
    unfold after at *
    rw [Function.iterate_succ_apply', hnew, hrecords, List.append_assoc]
    refine ⟨pairs, acts ++ new, rfl, hlen, hpairs, fun r hr => ?_⟩
    exact (List.mem_append.1 hr).elim (hacts r) (hnewActs r)

end Ranges

section Size

/-- A round of the second loop makes at most one record. -/
theorem actionRound_size (random : ℕ → ℕ) (g : MockFeed) :
    (g.actionRound random).nextId ≤ g.nextId + 1 ∧
      g.records.length ≤ (g.actionRound random).records.length ∧
      (g.actionRound random).records.length ≤ g.records.length + 1 := by
  unfold actionRound
  simp only
  split
  · simp [limitOrder, append]
  · simp [append]
  · split_ifs <;> simp [append]

theorem seeds_spec (random : ℕ → ℕ) : ∀ seeds, Sound ((seedRound random)^[seeds] {}) ∧
    ((seedRound random)^[seeds] {}).nextId = 1 + 2 * seeds ∧
    ((seedRound random)^[seeds] {}).records.length = 2 * seeds
  | 0 => ⟨sound_empty, rfl, rfl⟩
  | seeds + 1 => by
    obtain ⟨h, hid, hlen⟩ := seeds_spec random seeds
    rw [Function.iterate_succ_apply']
    refine ⟨h.seedRound, ?_, ?_⟩
    · simp only [seedRound, limitOrder, append, hid]
      omega
    · simp only [seedRound, limitOrder, append, List.length_append, List.length_singleton, hlen]
      omega

theorem after_spec (random : ℕ → ℕ) (seeds : ℕ) : ∀ actions, Sound (after random seeds actions) ∧
    (after random seeds actions).nextId ≤ 1 + 2 * seeds + actions ∧
    2 * seeds ≤ (after random seeds actions).records.length ∧
    (after random seeds actions).records.length ≤ 2 * seeds + actions
  | 0 => by
    obtain ⟨h, hid, hlen⟩ := seeds_spec random seeds
    exact ⟨h, hid.le, hlen.ge, hlen.le⟩
  | actions + 1 => by
    obtain ⟨h, hid, hge, hle⟩ := after_spec random seeds actions
    obtain ⟨hid', hge', hle'⟩ := actionRound_size random (after random seeds actions)
    unfold after at *
    rw [Function.iterate_succ_apply']
    exact ⟨h.actionRound, by omega, by omega, by omega⟩

end Size

/-- What a feed is like: the numbers lie in their ranges, the ids of the orders count up from 1, and a
cancellation names an order before it, which no other cancellation does. -/
structure WellFormed (seeds : ℕ) (records : List MockRecord) : Prop where
  drawn : Drawn seeds records
  inserted : insertedIds records = List.range' 1 (insertedIds records).length
  cancelled : (cancelledIds records).Nodup
  earlier : ∀ before r after, records = before ++ r :: after →
    ∀ id, r.cancelledId = some id → id ∈ insertedIds before

theorem Sound.wellFormed (h : g.Sound) (hdrawn : Drawn seeds g.records) :
    WellFormed seeds g.records where
  drawn := hdrawn
  inserted := by
    rw [h.inserted, List.length_range']
  cancelled := by
    have hnodup : (insertedIds g.records).Nodup := h.inserted ▸ List.nodup_range'
    exact (List.nodup_append.1 (h.active.nodup_iff.2 hnodup)).2.1
  earlier := h.earlier

theorem recordsAfter_spec (random : ℕ → ℕ) (seeds actions : ℕ) :
    WellFormed seeds (recordsAfter random seeds actions) ∧
      2 * seeds ≤ (recordsAfter random seeds actions).length ∧
      (recordsAfter random seeds actions).length ≤ 2 * seeds + actions := by
  obtain ⟨h, -, hge, hle⟩ := after_spec random seeds actions
  exact ⟨h.wellFormed (after_drawn random seeds actions), hge, hle⟩

/-- Every feed is well formed, and of at most a million records. -/
theorem generate_spec (random : ℕ → ℕ) : WellFormed 10000 (generate random) ∧
    20000 ≤ (generate random).length ∧ (generate random).length ≤ 1000000 :=
  recordsAfter_spec random 10000 980000

end MockFeed

end Nanomatch
