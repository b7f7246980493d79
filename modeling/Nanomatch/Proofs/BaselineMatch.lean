import Nanomatch.Proofs.Baseline

/-!
# Matching on the plain book

A round of the plain book's loop is one trade. Going through a level of the ladder takes as many
rounds as orders it met, and going through a side as many as orders it took out, one more at most.
-/

namespace Nanomatch

open Ladder StlOrderBook

variable {a : Ladder} {b b' b'' : StlOrderBook} {ρ : ℕ → ℕ} {sd : Side} {crosses : ℕ → Bool}
  {i p qty qty' qty'' k k' : ℕ} {n : ListNode} {rest : List ListNode} {t : OrderId}

section Rounds

/-- `k` rounds of the loop lead from `b` with `qty` left to `b'` with `qty'` left. -/
def Rounds (sd : Side) (crosses : ℕ → Bool) (k : ℕ) (b : StlOrderBook) (qty : ℕ) (b' : StlOrderBook)
    (qty' : ℕ) : Prop :=
  ∀ fuel, matchLoop sd crosses (k + fuel) b qty = matchLoop sd crosses fuel b' qty'

/-- The loop ends at `b`. -/
def Stops (sd : Side) (crosses : ℕ → Bool) (b : StlOrderBook) (qty : ℕ) : Prop :=
  ∀ fuel, matchLoop sd crosses (fuel + 1) b qty = some (b, qty)

theorem Rounds.refl (b : StlOrderBook) (qty : ℕ) : Rounds sd crosses 0 b qty b qty :=
  fun fuel => by rw [Nat.zero_add]

theorem Rounds.trans (h : Rounds sd crosses k b qty b' qty')
    (h' : Rounds sd crosses k' b' qty' b'' qty'') :
    Rounds sd crosses (k + k') b qty b'' qty'' := fun fuel => by rw [Nat.add_assoc, h, h']

theorem stops_zero : Stops sd crosses b 0 := fun _ => rfl

theorem stops_of_best (h : ∀ p, b.best sd = some p → crosses p = false) : Stops sd crosses b qty := by
  intro fuel
  rw [matchLoop]
  split_ifs
  · rcases hb : b.best sd with _ | p
    · rfl
    · simp [h p hb]
  · rfl

theorem rounds_full (hqty : 0 < qty) (hb : b.best sd = some p) (hc : crosses p = true)
    (hl : b.level sd p = n :: rest) (hle : n.qty ≤ qty) :
    Rounds sd crosses 1 b qty ((b.eraseId n.id).setLevel sd p rest) (qty - min qty n.qty) := by
  intro fuel
  rw [Nat.add_comm, matchLoop, if_pos hqty, hb]
  simp only [hc, if_true, hl]
  rw [if_pos (by omega)]

theorem rounds_part (hqty : 0 < qty) (hb : b.best sd = some p) (hc : crosses p = true)
    (hl : b.level sd p = n :: rest) (hlt : qty < n.qty) :
    Rounds sd crosses 1 b qty
      (b.setLevel sd p ({ n with qty := n.qty - min qty n.qty } :: rest)) 0 := by
  intro fuel
  rw [Nat.add_comm, matchLoop, if_pos hqty, hb]
  simp only [hc, if_true, hl]
  rw [if_neg (by omega), Nat.min_eq_left hlt.le, Nat.sub_self]

end Rounds

section Fill

variable {s amount : ℕ}

theorem fillOne_free : (a.fillOne sd i t s amount).free =
    if (a.info s).qty ≤ amount then s :: a.free else a.free := by
  by_cases hq : (a.info s).qty ≤ amount
  · simp [fillOne, Nat.sub_eq_zero_of_le hq, hq, retire, unlink, setQueue, trade, Ladder.take,
      Ladder.eraseId, setInfo, release, dropLive]
  · simp [fillOne, Nat.sub_ne_zero_of_lt (Nat.lt_of_not_le hq), hq, trade, Ladder.take, setInfo]

theorem fillOne_find (k : OrderId) : (a.fillOne sd i t s amount).find k =
    if (a.info s).qty ≤ amount ∧ (a.info s).id = k then NULL_IDX else a.find k := by
  have hid := (take_info (a := a) s amount s).1
  by_cases hq : (a.info s).qty ≤ amount
  · simp only [fillOne, Nat.sub_eq_zero_of_le hq, if_true, hq, true_and]
    exact if_congr (iff_of_eq (congrArg (· = k) hid)) rfl rfl
  · simp only [fillOne, Nat.sub_ne_zero_of_lt (Nat.lt_of_not_le hq), if_false, hq, false_and]
    rfl

theorem Same.fillOne_full (h : Same a b ρ) (t : OrderId) (hc : a.Core) (hi : i < a.band)
    (hl : b.level sd (a.base + i) = n :: rest) (hle : (a.info (ρ n.it)).qty ≤ amount) :
    Same (a.fillOne sd i t (ρ n.it) amount) ((b.eraseId n.id).setLevel sd (a.base + i) rest) ρ := by
  have hsq := (h.mem_queue hi (hl ▸ List.mem_cons_self)).1
  obtain ⟨hband, -, hbase, -, -, hinfo, -⟩ :=
    fillOne_fields a sd i (ρ n.it) t amount
  refine (h.remove hc hi (l := []) hl).congr hband hbase (fun sd' j => ?_) (fun k => ?_) ?_
  · rw [fillOne_queue, retire_queue]
    simp [hle]
  · rw [fillOne_find]
    simp [hle]
    rfl
  · intro sd' j x hx
    have hne : x ≠ ρ n.it := ((mem_retire hc.toSep hsq).1 hx).2
    rw [hinfo, take_info_of_ne hne]
    exact ⟨rfl, rfl⟩

theorem Same.fillOne_part (h : Same a b ρ) (t : OrderId) (hs : a.Sep) (hi : i < a.band)
    (hl : b.level sd (a.base + i) = n :: rest) (hlt : amount < (a.info (ρ n.it)).qty) :
    Same (a.fillOne sd i t (ρ n.it) amount)
      (b.setLevel sd (a.base + i) ({ n with qty := n.qty - amount } :: rest)) ρ := by
  obtain ⟨hband, -, hbase, -, -, hinfo, -⟩ :=
    fillOne_fields a sd i (ρ n.it) t amount
  have hle : ¬ (a.info (ρ n.it)).qty ≤ amount := Nat.not_le.2 hlt
  refine (h.take hs hi (l := []) hl amount).congr hband hbase (fun sd' j => ?_) (fun k => ?_) ?_
  · rw [fillOne_queue]
    simp [hle]
    rfl
  · rw [fillOne_find]
    simp [hle]
    rfl
  · intro sd' j x hx
    rw [hinfo]
    exact ⟨rfl, rfl⟩

/-- The rounds that go through the best level. -/
theorem Same.fill (t : OrderId) (crosses : ℕ → Bool) : ∀ (queue : List ℕ) {a : Ladder}
    {b : StlOrderBook} (remaining : ℕ), a.queue sd i = queue → Same a b ρ → a.Core → a.Exact sd →
    a.tob.best sd = i → i < a.band →
    crosses (a.base + i) = true →
    ∃ k b', Rounds sd crosses k b remaining b' (fill sd i t queue a remaining).2 ∧
      Same (fill sd i t queue a remaining).1 b' ρ ∧
      k + a.free.length ≤ (fill sd i t queue a remaining).1.free.length + 1 ∧
      ((fill sd i t queue a remaining).1.queue sd i = [] →
        k + a.free.length ≤ (fill sd i t queue a remaining).1.free.length)
  | [], a, b, remaining, _, h, _, _, _, _, _ =>
    ⟨0, b, Rounds.refl b remaining, h, by simp [Ladder.fill], by simp [Ladder.fill]⟩
  | s :: queue, a, b, remaining, hq, h, hc, hexact, hbest, hi, hcross => by
    rw [Ladder.fill]
    split_ifs with hr
    · subst hr
      exact ⟨0, b, Rounds.refl b 0, h, by simp, by simp⟩
    have hr' : 0 < remaining := Nat.pos_of_ne_zero hr
    have hne : a.queue sd i ≠ [] := hq ▸ List.cons_ne_nil s queue
    -- the front of the plain book's best level is the order in slot `s`
    have hb : b.best sd = some (a.base + i) := by
      rw [h.best hc.toSep hexact (.inr (hbest.symm ▸ hne)), hbest, if_neg (hc.level_ne_max hi)]
    obtain ⟨n, rest, hl⟩ := List.exists_cons_of_ne_nil (mt (h.level_eq_nil hi).1 hne)
    obtain ⟨q, r, hqr, hq1, -⟩ := h.split hi (l := []) hl
    obtain rfl : q = [] := by simpa using hq1.symm
    obtain ⟨rfl, rfl⟩ := List.cons.inj (hq.symm.trans hqr)
    have hnqty := (h.mem_queue hi (hl ▸ List.mem_cons_self)).2.2
    have hs : ρ n.it ∈ a.queue sd i := hq ▸ List.mem_cons_self
    simp only
    rw [hnqty]
    by_cases hle : n.qty ≤ remaining
    · rw [Nat.min_eq_right hle]
      have hround := rounds_full hr' hb hcross hl hle
      rw [Nat.min_eq_right hle] at hround
      have hsame := h.fillOne_full t hc hi hl hnqty.le
      obtain ⟨hband, -, hbase, -, htob, -, -⟩ :=
        fillOne_fields a sd i (ρ n.it) t n.qty
      have hqueue : ∀ sd' j, (a.fillOne sd i t (ρ n.it) n.qty).queue sd' j =
          if sd' = sd ∧ j = i then queue else a.queue sd' j := by
        intro sd' j
        rw [fillOne_queue, hq, List.erase_cons_head]
        simp [hnqty]
      have hexact' : (a.fillOne sd i t (ρ n.it) n.qty).Exact sd := by
        refine hexact.mono hband (by rw [htob]) fun j hj => ?_
        rw [hqueue] at hj
        split_ifs at hj with hc'
        · rw [hc'.2]; exact hne
        · exact hj
      have hfree : (a.fillOne sd i t (ρ n.it) n.qty).free = ρ n.it :: a.free := by
        rw [fillOne_free, if_pos hnqty.le]
      obtain ⟨k, b', hrounds, hsame', hk1, hk2⟩ := Same.fill t crosses queue (remaining - n.qty)
        (by rw [hqueue, if_pos ⟨rfl, rfl⟩]) hsame
        (hc.fillOne hs t n.qty) hexact' (by rw [htob, hbest]) (hband ▸ hi) (hbase ▸ hcross)
      rw [hfree, List.length_cons] at hk1 hk2
      exact ⟨1 + k, b', hround.trans hrounds, hsame', by omega, fun he => by have := hk2 he; omega⟩
    · have hlt := Nat.lt_of_not_le hle
      have hround := rounds_part hr' hb hcross hl hlt
      have hsame := h.fillOne_part t hc.toSep hi hl (hnqty ▸ hlt)
      rw [Nat.min_eq_left hlt.le] at hround ⊢
      rw [Nat.sub_self, fill_zero]
      have hfree : (a.fillOne sd i t (ρ n.it) remaining).free = a.free := by
        rw [fillOne_free, if_neg (by omega)]
      refine ⟨1, _, hround, hsame, by rw [hfree]; omega, fun he => absurd he ?_⟩
      rw [fillOne_queue, if_neg (by omega)]
      exact hne

end Fill

section Sweep

variable {limit : ℕ}

/-- The rounds that go through a side of the book. -/
theorem Same.sweep (t : OrderId) (crosses : ℕ → Bool) : ∀ (levels : List ℕ) {a : Ladder}
    {b : StlOrderBook} (remaining : ℕ), a.candidates sd = levels → Same a b ρ → a.Core → a.Pos →
    a.TopOk sd → a.Exact sd →
    (∀ i < a.band, crosses (a.base + i) = true ↔ sd.Crosses limit i) →
    ∃ k b', Rounds sd crosses k b remaining b' (sweep sd t limit levels a remaining).2 ∧
      Same (sweep sd t limit levels a remaining).1 b' ρ ∧
      k + a.free.length ≤ (sweep sd t limit levels a remaining).1.free.length + 1 ∧
      Stops sd crosses b' (sweep sd t limit levels a remaining).2
  | [], a, b, remaining, hl, h, hc, _, _, hexact, _ => by
    refine ⟨0, b, Rounds.refl b remaining, h, by simp [Ladder.sweep], stops_of_best fun p hp => ?_⟩
    have hnone : b.best sd = none := best_eq_none fun p hp => by
      obtain ⟨i, -, hne⟩ := (h.mem_levels hc.toSep).1 hp
      exact absurd (hl ▸ hexact i hne) List.not_mem_nil
    rw [hnone] at hp
    exact absurd hp (by simp)
  | i :: levels, a, b, remaining, hl, h, hc, hpos, htop, hexact, hcr => by
    have hbest : a.tob.best sd = i := best_of_candidates hc.toSep htop hl
    have hne : a.queue sd i ≠ [] := (mem_candidates.1 (hl ▸ List.mem_cons_self)).2.2
    have hi := hc.toSep.lt_band hne
    have hb : b.best sd = some (a.base + i) := by
      rw [h.best hc.toSep hexact htop, hbest, if_neg (hc.level_ne_max hi)]
    rw [Ladder.sweep]
    split_ifs with hstop
    · refine ⟨0, b, Rounds.refl b remaining, h, by simp, ?_⟩
      rcases hstop with rfl | hx
      · exact stops_zero
      · refine stops_of_best fun p hp => ?_
        obtain rfl := Option.some.inj (hb.symm.trans hp)
        exact Bool.not_eq_true _ ▸ mt (hcr i hi).1 hx
    push Not at hstop
    obtain ⟨k, b1, hrounds, hsame, hk1, hk2⟩ :=
      h.fill t crosses _ remaining rfl hc hexact hbest hi ((hcr i hi).2 hstop.2)
    obtain ⟨h1, h2, h3, h4, h5⟩ := fill_spec (t := t) _ a remaining rfl hc hpos
    simp only
    set r := Ladder.fill sd i t (a.queue sd i) a remaining
    split_ifs with hq
    · have ho : r.1.occupied sd (a.tob.best sd) = levels := by
        refine occupied_of_emptied h3.band (fun j => ?_) (candidates_occupied hl)
        split_ifs with hj
        · rw [hj, hq]
        · exact h3.queue sd j fun hc => hj hc.2
      have hcand := candidates_setTop h1.toSep ho
      have hlv : ∀ j ∈ levels, r.1.queue sd j ≠ [] := fun j hj => (mem_occupied.1 (ho ▸ hj)).2
      have hexact' : (r.1.setTop sd (firstOf levels)).Exact sd := by
        intro j hj
        have hj' : r.1.queue sd j ≠ [] := hj
        rw [hcand]
        have hji : j ≠ i := fun he => hj' (he ▸ hq)
        rw [h3.queue sd j fun hc => hji hc.2] at hj'
        exact (List.mem_cons.1 (hl ▸ hexact j hj')).resolve_left hji
      have hsame' : Same (r.1.setTop sd (firstOf levels)) b1 ρ :=
        hsame.congr rfl rfl (fun _ _ => rfl) (fun _ => rfl) fun _ _ _ _ => ⟨rfl, rfl⟩
      obtain ⟨k', b', hrounds', hsame'', hk', hstops⟩ := Same.sweep t crosses levels r.2
        hcand hsame' (h1.setTop sd _) h2 (setTop_topOk hlv) hexact'
        (by simpa [Ladder.setTop, h3.band, h3.base] using hcr)
      refine ⟨k + k', b', hrounds.trans hrounds', hsame'', ?_, hstops⟩
      have hfree : (r.1.setTop sd (firstOf levels)).free = r.1.free := rfl
      have := hk2 hq
      rw [hfree] at hk'
      omega
    · refine ⟨k, b1, hrounds, ?_, hk1, ?_⟩
      · exact hsame.congr rfl rfl (fun _ _ => rfl) (fun _ => rfl) fun _ _ _ _ => ⟨rfl, rfl⟩
      · simp only [h5.resolve_right hq]
        exact stops_zero

/-- A taker trades on the plain book as it does on the ladder. -/
theorem Same.matched (h : Same a b ρ) (hw : a.Wf) (hs : a.Sound) (sd : Side) (t : OrderId)
    (limit qty : ℕ) (crosses : ℕ → Bool)
    (hcr : ∀ i < a.band, crosses (a.base + i) = true ↔ sd.Crosses limit i) :
    ∃ b', matchLoop sd crosses b.fuel b qty = some (b', (a.matchAgainst sd t limit qty).2) ∧
      Same (a.matchAgainst sd t limit qty).1 b' ρ := by
  obtain ⟨k, b', hrounds, hsame, hk, hstops⟩ := h.sweep t crosses _ qty rfl hw.toCore
    hw.pos (hw.top sd) (hs.exact sd) hcr
  refine ⟨b', ?_, hsame⟩
  have hsw : Swept sd limit a (a.matchAgainst sd t limit qty) := hw.match_spec sd t limit qty
  have hsize := h.size_add_free hw.toCore
  have hfree : (a.matchAgainst sd t limit qty).1.free.length ≤ a.cap := by
    rw [← hsw.frame.cap, ← hsw.core.held_add_free]
    exact Nat.le_add_left _ _
  have hk' : k + a.free.length ≤ (a.matchAgainst sd t limit qty).1.free.length + 1 := hk
  obtain ⟨f, hf⟩ : ∃ f, b.fuel = k + (f + 1) := ⟨b.fuel - k - 1, by rw [fuel]; omega⟩
  rw [hf, hrounds]
  exact hstops f

end Sweep

end Nanomatch
