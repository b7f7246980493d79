import Nanomatch.Proofs.BaselineMatch
import Nanomatch.Proofs.ExactRuns

/-!
# The book agrees with the plain book

Every call on the plain book does to it what the same call does to the ladder, as long as the
window stays where the first insert put it and the pool has room. The book represents the ladder,
so it agrees with the plain book after every run.
-/

namespace Nanomatch

open Ladder StlOrderBook

variable {a : Ladder} {b : StlOrderBook} {ρ : ℕ → ℕ} {sd : Side} {i p qty : ℕ} {id : OrderId}

section Size

theorem sum_length_pushBack {base band : ℕ} (hi : i < band) (sd' : Side) :
    ∑ j ∈ Finset.range band, ((b.pushBack id sd (base + i) qty).level sd' (base + j)).length =
      (∑ j ∈ Finset.range band, (b.level sd' (base + j)).length) + if sd' = sd then 1 else 0 := by
  have hterm : ∀ j, ((b.pushBack id sd (base + i) qty).level sd' (base + j)).length =
      (b.level sd' (base + j)).length + if j = i then (if sd' = sd then 1 else 0) else 0 := by
    intro j
    have hj : base + j = base + i ↔ j = i := by omega
    rw [level_pushBack]
    simp only [hj]
    by_cases hji : j = i <;> by_cases hsd : sd' = sd <;> simp [hji, hsd]
  rw [Finset.sum_congr rfl fun j _ => hterm j, Finset.sum_add_distrib,
    Finset.sum_ite_eq' (Finset.range band), if_pos (Finset.mem_range.2 hi)]

theorem Same.size_pushBack (h : Same a b ρ) (hi : i < a.band) :
    (b.pushBack id sd (a.base + i) qty).size = b.size + 1 := by
  have hwithin : ∀ sd', ∀ p ∈ (b.pushBack id sd (a.base + i) qty).levels sd',
      a.base ≤ p ∧ p < a.base + a.band := by
    intro sd' p hp
    rcases mem_pushBack hp with ⟨-, rfl⟩ | hp
    · exact ⟨Nat.le_add_right _ _, Nat.add_lt_add_left hi _⟩
    · exact h.within sd' p hp
  rw [size_eq hwithin, size_eq h.within, sum_length_pushBack hi, sum_length_pushBack hi]
  cases sd <;> simp <;> omega

end Size

section Ops

theorem Same.refreshTop (h : Same a b ρ) (sd : Side) (i : ℕ) : Same (a.refreshTop sd i) b ρ := by
  unfold Ladder.refreshTop
  split_ifs
  · exact h.congr rfl rfl (fun _ _ => rfl) (fun _ => rfl) fun _ _ _ _ => ⟨rfl, rfl⟩
  · exact h.congr rfl rfl (fun _ _ => rfl) (fun _ => rfl) fun _ _ _ _ => ⟨rfl, rfl⟩
  · exact h

/-- An empty book may be anchored anywhere. -/
theorem Same.anchor (h : Same a b ρ) (hw : a.Wf) (price : ℕ) : Same (a.anchor price) b ρ := by
  unfold Ladder.anchor
  split_ifs with hset
  · exact h
  have hq := hw.unset (Bool.not_eq_true _ ▸ hset)
  have hno : ∀ sd p, p ∉ b.levels sd := by
    intro sd p hp
    obtain ⟨i, -, hne⟩ := (h.mem_levels hw.toSep).1 hp
    exact hne (hq sd i)
  refine { h with level := fun sd i _ => ?_, within := fun sd p hp => absurd hp (hno sd p) }
  rw [StlOrderBook.level_eq_nil (hno sd _)]
  change _ = (a.queue sd i).map _
  rw [hq]
  rfl

theorem Same.processMarketOrder (h : Same a b ρ) (hw : a.Wf) (hs : a.Sound) (sd : Side) (qty : ℕ) :
    ∃ b', b.processMarketOrder sd qty = some b' ∧ Same (a.processMarketOrder sd qty) b' ρ := by
  cases sd with
  | BUY =>
    obtain ⟨b', hb', hsame⟩ := h.matched hw hs .SELL 0 (a.band - 1) qty (fun _ => true)
      fun i hi => ⟨fun _ => Nat.le_sub_one_of_lt hi, fun _ => rfl⟩
    exact ⟨b', bind_some hb' rfl, hsame⟩
  | SELL =>
    obtain ⟨b', hb', hsame⟩ := h.matched hw hs .BUY 0 0 qty (fun _ => true)
      fun i _ => ⟨fun _ => Nat.zero_le i, fun _ => rfl⟩
    exact ⟨b', bind_some hb' rfl, hsame⟩

theorem Same.cancelOrder (h : Same a b ρ) (hw : a.Wf) (id : OrderId) :
    ∃ b' r, b.cancelOrder id = some (b', r) ∧ Same (a.cancelOrder id) b' ρ := by
  unfold StlOrderBook.cancelOrder Ladder.cancelOrder
  have hfind := h.index id
  rcases he : b.idIndex id with _ | e
  · rw [he] at hfind
    have hnull : a.find id = NULL_IDX := hfind
    rw [if_pos hnull]
    exact ⟨b, false, rfl, h⟩
  · rw [he] at hfind
    obtain ⟨x, hx, hxit⟩ := h.entry id e he
    obtain ⟨i, hi, hprice⟩ := h.level_window hx
    rw [hprice] at hx
    have hany : (b.level e.side e.price).any (·.it == e.it) = true :=
      List.any_eq_true.2 ⟨x, hprice ▸ hx, by simp [hxit]⟩
    obtain ⟨n, l, m, -, hit, hl, herase⟩ :=
      List.exists_of_eraseP (p := (·.it == e.it)) (hprice ▸ hx) (by simp [hxit])
    have hnit : n.it = e.it := by simpa using hit
    have hl' : b.level e.side (a.base + i) = l ++ n :: m := hprice ▸ hl
    have hn : n ∈ b.level e.side (a.base + i) := hl' ▸ List.mem_append_right l List.mem_cons_self
    obtain ⟨hsq, hid, -⟩ := h.mem_queue hi hn
    have hslot : a.find id = ρ n.it := by rw [hfind, hnit]; rfl
    have hnull : a.find id ≠ NULL_IDX := by
      have := hw.slot_lt hsq
      have := hw.cap_lt
      rw [hslot]
      simp only [NULL_IDX, UINT32_MAX]
      omega
    have hnid : n.id = id := hid.symm.trans (hslot ▸ (hw.ids id hnull).2)
    have hstep := (h.remove hw.toCore hi hl').refreshTop e.side i
    rw [if_neg hnull]
    simp only [hany, if_true, herase]
    refine ⟨_, true, rfl, ?_⟩
    rw [Ladder.cancelAt, hslot, hw.side_eq hsq, hw.price_eq hsq, hprice]
    have hcomm : (b.setLevel e.side (a.base + i) (l ++ m)).eraseId id =
        (b.eraseId n.id).setLevel e.side (a.base + i) (l ++ m) := by
      rw [hnid]
      cases e.side <;> rfl
    exact hcomm ▸ hstep

/-- A limit order on the plain book, in either direction. -/
theorem insertLimitOrder_eq (b : StlOrderBook) (id : OrderId) (sd : Side) (price qty : ℕ) :
    b.insertLimitOrder id sd price qty =
      (matchLoop sd.other (fun q => decide (sd.other.Crosses price q)) b.fuel b qty).bind fun r =>
        some (if r.2 > 0 then (r.1.pushBack id sd price r.2, true) else (r.1, false)) := by
  cases sd <;> rfl

theorem Same.place (h : Same a b ρ) (hw : a.Wf) (hs : a.Sound) (id : OrderId) (sd : Side) (qty : ℕ)
    (hi : i < a.band)
    (hsize : ∀ b' r, b.insertLimitOrder id sd (a.base + i) qty = some (b', r) → b'.size ≤ a.cap) :
    ∃ b' ρ', b.insertLimitOrder id sd (a.base + i) qty = some (b', (a.place id sd i qty).2) ∧
      Same (a.place id sd i qty).1 b' ρ' := by
  have hcr : ∀ j < a.band, decide (sd.other.Crosses (a.base + i) (a.base + j)) = true ↔
      sd.other.Crosses i j := by
    intro j _
    rw [decide_eq_true_iff]
    cases sd <;> simp [Side.other, Side.Crosses]
  obtain ⟨b1, hb1, hsame⟩ := h.matched hw hs sd.other id i qty
    (fun q => decide (sd.other.Crosses (a.base + i) q)) hcr
  have hsw : Swept sd.other i a (a.matchAgainst sd.other id i qty) := hw.match_spec _ _ _ _
  rw [insertLimitOrder_eq, hb1, Option.bind_some] at hsize ⊢
  unfold Ladder.place
  simp only
  set r := a.matchAgainst sd.other id i qty
  by_cases hr0 : r.2 = 0
  · rw [if_pos hr0, if_neg (by omega)]
    exact ⟨b1, ρ, rfl, hsame⟩
  · rw [if_neg hr0]
    simp only [if_pos (Nat.pos_of_ne_zero hr0)] at hsize ⊢
    rw [← hsw.frame.base] at hsize ⊢
    have hi' : i < r.1.band := hsw.frame.band.symm ▸ hi
    have hle := hsize _ _ rfl
    rw [hsame.size_pushBack hi', ← hsw.frame.cap, ← hsame.size_add_free hsw.core] at hle
    -- the plain book's size leaves a free slot
    obtain ⟨s, free, hf⟩ : ∃ s free, r.1.free = s :: free :=
      List.exists_cons_of_ne_nil fun h0 => by rw [h0, List.length_nil] at hle; omega
    rw [Ladder.rest, hf]
    simp only
    refine ⟨_, Function.update ρ b1.nextIt s, rfl, ?_⟩
    have hpush := hsame.push hsw.core.toSep hf sd hi' id r.2
    split_ifs
    · exact hpush.congr rfl rfl (fun _ _ => rfl) (fun _ => rfl) fun _ _ _ _ => ⟨rfl, rfl⟩
    · exact hpush

end Ops

section Window

/-- What the window of `a` and the prices of the calls to come have to do with `w`. -/
structure AnchoredAt (w : ℕ) (a : Ladder) (calls : List Call) : Prop where
  prices : ∀ price ∈ calls.filterMap Call.insertedPrice, w ≤ price ∧ price < w + a.band
  set : a.baseSet = true → a.base = w
  unset : a.baseSet = false → windowBase a.band calls = w

theorem place_base (hw : a.Wf) (id : OrderId) (sd : Side) (i qty : ℕ) :
    (a.place id sd i qty).1.base = a.base ∧ (a.place id sd i qty).1.baseSet = a.baseSet := by
  have hs : Swept sd.other i a (a.matchAgainst sd.other id i qty) := hw.match_spec _ _ _ _
  obtain ⟨h1, h2, -⟩ := rest_keeps (a := (a.matchAgainst sd.other id i qty).1) id sd i
    (a.matchAgainst sd.other id i qty).2
  unfold Ladder.place
  simp only
  split_ifs
  · exact ⟨hs.frame.base, hs.frame.baseSet⟩
  · exact ⟨h1.trans hs.frame.base, h2.trans hs.frame.baseSet⟩

theorem cancelOrder_base (id : OrderId) : (a.cancelOrder id).base = a.base ∧
    (a.cancelOrder id).baseSet = a.baseSet := by
  unfold Ladder.cancelOrder
  split_ifs
  · exact ⟨rfl, rfl⟩
  · unfold Ladder.cancelAt Ladder.refreshTop
    split_ifs <;> exact ⟨rfl, rfl⟩

theorem processMarketOrder_base (hw : a.Wf) (sd : Side) (qty : ℕ) :
    (a.processMarketOrder sd qty).band = a.band ∧ (a.processMarketOrder sd qty).base = a.base ∧
      (a.processMarketOrder sd qty).baseSet = a.baseSet := by
  cases sd
  · have hs := (hw.match_spec .SELL 0 (a.band - 1) qty).frame
    exact ⟨hs.band, hs.base, hs.baseSet⟩
  · have hs := (hw.match_spec .BUY 0 0 qty).frame
    exact ⟨hs.band, hs.base, hs.baseSet⟩

/-- An inserted price is in the window once the book is anchored. -/
theorem AnchoredAt.inWindow {w : ℕ} {calls : List Call} {price qty : UInt32}
    (h : AnchoredAt w a (.insertLimitOrder id sd price qty :: calls)) :
    (a.anchor price.toNat).base = w ∧ (a.anchor price.toNat).baseSet = true ∧
      (a.anchor price.toNat).InWindow price.toNat := by
  obtain ⟨h1, h2⟩ := h.prices price.toNat (by simp [Call.insertedPrice])
  unfold Ladder.anchor
  split_ifs with hset
  · have hb := h.set hset
    exact ⟨hb, hset, by rw [Ladder.InWindow, hb]; exact ⟨h1, h2⟩⟩
  · have hb : OrderBook.centeredBase a.band price.toNat = w :=
      h.unset (Bool.not_eq_true _ ▸ hset)
    exact ⟨hb, rfl, by simp only [Ladder.InWindow, hb]; exact ⟨h1, h2⟩⟩

/-- Calls that insert nothing leave the window to the next insert. -/
theorem AnchoredAt.next {w : ℕ} {call : Call} {calls : List Call} {a' : Ladder}
    (h : AnchoredAt w a (call :: calls)) (hcall : call.insertedPrice = none)
    (hband : a'.band = a.band) (hbase : a'.base = a.base ∧ a'.baseSet = a.baseSet) :
    AnchoredAt w a' calls where
  prices price hp := by
    rw [hband]
    exact h.prices price (by rwa [List.filterMap_cons_none hcall])
  set hset := hbase.1.trans (h.set (hbase.2.symm.trans hset))
  unset hset := by
    have := h.unset (hbase.2.symm.trans hset)
    rwa [windowBase, List.filterMap_cons_none hcall, ← windowBase, ← hband] at this

end Window

section Runs

variable {w : ℕ} {calls : List Call}

theorem Same.insertLimitOrder (h : Same a b ρ) (hw : a.Wf) (hs : a.Sound) {price qty : UInt32}
    (hanch : AnchoredAt w a (.insertLimitOrder id sd price qty :: calls))
    (hsize : ∀ b' r, b.insertLimitOrder id sd price.toNat qty.toNat = some (b', r) → b'.size ≤ a.cap) :
    ∃ b' ρ', b.insertLimitOrder id sd price.toNat qty.toNat =
        some (b', (a.insertLimitOrder id sd price.toNat qty.toNat).2) ∧
      Same (a.insertLimitOrder id sd price.toNat qty.toNat).1 b' ρ' ∧
      (a.insertLimitOrder id sd price.toNat qty.toNat).1.base = w ∧
      (a.insertLimitOrder id sd price.toNat qty.toNat).1.baseSet = true := by
  obtain ⟨hbase, hset, hin⟩ := hanch.inWindow
  obtain ⟨hw1, -⟩ := hw.anchor price.toNat
  have hs1 : (a.anchor price.toNat).Sound := by
    unfold Ladder.anchor
    split_ifs
    · exact hs
    · exact hs.mono rfl rfl fun _ _ hi => hi
  have hcap : (a.anchor price.toNat).cap = a.cap := by
    unfold Ladder.anchor
    split_ifs <;> rfl
  have hstay : (a.anchor price.toNat).rebaseFor price.toNat = a.anchor price.toNat :=
    if_neg fun hc => hc.1 hin
  have hprice : (a.anchor price.toNat).base + (price.toNat - (a.anchor price.toNat).base) =
      price.toNat := Nat.add_sub_cancel' hin.1
  have hplace : a.insertLimitOrder id sd price.toNat qty.toNat = (a.anchor price.toNat).place id sd
      (price.toNat - (a.anchor price.toNat).base) qty.toNat := by
    unfold Ladder.insertLimitOrder
    simp only [hstay]
    exact if_pos hin
  obtain ⟨hb1, hb2⟩ := place_base hw1 id sd
    (price.toNat - (a.anchor price.toNat).base) qty.toNat
  obtain ⟨b', ρ', hb', hsame⟩ := (h.anchor hw price.toNat).place hw1 hs1 id sd
    qty.toNat (Nat.sub_lt_left_of_lt_add hin.1 hin.2) (by rw [hprice, hcap]; exact hsize)
  rw [hprice] at hb'
  rw [hplace]
  exact ⟨b', ρ', hb', hsame, hb1.trans hbase, hb2.trans hset⟩

theorem Same.step (h : Same a b ρ) (hw : a.Wf) (hs : a.Sound) : ∀ {call : Call},
    AnchoredAt w a (call :: calls) → (∀ b' r, b.step call = some (b', r) → b'.size ≤ a.cap) →
    ∃ b' ρ', b.step call = some (b', (a.step call.op).2) ∧ Same (a.step call.op).1 b' ρ' ∧
      AnchoredAt w (a.step call.op).1 calls ∧ a.SafeStep call.op
  | .insertLimitOrder id sd price qty, hanch, hsize => by
    obtain ⟨b', ρ', hb', hsame, hbase, hset⟩ := h.insertLimitOrder hw hs hanch hsize
    have hband := (hw.step_sizes (.insertLimitOrder id sd price qty)).1
    refine ⟨b', ρ', hb', hsame, ⟨fun p hp => ?_, fun _ => hbase, fun hu => ?_⟩, fun hm => ?_⟩
    · rw [show (a.step (Call.insertLimitOrder id sd price qty).op).1.band = a.band from hband]
      exact hanch.prices p (List.mem_cons_of_mem price.toNat hp)
    · exact absurd (hset.symm.trans hu) Bool.noConfusion
    · -- an anchored book has the price in its window
      obtain ⟨h1, h2⟩ := hanch.prices price.toNat (by simp [Call.insertedPrice])
      rw [← hanch.set hm.1] at h1 h2
      exact absurd ⟨h1, h2⟩ hm.2.1
  | .cancelOrder id, hanch, _ => by
    obtain ⟨b', r, hb', hsame⟩ := h.cancelOrder hw id
    have hband := (hw.step_sizes (.cancelOrder id)).1
    exact ⟨b', ρ, by rw [StlOrderBook.step, hb']; rfl, hsame,
      hanch.next rfl hband (cancelOrder_base id), trivial⟩
  | .processMarketOrder sd qty, hanch, _ => by
    obtain ⟨b', hb', hsame⟩ := h.processMarketOrder hw hs sd qty.toNat
    obtain ⟨h1, h2⟩ := processMarketOrder_base hw sd qty.toNat
    exact ⟨b', ρ, by rw [StlOrderBook.step, hb']; rfl, hsame, hanch.next rfl h1 h2, trivial⟩

theorem StlOrderBook.Fits.size_le {cap : ℕ} : ∀ {calls : List Call} {b : StlOrderBook},
    Fits cap b calls →
    b.size ≤ cap
  | [], _, h => h
  | _ :: _, _, h => h.1

theorem StlOrderBook.Fits.next {cap : ℕ} {call : Call} (h : Fits cap b (call :: calls))
    {b' : StlOrderBook}
    {r : Bool} (hb : b.step call = some (b', r)) : Fits cap b' calls := by
  have := h.2
  rwa [hb] at this

/-- A run of both books, the book representing the ladder. -/
theorem Same.run : ∀ (calls : List Call) {c : OrderBook FinMap} {a : Ladder} {b : StlOrderBook}
    {ρ : ℕ → ℕ}, Rep finLaws c a → a.Wf → a.Sound → Same a b ρ → AnchoredAt w a calls →
    Fits a.cap b calls → ∃ c' b' rs a' ρ', c.runResults (calls.map Call.op) = some (c', rs) ∧
      b.run calls = some (b', rs) ∧ Rep finLaws c' a' ∧ a'.Wf ∧ a'.Sound ∧ Same a' b' ρ'
  | [], c, a, b, ρ, hrep, hw, hs, h, _, _ => ⟨c, b, [], a, ρ, rfl, rfl, hrep, hw, hs, h⟩
  | call :: calls, c, a, b, ρ, hrep, hw, hs, h, hanch, hfits => by
    obtain ⟨b1, ρ1, hb1, hsame, hanch1, hsafe⟩ := h.step hw hs hanch fun b' r hb =>
      (hfits.next hb).size_le
    obtain ⟨c1, hc1, hrep1⟩ := hrep.step hw call.op trivial
    have hcap := (hw.step_sizes call.op).2
    obtain ⟨c', b', rs, a', ρ', hc', hb', hrest⟩ := Same.run calls hrep1 (hw.step call.op)
      (hs.step hw call.op hsafe) hsame hanch1 (hcap.symm ▸ hfits.next hb1)
    exact ⟨c', b', _ :: rs, a', ρ', bind_some hc1 (bind_some hc' rfl),
      bind_some hb1 (bind_some hb' rfl), hrest⟩

end Runs

section Agree

variable {c : OrderBook FinMap}

/-- Two books that hold the orders of one ladder agree. -/
theorem Rep.agree (hrep : Rep finLaws c a) (hw : a.Wf) (hs : a.Sound) (h : Same a b ρ) :
    Agree c b where
  fifo side price := by
    rw [OrderBook.fifo, StlOrderBook.fifo, hrep.base, hrep.levels]
    split_ifs with hp
    · have hi : price - a.base < a.band := Nat.sub_lt_left_of_lt_add hp.1 hp.2
      have hlevel := congrArg (List.map fun x : ℕ × OrderId × ℕ => (⟨x.2.1, x.2.2⟩ : RestingOrder))
        (h.level side (price - a.base) hi)
      have horders := congrArg (List.map fun o : Resting => (⟨o.id, o.qty⟩ : RestingOrder))
        (hrep.orders_map hw.toSep side hi)
      rw [Nat.add_sub_cancel' hp.1] at hlevel
      simp only [List.map_map] at hlevel horders
      exact horders.trans hlevel.symm
    · rw [StlOrderBook.level_eq_nil fun hm => hp (h.within side price hm), List.map_nil]
  best side := by
    rw [h.best hw.toSep (hs.exact side) (hw.top side), ← hrep.tob, ← hrep.base]
    cases side <;> rfl

variable {band cap : ℕ} (hband : 0 < band) (hband' : band < 2 ^ 32) (hcap : 0 < cap)
  (hcap' : cap < 2 ^ 32)

include hband hband' hcap hcap'

/-- As long as prices stay in the first window and the pool has room, the book agrees with the
plain book. -/
theorem run_agrees (calls : List Call) (hwin : InWindow band calls) (hfits : Fits cap {} calls) :
    ∃ c b rs, (fresh band cap).runResults (calls.map Call.op) = some (c, rs) ∧
      ({} : StlOrderBook).run calls = some (b, rs) ∧ Agree c b := by
  have hw := new_wf hband hband' hcap'
  have hlevel : ∀ sd p, ({} : StlOrderBook).level sd p = [] := by
    intro sd p
    cases sd <;> exact Std.TreeMap.getD_emptyc
  have hmem : ∀ sd p, p ∉ ({} : StlOrderBook).levels sd := by
    intro sd p
    cases sd <;> exact Std.TreeMap.not_mem_emptyc
  have hsame : Same (Ladder.new band cap) {} fun n => n :=
    { level := fun sd i _ => by rw [hlevel]; rfl
      tidy := fun sd p hp => absurd hp (hmem sd p)
      within := fun sd p hp => absurd hp (hmem sd p)
      index := fun _ => rfl
      entry := fun _ _ he => absurd he (by simp)
      it_lt := fun sd p n hn => by rw [hlevel] at hn; exact absurd hn List.not_mem_nil }
  obtain ⟨c, b, rs, a, ρ, hc, hb, hrep, hwa, hs, h⟩ := Same.run calls
    (rep_new hcap (L := finLaws) (m := FinMap.init) rfl) hw (new_sound band cap) hsame
    ⟨hwin, fun hset => Bool.noConfusion hset, fun _ => rfl⟩ hfits
  exact ⟨c, b, rs, hc, hb, hrep.agree hwa hs h⟩

end Agree

/-- Two bids at one price are traded against, one of them in part, and the other id is used again. -/
def sampleCalls : List Call := [.insertLimitOrder 1 .BUY 6 5, .insertLimitOrder 2 .BUY 6 4,
  .insertLimitOrder 3 .SELL 6 7, .insertLimitOrder 1 .SELL 8 3, .cancelOrder 1,
  .processMarketOrder .SELL 1]

theorem run_agrees_sample : ∃ c b rs,
    (fresh 10 4).runResults (sampleCalls.map Call.op) = some (c, rs) ∧
    ({} : StlOrderBook).run sampleCalls = some (b, rs) ∧ Agree c b :=
  run_agrees (by decide) (by decide) (by decide) (by decide) sampleCalls (by decide)
    (by decide +kernel)

end Nanomatch
