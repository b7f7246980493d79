import Nanomatch.Events
import Nanomatch.Proofs.LadderPriority

/-!
# Events on single orders of the ladder

An event takes its order out or takes quantity off it, and then refreshes the top of book at the
order's level. The first of these are independent for different orders. The refreshes are not, but
two of them come to one search for the best level, in the ladder after both events.
-/

namespace Nanomatch

open OrderBook Ladder

namespace Ladder

variable {a a' b : Ladder} {sd : Side} {i j s x y : ℕ} {id : OrderId}

section Top

/-- The cached best level of a side, and the quantity shown for it. -/
def top (a : Ladder) (sd : Side) : ℕ × ℕ := (a.tob.best sd, a.tob.qty sd)

/-- Level `i` if it has orders, else the first level behind it that has. -/
def bestFrom (a : Ladder) (sd : Side) (i : ℕ) : ℕ :=
  if a.queue sd i = [] then firstOf (a.occupied sd i) else i

/-- The top of a side after its refresh at level `i`. -/
def retop (a : Ladder) (sd : Side) (i : ℕ) (p : ℕ × ℕ) : ℕ × ℕ :=
  if i = p.1 then (a.bestFrom sd i, a.volume sd (a.bestFrom sd i)) else p

theorem tob_ext (h : ∀ sd, a'.top sd = a.top sd) : a'.tob = a.tob := by
  obtain ⟨h1, h2⟩ := Prod.mk.inj (h .BUY)
  obtain ⟨h3, h4⟩ := Prod.mk.inj (h .SELL)
  simp only [TopOfBook.best, TopOfBook.qty] at h1 h2 h3 h4
  rcases ha' : a'.tob with ⟨b1, b2, b3, b4⟩
  rcases ha : a.tob with ⟨d1, d2, d3, d4⟩
  rw [ha', ha] at h1 h2 h3 h4
  simp only at h1 h2 h3 h4
  rw [h1, h2, h3, h4]

theorem occupied_congr (hband : a'.band = a.band)
    (hq : ∀ j, a'.queue sd j = [] ↔ a.queue sd j = []) :
    a'.occupied sd i = a.occupied sd i := by
  have ho : a'.outward sd i = a.outward sd i := by cases sd <;> simp [outward, hband]
  rw [occupied, occupied, ho]
  exact List.filter_congr fun j _ => by simp [hq]

theorem retop_congr (hband : a'.band = a.band) (hq : ∀ j, a'.queue sd j = a.queue sd j)
    (hvol : ∀ j, a'.volume sd j = a.volume sd j) (p : ℕ × ℕ) :
    a'.retop sd i p = a.retop sd i p := by
  have hbest : a'.bestFrom sd i = a.bestFrom sd i := by
    unfold bestFrom
    rw [hq, occupied_congr hband fun j => by rw [hq]]
  unfold retop
  rw [hbest, hvol]

/-- The refresh of the top of book, side by side. -/
theorem top_refreshTop (h : a.Sep) (hi : i < a.band) (sd' : Side) : (a.refreshTop sd i).top sd' =
    if sd' = sd then a.retop sd i (a.top sd) else a.top sd' := by
  have hmax := h.level_ne_max hi
  have hstart : i = a.tob.best sd → a.searchStart sd = i := by
    rintro rfl
    cases sd with
    | BUY => exact if_neg hmax
    | SELL => exact if_neg (Nat.not_le_of_lt hi)
  unfold refreshTop retop bestFrom
  by_cases hb : i = a.tob.best sd
  · have hp : i = (a.top sd).1 := hb
    rw [if_pos hb, if_pos hp]
    by_cases hq : a.queue sd i = []
    · rw [if_pos hq, if_pos hq, updateBest, hstart hb]
      cases sd <;> cases sd' <;> rfl
    · rw [if_neg hq, if_neg hq]
      cases sd <;> cases sd' <;> simp [top, setTopQty, TopOfBook.setQty, TopOfBook.best,
        TopOfBook.qty, hb]
  · have hp : i ≠ (a.top sd).1 := hb
    rw [if_neg hb, if_neg hp]
    split_ifs with hsd
    · rw [hsd]
    · rfl

/-- Level `j` changes from `a` to `a'`; it had orders before. -/
structure ChangesAt (a a' : Ladder) (sd : Side) (j : ℕ) : Prop where
  band : a'.band = a.band
  had : a.queue sd j ≠ []
  queue : ∀ i ≠ j, a'.queue sd i = a.queue sd i
  volume : ∀ i ≠ j, a'.volume sd i = a.volume sd i

theorem ChangesAt.occupied (h : ChangesAt a a' sd j) :
    a'.occupied sd i = (a.occupied sd i).filter (a'.queue sd · ≠ []) := by
  have ho : a'.outward sd i = a.outward sd i := by cases sd <;> simp [outward, h.band]
  rw [Ladder.occupied, Ladder.occupied, ho, List.filter_filter]
  refine List.filter_congr fun k _ => ?_
  by_cases hk : k = j
  · simp [hk, h.had]
  · simp [h.queue k hk]

/-- After a search that found level `x`, and a change of level `j`, a refresh there finds what the
search finds after the change. -/
theorem ChangesAt.bestFrom (h : ChangesAt a a' sd j) (hj : j ≠ UINT32_MAX)
    (hi : a.queue sd i = []) :
    a'.retop sd j (a.bestFrom sd i, a.volume sd (a.bestFrom sd i)) =
      (a'.bestFrom sd i, a'.volume sd (a'.bestFrom sd i)) := by
  have hij : i ≠ j := fun he => h.had (he ▸ hi)
  have hi' : a'.queue sd i = [] := (h.queue i hij).trans hi
  have h1 : a.bestFrom sd i = firstOf (a.occupied sd i) := if_pos hi
  have h2 : a'.bestFrom sd i = firstOf (a'.occupied sd i) := if_pos hi'
  rw [h1, h2]
  have hocc := h.occupied (i := i)
  rcases hl : a.occupied sd i with _ | ⟨k, l⟩
  · -- no level is left to find
    rw [hl, List.filter_nil] at hocc
    rw [hocc]
    exact (if_neg hj).trans (Prod.ext rfl (h.volume _ hj.symm).symm)
  · have hk : a.queue sd k ≠ [] := (mem_occupied.1 (hl ▸ List.mem_cons_self)).2
    rw [hl] at hocc
    change a'.retop sd j (k, a.volume sd k) = _
    by_cases hkj : j = k
    · subst hkj
      by_cases hq : a'.queue sd j = []
      · -- the level found is emptied
        have hempty : ∀ m, a'.queue sd m = if m = j then [] else a.queue sd m := by
          intro m
          split_ifs with hm
          · rw [hm, hq]
          · exact h.queue m hm
        have h3 : a'.occupied sd i = l := occupied_of_emptied h.band hempty hl
        have h4 : a'.occupied sd j = l := occupied_of_emptied h.band hempty (occupied_head hl)
        have h5 : a'.bestFrom sd j = firstOf l := (if_pos hq).trans (congrArg firstOf h4)
        rw [retop, if_pos rfl, h5, h3]
      · have h3 : a'.occupied sd i = j :: l.filter (a'.queue sd · ≠ []) := by
          rw [hocc, List.filter_cons_of_pos (by simpa using hq)]
        have h5 : a'.bestFrom sd j = j := if_neg hq
        rw [retop, if_pos rfl, h5, h3]
        rfl
    · have hq : a'.queue sd k ≠ [] := (h.queue k (Ne.symm hkj)).symm ▸ hk
      have h3 : a'.occupied sd i = k :: l.filter (a'.queue sd · ≠ []) := by
        rw [hocc, List.filter_cons_of_pos (by simpa using hq)]
      rw [retop, if_neg hkj, h3]
      exact Prod.ext rfl (h.volume k (Ne.symm hkj)).symm

/-- Two refreshes, after the first of which level `j` changes, come to one. -/
theorem ChangesAt.retop_retop (h : ChangesAt a a' sd j) (hj : j ≠ UINT32_MAX) (p : ℕ × ℕ) :
    a'.retop sd j (a.retop sd i p) =
      if i = p.1 ∨ j = p.1 then a'.retop sd p.1 p else p := by
  have hself : ∀ k, a'.retop sd k (k, p.2) = (a'.bestFrom sd k, a'.volume sd (a'.bestFrom sd k)) :=
    fun k => if_pos rfl
  by_cases hi : i = p.1
  · subst hi
    have hp : a.retop sd p.1 p = (a.bestFrom sd p.1, a.volume sd (a.bestFrom sd p.1)) := if_pos rfl
    have hp' : a'.retop sd p.1 p = (a'.bestFrom sd p.1, a'.volume sd (a'.bestFrom sd p.1)) :=
      if_pos rfl
    rw [if_pos (.inl rfl), hp, hp']
    by_cases hq : a.queue sd p.1 = []
    · exact h.bestFrom hj hq
    · have hb : a.bestFrom sd p.1 = p.1 := if_neg hq
      rw [hb]
      by_cases hjp : j = p.1
      · rw [hjp]
        exact if_pos rfl
      · have hq' : a'.queue sd p.1 ≠ [] := (h.queue p.1 (Ne.symm hjp)).symm ▸ hq
        have hb' : a'.bestFrom sd p.1 = p.1 := if_neg hq'
        rw [hb', h.volume p.1 (Ne.symm hjp)]
        exact if_neg hjp
  · have hp : a.retop sd i p = p := if_neg hi
    rw [hp]
    by_cases hjp : j = p.1
    · rw [if_pos (.inr hjp), hjp]
    · rw [if_neg (by simp [hi, hjp])]
      exact if_neg hjp

end Top

section Hit

/-- The event takes the order `o` out. -/
def takesOut (o : Resting) : Op → Prop
  | .executeOrder _ fillQty => o.qty ≤ fillQty.toNat
  | .reduceOrderQty _ cancelQty => o.qty ≤ cancelQty.toNat
  | _ => True

instance (o : Resting) : DecidablePred (takesOut o)
  | .executeOrder _ _ => inferInstanceAs (Decidable (_ ≤ _))
  | .reduceOrderQty _ _ => inferInstanceAs (Decidable (_ ≤ _))
  | .insertLimitOrder _ _ _ _ => .isTrue trivial
  | .cancelOrder _ => .isTrue trivial
  | .processMarketOrder _ _ => .isTrue trivial

/-- What the event takes off an order that stays. -/
def amountOf : Op → ℕ
  | .executeOrder _ fillQty => fillQty.toNat
  | .reduceOrderQty _ cancelQty => cancelQty.toNat
  | _ => 0

/-- The trades of the event. -/
def tradesOf (base : ℕ) (o : Resting) : Op → List Trade
  | .executeOrder _ fillQty => [⟨o.id, 0, base + o.price, min fillQty.toNat o.qty⟩]
  | _ => []

/-- The event is one that the count of live orders takes note of. -/
def countsOut (o : Resting) : Op → Prop
  | .executeOrder _ fillQty => o.qty ≤ fillQty.toNat
  | _ => False

instance (o : Resting) : DecidablePred (countsOut o)
  | .executeOrder _ _ => inferInstanceAs (Decidable (_ ≤ _))
  | .reduceOrderQty _ _ => .isFalse not_false
  | .insertLimitOrder _ _ _ _ => .isFalse not_false
  | .cancelOrder _ => .isFalse not_false
  | .processMarketOrder _ _ => .isFalse not_false

/-- Whether an event that takes its order out says so. -/
def saysSo : Op → Bool
  | .cancelOrder _ => false
  | _ => true

/-- What an event on the order in slot `s` does. -/
structure Hit (op : Op) (s : ℕ) (a a' : Ladder) : Prop where
  base : a'.base = a.base
  band : a'.band = a.band
  queue : ∀ sd i, a'.queue sd i =
    if takesOut (a.info s) op then (a.queue sd i).erase s else a.queue sd i
  info : ∀ x, a'.info x = if x = s ∧ ¬ takesOut (a.info s) op then
    { a.info x with qty := (a.info x).qty - amountOf op } else a.info x
  find : ∀ k, a'.find k =
    if takesOut (a.info s) op ∧ (a.info s).id = k then NULL_IDX else a.find k
  free : a'.free = if takesOut (a.info s) op then s :: a.free else a.free
  live : a'.live = if countsOut (a.info s) op then a.live - 1 else a.live
  trades : a'.trades = a.trades ++ tradesOf a.base (a.info s) op
  top : ∀ sd, a'.top sd =
    if sd = (a.info s).side then a'.retop sd (a.info s).price (a.top sd) else a.top sd

/-- The refresh does not change what it looks at. -/
theorem retop_refreshTop (a : Ladder) (sd sd' : Side) (i j : ℕ) (p : ℕ × ℕ) :
    (a.refreshTop sd i).retop sd' j p = a.retop sd' j p := by
  obtain ⟨-, hqueue, hinfo, -⟩ := refreshTop_fields a sd i
  have hband := (refreshTop_sizes (a := a) sd i).1
  refine retop_congr hband (fun j => by rw [hqueue]) (fun j => ?_) p
  exact volume_congr (by rw [hqueue]) fun s _ => by rw [hinfo]

/-- The event changes the orders, from `a` to `b`, and then the top of book is refreshed. -/
theorem Hit.of_refresh {op : Op} (hb : b.Sep) (hi : (a.info s).price < b.band)
    (htob : b.tob = a.tob) (hbase : b.base = a.base) (hband : b.band = a.band)
    (hqueue : ∀ sd i, b.queue sd i =
      if takesOut (a.info s) op then (a.queue sd i).erase s else a.queue sd i)
    (hinfo : ∀ x, b.info x = if x = s ∧ ¬ takesOut (a.info s) op then
      { a.info x with qty := (a.info x).qty - amountOf op } else a.info x)
    (hfind : ∀ k, b.find k =
      if takesOut (a.info s) op ∧ (a.info s).id = k then NULL_IDX else a.find k)
    (hfree : b.free = if takesOut (a.info s) op then s :: a.free else a.free)
    (hlive : b.live = if countsOut (a.info s) op then a.live - 1 else a.live)
    (htrades : b.trades = a.trades ++ tradesOf a.base (a.info s) op) :
    Hit op s a (b.refreshTop (a.info s).side (a.info s).price) := by
  have hfields := refreshTop_fields b (a.info s).side (a.info s).price
  have hsizes := refreshTop_sizes (a := b) (a.info s).side (a.info s).price
  refine ⟨?_, hsizes.1.trans hband, fun sd i => ?_, fun x => ?_, fun k => ?_, ?_, ?_, ?_,
    fun sd => ?_⟩
  · rw [← hbase]
    unfold refreshTop
    split_ifs <;> rfl
  · rw [hfields.2.1, hqueue]
  · rw [hfields.2.2.1, hinfo]
  · rw [Ladder.find, Rep.refreshTop_calls]
    exact hfind k
  · rw [← hfree]
    unfold refreshTop
    split_ifs <;> rfl
  · rw [← hlive]
    unfold refreshTop
    split_ifs <;> rfl
  · rw [hfields.2.2.2, htrades]
  · have htop : ∀ sd, b.top sd = a.top sd := fun sd => by rw [Ladder.top, Ladder.top, htob]
    rw [top_refreshTop hb hi, retop_refreshTop, htop, htop]
    split_ifs with hsd
    · rw [hsd]
    · rfl

/-- A partial event refreshes the top of book as one that takes its order out. -/
theorem takePartly_eq (hs : a.Rests s) (amount : ℕ) : a.takePartly s amount =
    (a.take s amount).refreshTop (a.info s).side (a.info s).price := by
  have hq : (a.take s amount).queue (a.info s).side (a.info s).price ≠ [] := List.ne_nil_of_mem hs
  have htob : (a.take s amount).tob = a.tob := rfl
  unfold takePartly refreshTop
  rw [htob, if_neg hq]

theorem Sep.erase_queue (h : a.Sep) (hs : a.Rests s) (sd : Side) (i : ℕ) :
    (a.retire (a.info s).side (a.info s).price s).queue sd i = (a.queue sd i).erase s := by
  rw [retire_queue]
  split_ifs with hc
  · rw [hc.1, hc.2]
  · refine (List.erase_of_not_mem fun hm => hc ?_).symm
    obtain ⟨h1, h2⟩ := h.unique hs hm
    exact ⟨h1, h2⟩

theorem Wf.hit_cancelAt (h : a.Wf) (hs : a.Rests s) {op : Op} (hout : takesOut (a.info s) op)
    (hcount : ¬ countsOut (a.info s) op) (htrades : tradesOf a.base (a.info s) op = []) :
    Hit op s a (a.cancelAt s) := by
  have hsep := h.toSep.retire hs
  refine Hit.of_refresh hsep (h.level_lt hs) rfl rfl rfl (fun sd i => ?_) (fun x => ?_) (fun k => ?_)
    ?_ ?_ ?_
  · rw [if_pos hout, h.toSep.erase_queue hs]
  · rw [if_neg fun hc => hc.2 hout]
    rfl
  · simp only [hout, true_and]
    rfl
  · rw [if_pos hout]
    rfl
  · rw [if_neg hcount]
    rfl
  · rw [htrades, List.append_nil]
    rfl

theorem Wf.hit_takePartly (h : a.Wf) (hs : a.Rests s) {op : Op} (hout : ¬ takesOut (a.info s) op)
    (hcount : ¬ countsOut (a.info s) op) :
    Hit op s a ({ a with trades := a.trades ++ tradesOf a.base (a.info s) op }.takePartly s
      (amountOf op)) := by
  set t : Ladder := { a with trades := a.trades ++ tradesOf a.base (a.info s) op }
  have hw : t.Sep := { h.toSep with }
  rw [takePartly_eq (a := t) hs]
  refine Hit.of_refresh (b := t.take s (amountOf op)) (hw.take s _) (h.level_lt hs) rfl rfl rfl
    (fun sd i => ?_) (fun x => ?_) (fun k => ?_) ?_ ?_ rfl
  · rw [if_neg hout]
    rfl
  · by_cases hx : x = s
    · rw [if_pos ⟨hx, hout⟩, hx]
      exact take_info_self s _
    · rw [if_neg fun hc => hx hc.1]
      exact take_info_of_ne hx _
  · rw [if_neg fun hc => hout hc.1]
    rfl
  · rw [if_neg hout]
    rfl
  · rw [if_neg hcount]
    rfl

theorem Wf.hit_fill (h : a.Wf) (hs : a.Rests s) {op : Op} (hout : takesOut (a.info s) op)
    (hcount : countsOut (a.info s) op) :
    Hit op s a (({ a with trades := a.trades ++ tradesOf a.base (a.info s) op }.retire
      (a.info s).side (a.info s).price s).dropLive.refreshTop (a.info s).side (a.info s).price) := by
  set t : Ladder := { a with trades := a.trades ++ tradesOf a.base (a.info s) op }
  have ht : t.Sep := { h.toSep with }
  obtain ⟨hband, -, htob, hbase, -, -, htrades, -⟩ :=
    retire_fields t (a.info s).side (a.info s).price s
  refine Hit.of_refresh (b := (t.retire (a.info s).side (a.info s).price s).dropLive)
    (ht.retire hs).dropLive (h.level_lt hs) htob hbase hband (fun sd i => ?_) (fun x => ?_)
    (fun k => ?_) ?_ ?_ htrades
  · rw [if_pos hout]
    exact ht.erase_queue hs sd i
  · rw [if_neg fun hc => hc.2 hout]
    rfl
  · simp only [hout, true_and]
    rfl
  · rw [if_pos hout]
    rfl
  · rw [if_pos hcount]
    rfl

theorem Wf.hit_execute (h : a.Wf) (hs : a.Rests s) (id : OrderId) (fillQty : UInt32) :
    Hit (.executeOrder id fillQty) s a (a.executeAt s fillQty.toNat).1 ∧
      (a.executeAt s fillQty.toNat).2 = decide (takesOut (a.info s) (.executeOrder id fillQty)) := by
  unfold Ladder.executeAt
  simp only
  by_cases hle : fillQty.toNat ≥ (a.info s).qty
  · have hout : takesOut (a.info s) (.executeOrder id fillQty) := hle
    rw [if_pos hle]
    exact ⟨h.hit_fill hs hout hle, (decide_eq_true hout).symm⟩
  · have hout : ¬ takesOut (a.info s) (.executeOrder id fillQty) := hle
    rw [if_neg hle]
    exact ⟨h.hit_takePartly hs hout hle, (decide_eq_false hout).symm⟩

/-- An event on a live order. -/
theorem Wf.step_hit (h : a.Wf) (hid : a.find id ≠ NULL_IDX) : ∀ {op : Op}, op.On id →
    Hit op (a.find id) a (a.step op).1 ∧
      (a.step op).2 = (saysSo op && decide (takesOut (a.info (a.find id)) op))
  | .cancelOrder _, rfl => by
    have hs := (h.ids _ hid).1
    simp only [Ladder.step, Ladder.cancelOrder, if_neg hid]
    exact ⟨h.hit_cancelAt hs trivial not_false rfl, rfl⟩
  | .executeOrder _ fillQty, rfl => by
    have hs := (h.ids _ hid).1
    simp only [Ladder.step, Ladder.executeOrder, if_neg hid]
    exact h.hit_execute hs _ fillQty
  | .reduceOrderQty _ cancelQty, rfl => by
    have hs := (h.ids _ hid).1
    simp only [Ladder.step, Ladder.reduceOrderQty, if_neg hid]
    split_ifs with hle
    · have hout : takesOut (a.info (a.find id)) (.reduceOrderQty id cancelQty) := hle
      exact ⟨h.hit_cancelAt hs hout not_false rfl, (decide_eq_true hout).symm⟩
    · have hout : ¬ takesOut (a.info (a.find id)) (.reduceOrderQty id cancelQty) := hle
      have hhit := h.hit_takePartly hs hout not_false
      have hnone : tradesOf a.base (a.info (a.find id)) (.reduceOrderQty id cancelQty) = [] := rfl
      rw [hnone, List.append_nil] at hhit
      exact ⟨hhit, (decide_eq_false hout).symm⟩

/-- An event on an id that is not live does nothing. -/
theorem step_dead (hid : a.find id = NULL_IDX) : ∀ {op : Op}, op.On id → a.step op = (a, false)
  | .cancelOrder _, rfl => by simp only [Ladder.step, Ladder.cancelOrder, if_pos hid]
  | .executeOrder _ _, rfl => by simp only [Ladder.step, Ladder.executeOrder, if_pos hid]
  | .reduceOrderQty _ _, rfl => by simp only [Ladder.step, Ladder.reduceOrderQty, if_pos hid]

end Hit

section Alike

/-- The orders, their levels and their ids are the same. -/
structure Alike (a a' : Ladder) : Prop where
  band : a'.band = a.band
  queue : ∀ sd i, a'.queue sd i = a.queue sd i
  info : ∀ sd i, ∀ s ∈ a.queue sd i, a'.info s = a.info s
  find : ∀ k, a'.find k = a.find k

theorem Alike.volume (h : Alike a a') (sd : Side) (i : ℕ) : a'.volume sd i = a.volume sd i :=
  volume_congr (h.queue sd i) fun s hs => by rw [h.info sd i s hs]

theorem Alike.retop (h : Alike a a') (sd : Side) (i : ℕ) (p : ℕ × ℕ) :
    a'.retop sd i p = a.retop sd i p :=
  retop_congr h.band (h.queue sd) (h.volume sd) p

variable {op f g : Op}

/-- An event leaves the levels alone that its order is not in. -/
theorem Hit.level_other (h : Hit op s a a') (ha : a.Sep) (hs : a.Rests s)
    (hne : ¬ (sd = (a.info s).side ∧ i = (a.info s).price)) :
    a'.queue sd i = a.queue sd i ∧ a'.volume sd i = a.volume sd i := by
  have hnot : s ∉ a.queue sd i := fun hm => hne (ha.unique hs hm)
  have hq : a'.queue sd i = a.queue sd i := by
    rw [h.queue]
    split_ifs
    · exact List.erase_of_not_mem hnot
    · rfl
  refine ⟨hq, volume_congr hq fun x hx => ?_⟩
  rw [h.info, if_neg]
  rintro ⟨rfl, -⟩
  exact hnot hx

theorem Hit.changesAt (h : Hit op s a a') (ha : a.Sep) (hs : a.Rests s) :
    ChangesAt a a' (a.info s).side (a.info s).price where
  band := h.band
  had := List.ne_nil_of_mem hs
  queue _ hi := (h.level_other ha hs fun hc => hi hc.2).1
  volume _ hi := (h.level_other ha hs fun hc => hi hc.2).2

theorem Hit.retop_other (h : Hit op s a a') (ha : a.Sep) (hs : a.Rests s)
    (hsd : sd ≠ (a.info s).side) (p : ℕ × ℕ) : a'.retop sd i p = a.retop sd i p :=
  retop_congr h.band (fun _ => (h.level_other ha hs fun hc => hsd hc.1).1)
    (fun _ => (h.level_other ha hs fun hc => hsd hc.1).2) p

/-- What an event does to another order than its own. -/
theorem Hit.other (h : Hit op s a a') (hx : a.Rests x) (hxs : x ≠ s) :
    a'.Rests x ∧ a'.info x = a.info x := by
  have hinfo : a'.info x = a.info x := by
    rw [h.info, if_neg fun hc => hxs hc.1]
  refine ⟨?_, hinfo⟩
  rw [Rests, hinfo, h.queue]
  split_ifs
  · exact (List.mem_erase_of_ne hxs).2 hx
  · exact hx

end Alike

section Commute

variable {f g : Op} {af ag afg agf : Ladder} {k k' : OrderId}

/-- Two events on different orders give the same orders in either order. -/
theorem Hit.alike_comm (hx : a.Rests x) (hy : a.Rests y) (hxy : x ≠ y) (hf : Hit f x a af)
    (hfg : Hit g y af afg) (hg : Hit g y a ag) (hgf : Hit f x ag agf) : Alike afg agf := by
  have hxg := (hg.other hx hxy).2
  have hyf := (hf.other hy hxy.symm).2
  refine ⟨?_, fun sd i => ?_, fun sd i s _ => ?_, fun k => ?_⟩
  · rw [hgf.band, hg.band, hfg.band, hf.band]
  · rw [hgf.queue, hg.queue, hfg.queue, hf.queue, hxg, hyf]
    split_ifs
    · exact List.erase_comm _ _
    all_goals rfl
  · rw [hgf.info, hfg.info, hxg, hyf, hg.info s, hf.info s]
    by_cases hsx : s = x
    · simp only [hsx, hxy, false_and, if_false, true_and]
    · simp only [hsx, false_and, if_false]
  · rw [hgf.find, hg.find, hfg.find, hf.find, hxg, hyf]
    split_ifs <;> rfl

theorem Hit.live_comm (hx : a.Rests x) (hy : a.Rests y) (hxy : x ≠ y) (hf : Hit f x a af)
    (hfg : Hit g y af afg) (hg : Hit g y a ag) (hgf : Hit f x ag agf) : agf.live = afg.live := by
  rw [hgf.live, hg.live, hfg.live, hf.live, (hg.other hx hxy).2, (hf.other hy hxy.symm).2]
  split_ifs <;> rfl

/-- The top of a side after events on two orders of this side. -/
theorem Hit.top_both (ha : a.Sep) (haf : af.Sep) (hy : a.Rests y) (hxy : x ≠ y)
    (hf : Hit f x a af) (hfg : Hit g y af afg) (hsx : sd = (a.info x).side)
    (hsy : sd = (a.info y).side) : afg.top sd =
      if (a.info x).price = (a.top sd).1 ∨ (a.info y).price = (a.top sd).1 then
        afg.retop sd (a.top sd).1 (a.top sd) else a.top sd := by
  obtain ⟨hyr, hyi⟩ := hf.other hy hxy.symm
  have hchange := hfg.changesAt haf hyr
  have hmax := ha.level_ne_max (ha.level_lt hy)
  rw [hyi, ← hsy] at hchange
  rw [hfg.top, hyi, if_pos hsy, hf.top, if_pos hsx]
  exact hchange.retop_retop hmax _

theorem Hit.top_comm (ha : a.Sep) (haf : af.Sep) (hag : ag.Sep) (hx : a.Rests x) (hy : a.Rests y)
    (hxy : x ≠ y) (hf : Hit f x a af) (hfg : Hit g y af afg) (hg : Hit g y a ag)
    (hgf : Hit f x ag agf) : agf.tob = afg.tob := by
  have hlike := Hit.alike_comm hx hy hxy hf hfg hg hgf
  obtain ⟨hxr, hxi⟩ := hg.other hx hxy
  obtain ⟨hyr, hyi⟩ := hf.other hy hxy.symm
  refine tob_ext fun sd => ?_
  by_cases hsx : sd = (a.info x).side
  · by_cases hsy : sd = (a.info y).side
    · rw [Hit.top_both ha haf hy hxy hf hfg hsx hsy,
        Hit.top_both ha hag hx hxy.symm hg hgf hsy hsx, hlike.retop]
      simp only [or_comm]
    · have hback := hfg.retop_other (i := (a.info x).price) haf hyr (hyi.symm ▸ hsy) (a.top sd)
      rw [hgf.top, hxi, if_pos hsx, hg.top, if_neg hsy, hfg.top, hyi, if_neg hsy, hf.top, if_pos hsx,
        hlike.retop, hback]
  · rw [hgf.top, hxi, if_neg hsx, hfg.top, hyi, hf.top, if_neg hsx, hg.top]
    split_ifs with hsy
    · rw [← hlike.retop]
      exact (hgf.retop_other hag hxr (hxi.symm ▸ hsx) (a.top sd)).symm
    · rfl

/-- Events on different ids of the ladder, in both orders. -/
structure Swaps (a : Ladder) (f g : Op) : Prop where
  alike : Alike ((a.step f).1.step g).1 ((a.step g).1.step f).1
  tob : ((a.step g).1.step f).1.tob = ((a.step f).1.step g).1.tob
  live : ((a.step g).1.step f).1.live = ((a.step f).1.step g).1.live
  result : ((a.step g).1.step f).2 = (a.step f).2 ∧ ((a.step f).1.step g).2 = (a.step g).2
  trades : ∃ tf tg, ((a.step f).1.trades = a.trades ++ tf ∧
      ((a.step f).1.step g).1.trades = (a.step f).1.trades ++ tg) ∧
    ((a.step g).1.trades = a.trades ++ tg ∧
      ((a.step g).1.step f).1.trades = (a.step g).1.trades ++ tf)

theorem Alike.refl (a : Ladder) : Alike a a :=
  ⟨rfl, fun _ _ => rfl, fun _ _ _ _ => rfl, fun _ => rfl⟩

/-- An event on another id leaves an id alone. -/
theorem Wf.find_step (h : a.Wf) (hg : g.On k') (hk : k ≠ k') :
    (a.step g).1.find k = a.find k := by
  by_cases hy : a.find k' = NULL_IDX
  · rw [step_dead hy hg]
  · rw [(h.step_hit hy hg).1.find, (h.ids k' hy).2, if_neg fun hc => hk hc.2.symm]

/-- An event on an id that is not live does nothing before or after another one. -/
theorem Wf.swaps_dead (h : a.Wf) (hf : f.On k) (hg : g.On k') (hk : k ≠ k')
    (hx : a.find k = NULL_IDX) : a.Swaps f g ∧ a.Swaps g f := by
  have h1 : a.step f = (a, false) := step_dead hx hf
  have h2 : (a.step g).1.step f = ((a.step g).1, false) :=
    step_dead ((h.find_step hg hk).trans hx) hf
  have htr : ∃ tg, (a.step g).1.trades = a.trades ++ tg := by
    obtain ⟨-, tg, htg, -⟩ := h.step_met g
    exact ⟨tg, htg⟩
  obtain ⟨tg, htg⟩ := htr
  refine ⟨⟨?_, ?_, ?_, ?_, [], tg, ?_⟩, ⟨?_, ?_, ?_, ?_, tg, [], ?_⟩⟩
  all_goals rw [h1, h2]
  · exact Alike.refl _
  · exact ⟨rfl, rfl⟩
  · exact ⟨⟨(List.append_nil _).symm, htg⟩, htg, (List.append_nil _).symm⟩
  · exact Alike.refl _
  · exact ⟨rfl, rfl⟩
  · exact ⟨⟨htg, (List.append_nil _).symm⟩, (List.append_nil _).symm, htg⟩

theorem Wf.swaps (h : a.Wf) (hf : f.On k) (hg : g.On k') (hk : k ≠ k') : a.Swaps f g := by
  by_cases hx : a.find k = NULL_IDX
  · exact (h.swaps_dead hf hg hk hx).1
  by_cases hy : a.find k' = NULL_IDX
  · exact (h.swaps_dead hg hf hk.symm hy).2
  obtain ⟨hrx, hidx⟩ := h.ids k hx
  obtain ⟨hry, hidy⟩ := h.ids k' hy
  have hne : a.find k ≠ a.find k' := fun he => hk (by rw [← hidx, ← hidy, he])
  obtain ⟨h1, hr1⟩ := h.step_hit hx hf
  obtain ⟨h2, hr2⟩ := h.step_hit hy hg
  have hfy : (a.step f).1.find k' = a.find k' := h.find_step hf hk.symm
  have hfx : (a.step g).1.find k = a.find k := h.find_step hg hk
  obtain ⟨h12, hr12⟩ := (h.step f).step_hit (hfy.symm ▸ hy) hg
  obtain ⟨h21, hr21⟩ := (h.step g).step_hit (hfx.symm ▸ hx) hf
  rw [hfy] at h12 hr12
  rw [hfx] at h21 hr21
  have hix := (h2.other hrx hne).2
  have hiy := (h1.other hry hne.symm).2
  refine ⟨Hit.alike_comm hrx hry hne h1 h12 h2 h21,
    Hit.top_comm h.toSep (h.step f).toSep (h.step g).toSep hrx hry hne h1 h12 h2 h21,
    Hit.live_comm hrx hry hne h1 h12 h2 h21, ⟨?_, ?_⟩,
    tradesOf a.base (a.info (a.find k)) f, tradesOf a.base (a.info (a.find k')) g,
    ⟨h1.trades, ?_⟩, h2.trades, ?_⟩
  · rw [hr21, hr1, hix]
  · rw [hr12, hr2, hiy]
  · rw [h12.trades, h1.base, hiy]
  · rw [h21.trades, h2.base, hix]

end Commute

section Split

/-- A fill, or else a reduction. -/
def lower (fill : Bool) (id : OrderId) (amount : UInt32) : Op :=
  match fill with
  | true => .executeOrder id amount
  | false => .reduceOrderQty id amount

variable {fill : Bool} {m n : UInt32} {o : Resting} {a₁ a₂ : Ladder}

theorem lower_on : (lower fill id m).On id := by cases fill <;> rfl

theorem takesOut_lower : takesOut o (lower fill id m) ↔ o.qty ≤ m.toNat := by
  cases fill <;> exact Iff.rfl

theorem amountOf_lower : amountOf (lower fill id m) = m.toNat := by cases fill <;> rfl

theorem countsOut_lower : countsOut o (lower fill id m) ↔ fill = true ∧ o.qty ≤ m.toNat := by
  cases fill <;> simp [lower, countsOut]

theorem tradesOf_lower {base : ℕ} : tradesOf base o (lower fill id m) =
    if fill then [⟨o.id, 0, base + o.price, min m.toNat o.qty⟩] else [] := by
  cases fill <;> rfl

theorem saysSo_lower : saysSo (lower fill id m) = true := by cases fill <;> rfl

/-- `a'` is what one event makes of `a` and `a₂` what two make of it, one after the other. -/
structure Same (a₂ a' : Ladder) : Prop where
  alike : Alike a' a₂
  tob : a₂.tob = a'.tob
  live : a₂.live = a'.live
  free : a₂.free = a'.free

theorem Same.refl (a : Ladder) : Same a a :=
  ⟨⟨rfl, fun _ _ => rfl, fun _ _ _ _ => rfl, fun _ => rfl⟩,
  rfl, rfl, rfl⟩

/-- The first event has taken the order out, as the whole one does. -/
theorem Hit.same_out (h₁ : Hit (lower fill id m) s a a₁) (h : Hit (lower fill id n) s a a')
    (hm : (a.info s).qty ≤ m.toNat) (hn : (a.info s).qty ≤ n.toNat) : Same a₁ a' := by
  have hlike : Alike a' a₁ := by
    refine ⟨h₁.band.trans h.band.symm, fun sd i => ?_, fun sd i x _ => ?_, fun k => ?_⟩
    · rw [h₁.queue, h.queue, if_pos (takesOut_lower.2 hm), if_pos (takesOut_lower.2 hn)]
    · rw [h₁.info, h.info, if_neg fun hc => hc.2 (takesOut_lower.2 hm),
        if_neg fun hc => hc.2 (takesOut_lower.2 hn)]
    · rw [h₁.find, h.find]
      simp only [takesOut_lower, hm, hn, true_and]
  refine ⟨hlike, tob_ext fun sd => ?_, ?_, ?_⟩
  · rw [h₁.top, h.top, hlike.retop]
  · rw [h₁.live, h.live]
    simp only [countsOut_lower, hm, hn, and_true]
  · rw [h₁.free, h.free, if_pos (takesOut_lower.2 hm), if_pos (takesOut_lower.2 hn)]

/-- The first event has left quantity `n` or more of the order. -/
theorem Hit.same_parts (ha : a.Sep) (ha₁ : a₁.Sep) (hs : a.Rests s) (hlt : m.toNat < (a.info s).qty)
    (hsum : (m + n).toNat = m.toNat + n.toNat) (h₁ : Hit (lower fill id m) s a a₁)
    (h₂ : Hit (lower fill id n) s a₁ a₂) (h : Hit (lower fill id (m + n)) s a a') : Same a₂ a' := by
  have hstay : ¬ takesOut (a.info s) (lower fill id m) := by
    rw [takesOut_lower]
    omega
  have hinfo : a₁.info s = { a.info s with qty := (a.info s).qty - m.toNat } := by
    rw [h₁.info, if_pos ⟨rfl, hstay⟩, amountOf_lower]
  have hqueue : ∀ sd i, a₁.queue sd i = a.queue sd i := fun sd i => by rw [h₁.queue, if_neg hstay]
  have hout : takesOut (a₁.info s) (lower fill id n) ↔
      takesOut (a.info s) (lower fill id (m + n)) := by
    rw [takesOut_lower, takesOut_lower, hinfo, hsum]
    simp only
    omega
  have hcount : countsOut (a₁.info s) (lower fill id n) ↔
      countsOut (a.info s) (lower fill id (m + n)) := by
    rw [countsOut_lower, countsOut_lower, hinfo, hsum]
    refine and_congr_right fun _ => ?_
    simp only
    omega
  have hnot : ¬ countsOut (a.info s) (lower fill id m) := by
    rw [countsOut_lower]
    omega
  have hr₁ : a₁.Rests s := by
    rw [Rests, hinfo, hqueue]
    exact hs
  have hlike : Alike a' a₂ := by
    refine ⟨?_, fun sd i => ?_, fun sd i x hx => ?_, fun k => ?_⟩
    · rw [h₂.band, h₁.band, h.band]
    · rw [h₂.queue, h.queue, hqueue]
      simp only [hout]
    · rw [h₂.info, h.info]
      by_cases hxs : x = s
      · subst hxs
        -- the order is still there, so the whole event has not taken it out
        have hin : ¬ takesOut (a.info x) (lower fill id (m + n)) := by
          intro hc
          rw [h.queue, if_pos hc] at hx
          obtain ⟨rfl, rfl⟩ := ha.unique hs (List.mem_of_mem_erase hx)
          exact (ha.nodup _ _).not_mem_erase hx
        rw [if_pos ⟨rfl, mt hout.1 hin⟩, if_pos ⟨rfl, hin⟩, hinfo]
        simp only [amountOf_lower, hsum, Nat.sub_sub]
      · rw [if_neg fun hc => hxs hc.1, if_neg fun hc => hxs hc.1, h₁.info, if_neg fun hc => hxs hc.1]
    · rw [h₂.find, h.find, h₁.find]
      have hid : (a₁.info s).id = (a.info s).id := by rw [hinfo]
      simp only [hout, hstay, hid, false_and, if_false]
  refine ⟨hlike, tob_ext fun sd => ?_, ?_, ?_⟩
  · have hchange := h₂.changesAt ha₁ hr₁
    have hmax := ha.level_ne_max (ha.level_lt hs)
    have hside : (a₁.info s).side = (a.info s).side := by rw [hinfo]
    have hprice : (a₁.info s).price = (a.info s).price := by rw [hinfo]
    rw [hside, hprice] at hchange
    rw [h₂.top, hside, hprice, h₁.top, h.top]
    split_ifs with hsd
    · rw [hsd, hchange.retop_retop hmax, ← hlike.retop]
      simp only [or_self]
      split_ifs with hp
      · rw [hp]
      · exact (if_neg hp).symm
    · rfl
  · rw [h₂.live, h.live, h₁.live, if_neg hnot]
    simp only [hcount]
  · rw [h₂.free, h.free, h₁.free, if_neg hstay]
    simp only [hout]

/-- What the events of `m` and of `n` on an order, one after the other, are next to one of
`m + n`. -/
structure Parts (a : Ladder) (fill : Bool) (id : OrderId) (m n : UInt32) (new new' : List Trade) :
    Prop where
  same : Same ((a.step (lower fill id m)).1.step (lower fill id n)).1
    (a.step (lower fill id (m + n))).1
  result : (a.step (lower fill id (m + n))).2 = ((a.step (lower fill id m)).2 ||
    ((a.step (lower fill id m)).1.step (lower fill id n)).2)
  trades : ((a.step (lower fill id m)).1.step (lower fill id n)).1.trades = a.trades ++ new
  trades' : (a.step (lower fill id (m + n))).1.trades = a.trades ++ new'
  sum : (new.map Trade.qty).sum = (new'.map Trade.qty).sum
  price : ∃ price, ∀ t ∈ new ++ new', t.price = price
  quiet : fill = false → new = [] ∧ new' = []

theorem parts_dead (fill : Bool) (m n : UInt32) (hid : a.find id = NULL_IDX) :
    a.Parts fill id m n [] [] := by
  have hdead : ∀ {q}, a.step (lower fill id q) = (a, false) := step_dead hid lower_on
  refine ⟨?_, ?_, ?_, ?_, rfl, ⟨0, fun t ht => absurd ht List.not_mem_nil⟩, fun _ => ⟨rfl, rfl⟩⟩
  · simp only [hdead]
    exact Same.refl a
  · simp only [hdead, Bool.or_self]
  · simp only [hdead, List.append_nil]
  · simp only [hdead, List.append_nil]

theorem tradesOf_lower_price {base : ℕ} {t : Trade} (ht : t ∈ tradesOf base o (lower fill id m)) :
    t.price = base + o.price := by
  rw [tradesOf_lower] at ht
  split_ifs at ht
  · rw [List.mem_singleton.1 ht]
  · exact absurd ht List.not_mem_nil

theorem Wf.step_lower (h : a.Wf) (m : UInt32) (hid : a.find id ≠ NULL_IDX) (fill : Bool) :
    Hit (lower fill id m) (a.find id) a (a.step (lower fill id m)).1 ∧
      (a.step (lower fill id m)).2 = (saysSo (lower fill id m) &&
        decide (takesOut (a.info (a.find id)) (lower fill id m))) :=
  h.step_hit hid lower_on

/-- The first event takes the order out, and the second one does not find it. -/
theorem Wf.parts_out (h : a.Wf) (hid : a.find id ≠ NULL_IDX)
    (hsum : (m + n).toNat = m.toNat + n.toNat) (hm : (a.info (a.find id)).qty ≤ m.toNat) :
    a.Parts fill id m n (tradesOf a.base (a.info (a.find id)) (lower fill id m))
      (tradesOf a.base (a.info (a.find id)) (lower fill id (m + n))) := by
  obtain ⟨h1, hr1⟩ := h.step_lower m hid fill
  obtain ⟨h3, hr3⟩ := h.step_lower (m + n) hid fill
  have hmn : (a.info (a.find id)).qty ≤ (m + n).toNat := by omega
  have hdead : (a.step (lower fill id m)).1.find id = NULL_IDX := by
    rw [h1.find, if_pos ⟨takesOut_lower.2 hm, (h.ids id hid).2⟩]
  have h2 : (a.step (lower fill id m)).1.step (lower fill id n) = _ := step_dead hdead lower_on
  refine ⟨?_, ?_, ?_, h3.trades, ?_, ⟨a.base + (a.info (a.find id)).price, fun t ht => ?_⟩, ?_⟩
  · rw [h2]
    exact h1.same_out h3 hm hmn
  · rw [h2, hr1, hr3, saysSo_lower, saysSo_lower]
    simp only [takesOut_lower, hm, hmn, decide_true, Bool.and_self, Bool.or_false]
  · rw [h2]
    exact h1.trades
  · rw [tradesOf_lower, tradesOf_lower]
    split_ifs
    · simp only [List.map_cons, List.map_nil, Nat.min_eq_right hm, Nat.min_eq_right hmn]
    · rfl
  · rcases List.mem_append.1 ht with ht | ht <;> exact tradesOf_lower_price ht
  · rintro rfl
    exact ⟨rfl, rfl⟩

/-- The first event leaves the order there. -/
theorem Wf.parts_stay (h : a.Wf) (hid : a.find id ≠ NULL_IDX)
    (hsum : (m + n).toNat = m.toNat + n.toNat) (hm : m.toNat < (a.info (a.find id)).qty) :
    a.Parts fill id m n (tradesOf a.base (a.info (a.find id)) (lower fill id m) ++
        tradesOf a.base { a.info (a.find id) with qty := (a.info (a.find id)).qty - m.toNat }
          (lower fill id n))
      (tradesOf a.base (a.info (a.find id)) (lower fill id (m + n))) := by
  obtain ⟨h1, hr1⟩ := h.step_lower m hid fill
  obtain ⟨h3, hr3⟩ := h.step_lower (m + n) hid fill
  have hstay : ¬ takesOut (a.info (a.find id)) (lower fill id m) := by
    rw [takesOut_lower]
    omega
  have hfind : (a.step (lower fill id m)).1.find id = a.find id := by
    rw [h1.find, if_neg fun hc => hstay hc.1]
  obtain ⟨h2, hr2⟩ := (h.step (lower fill id m)).step_lower n (hfind.symm ▸ hid) fill
  have hinfo : (a.step (lower fill id m)).1.info (a.find id) =
      { a.info (a.find id) with qty := (a.info (a.find id)).qty - m.toNat } := by
    rw [h1.info, if_pos ⟨rfl, hstay⟩, amountOf_lower]
  rw [hfind] at h2 hr2
  refine ⟨?_, ?_, ?_, h3.trades, ?_, ⟨a.base + (a.info (a.find id)).price, fun t ht => ?_⟩, ?_⟩
  · exact h1.same_parts h.toSep (h.step _).toSep (h.ids id hid).1 hm hsum h2 h3
  · rw [hr1, hr2, hr3, saysSo_lower, saysSo_lower, saysSo_lower, hinfo, decide_eq_false hstay]
    simp only [takesOut_lower, Bool.true_and, Bool.false_or, decide_eq_decide]
    omega
  · rw [h2.trades, h1.trades, h1.base, hinfo, List.append_assoc]
  · rw [tradesOf_lower, tradesOf_lower, tradesOf_lower]
    split_ifs
    · simp only [List.map_append, List.map_cons, List.map_nil, List.sum_append, List.sum_cons,
        List.sum_nil]
      omega
    · rfl
  · rcases List.mem_append.1 ht with ht | ht
    · rcases List.mem_append.1 ht with ht | ht
      · exact tradesOf_lower_price ht
      · have hprice := tradesOf_lower_price ht
        exact hprice
    · exact tradesOf_lower_price ht
  · rintro rfl
    exact ⟨rfl, rfl⟩

theorem Wf.parts (h : a.Wf) (fill : Bool) (id : OrderId)
    (hsum : (m + n).toNat = m.toNat + n.toNat) : ∃ new new', a.Parts fill id m n new new' := by
  by_cases hid : a.find id = NULL_IDX
  · exact ⟨[], [], parts_dead fill m n hid⟩
  rcases Nat.lt_or_ge m.toNat (a.info (a.find id)).qty with hm | hm
  · exact ⟨_, _, h.parts_stay hid hsum hm⟩
  · exact ⟨_, _, h.parts_out hid hsum hm⟩

end Split

end Ladder

end Nanomatch
