import Nanomatch.Proofs.ExactRuns
import Nanomatch.Proofs.IdTableRuns
import Nanomatch.Proofs.LadderPriority
import Nanomatch.Proofs.StlOrderBook
import Nanomatch.Proofs.UndoRuns
import Nanomatch.Venue

/-!
# A book holds a listing

A ladder holds a listing if each of its queues is that of the listing, order by order. What the calls
do to the ladder is then what the venue does to the listing, as long as orders that come are admitted.
-/

namespace Nanomatch

open OrderBook Ladder

variable {l : Listing} {a a' : Ladder} {f : Entry → Option Entry} {e : Entry} {id : OrderId}
  {sd : Side} {i s n price band cap : ℕ}

section Entries

/-- An order is left as it is or with another quantity, or it goes. -/
def Entry.Keeps (f : Entry → Option Entry) : Prop :=
  ∀ e e', f e = some e' → e'.id = e.id ∧ e'.side = e.side ∧ e'.price = e.price

theorem Entry.lower_keeps (id : OrderId) (n : ℕ) : Entry.Keeps (Entry.lower id n) := by
  intro e e' he
  unfold Entry.lower at he
  split_ifs at he <;> cases he <;> exact ⟨rfl, rfl, rfl⟩

theorem Entry.without_keeps (id : OrderId) : Entry.Keeps (Entry.without id) := by
  intro e e' he
  unfold Entry.without at he
  split_ifs at he
  cases he
  exact ⟨rfl, rfl, rfl⟩

theorem Entry.lower_of_ne (h : e.id ≠ id) : e.lower id n = some e := if_neg h

theorem Entry.without_of_ne (h : e.id ≠ id) : e.without id = some e := if_neg h

theorem Entry.lower_all (h : e.id = id) (hle : e.qty ≤ n) : e.lower id n = e.without id := by
  rw [Entry.lower, Entry.without, if_pos h, if_pos h, if_pos hle]

theorem Listing.queue_change (hf : Entry.Keeps f) (sd : Side) (price : ℕ) :
    (l.change f).queue sd price = (l.queue sd price).filterMap f := by
  unfold Listing.queue Listing.change
  rw [List.filter_filterMap, List.filterMap_filter]
  refine List.filterMap_congr fun e _ => ?_
  rcases he : f e with _ | e'
  · simp
  · obtain ⟨-, hside, hprice⟩ := hf e e' he
    by_cases hc : e.side = sd ∧ e.price = price <;> simp [hside, hprice, hc, Option.filter]

theorem Entry.Keeps.sublist (hf : Entry.Keeps f) : ∀ orders : List Entry,
    ((orders.filterMap f).map Entry.id).Sublist (orders.map Entry.id)
  | [] => List.Sublist.refl _
  | e :: orders => by
    have ih := Entry.Keeps.sublist hf orders
    rcases he : f e with _ | e'
    · rw [List.filterMap_cons_none he]
      exact ih.cons _
    · rw [List.filterMap_cons_some he, List.map_cons, List.map_cons, (hf e e' he).1]
      exact ih.cons_cons _

theorem Listing.change_eq_self (h : ∀ e ∈ l.orders, f e = some e) : l.change f = l := by
  have hsame : l.orders.filterMap f = l.orders :=
    (List.filterMap_congr h).trans (List.filterMap_some)
  rw [Listing.change, hsame]

theorem Listing.change_congr {g : Entry → Option Entry} (h : ∀ e ∈ l.orders, f e = g e) :
    l.change f = l.change g := by
  rw [Listing.change, Listing.change, List.filterMap_congr h]

theorem Listing.queue_add (sd : Side) (price : ℕ) : (l.add e).queue sd price =
    l.queue sd price ++ if e.side = sd ∧ e.price = price then [e] else [] := by
  unfold Listing.queue Listing.add
  rw [List.filter_append]
  congr 1
  by_cases hc : e.side = sd ∧ e.price = price <;> simp [hc]

end Entries

namespace Ladder

section Lists

/-- The order in a slot, with its absolute price. -/
def entry (a : Ladder) (s : ℕ) : Entry where
  id := (a.info s).id
  side := (a.info s).side
  price := a.base + (a.info s).price
  qty := (a.info s).qty

/-- The ladder holds the orders of the listing. -/
structure Lists (band cap : ℕ) (a : Ladder) (l : Listing) : Prop where
  band_eq : a.band = band
  cap_eq : a.cap = cap
  sound : a.Sound
  named : a.Named
  unset : l.first = none → a.baseSet = false
  anchor : ∀ p, l.first = some p → a.baseSet = true ∧ a.base = centeredBase band p
  queue : ∀ sd price, (a.queueAt sd price).map a.entry = l.queue sd price
  distinct : (l.orders.map Entry.id).Nodup
  trades : a.trades = l.executions

theorem new_lists (band cap : ℕ) : (new band cap).Lists band cap {} where
  band_eq := rfl
  cap_eq := rfl
  sound := new_sound band cap
  named := new_named band cap
  unset _ := rfl
  anchor _ h := absurd h.symm (Option.some_ne_none _)
  queue sd price := by
    rw [queueAt_new]
    rfl
  distinct := List.nodup_nil
  trades := rfl

theorem Lists.mem_iff (h : a.Lists band cap l) (hw : a.Wf) :
    e ∈ l.orders ↔ ∃ s, a.Rests s ∧ a.entry s = e := by
  constructor
  · intro he
    have hq : e ∈ l.queue e.side e.price := List.mem_filter.2 ⟨he, by simp⟩
    rw [← h.queue] at hq
    obtain ⟨s, hs, he⟩ := List.mem_map.1 hq
    obtain ⟨i, -, -, hi⟩ := mem_queueAt hs
    exact ⟨s, hw.rests hi, he⟩
  · rintro ⟨s, hs, rfl⟩
    have hq : a.entry s ∈ (a.queueAt (a.info s).side (a.base + (a.info s).price)).map a.entry := by
      rw [queueAt_add (hw.level_lt hs)]
      exact List.mem_map_of_mem hs
    rw [h.queue] at hq
    exact (List.mem_filter.1 hq).1

theorem Lists.found (h : a.Lists band cap l) (hw : a.Wf) (he : e ∈ l.orders) :
    a.Rests (a.find e.id) ∧ a.entry (a.find e.id) = e := by
  obtain ⟨s, hs, rfl⟩ := (h.mem_iff hw).1 he
  have hfind : a.find (a.entry s).id = s := h.named s hs
  rw [hfind]
  exact ⟨hs, rfl⟩

theorem Lists.find_ne_null (h : a.Lists band cap l) (hw : a.Wf) :
    a.find id ≠ NULL_IDX ↔ ∃ e ∈ l.orders, e.id = id := by
  constructor
  · intro hne
    obtain ⟨hr, hid⟩ := hw.ids id hne
    exact ⟨_, (h.mem_iff hw).2 ⟨_, hr, rfl⟩, hid⟩
  · rintro ⟨e, he, rfl⟩
    obtain ⟨hr, -⟩ := h.found hw he
    exact hw.ne_null (hw.slot_lt hr)

/-- The orders of each queue change as those of the listing do. -/
theorem Lists.change (h : a.Lists band cap l) (hf : Entry.Keeps f) (hband : a'.band = a.band)
    (hcap : a'.cap = a.cap) (hbase : a'.base = a.base) (hset : a'.baseSet = a.baseSet)
    (hsound : a'.Sound) (hnamed : a'.Named) (htrades : a'.trades = a.trades)
    (hqueue : ∀ sd price, (a'.queueAt sd price).map a'.entry =
      ((a.queueAt sd price).map a.entry).filterMap f) : a'.Lists band cap (l.change f) where
  band_eq := hband.trans h.band_eq
  cap_eq := hcap.trans h.cap_eq
  sound := hsound
  named := hnamed
  unset hl := hset.trans (h.unset hl)
  anchor p hl := by
    rw [hset, hbase]
    exact h.anchor p hl
  queue sd price := by rw [hqueue, h.queue, Listing.queue_change hf]
  distinct := h.distinct.sublist (hf.sublist l.orders)
  trades := htrades.trans h.trades

end Lists

section Leave

theorem Lists.trade (h : a.Lists band cap l) (t : Trade) :
    (a.trade t).Lists band cap { l with executions := l.executions ++ [t] } where
  band_eq := h.band_eq
  cap_eq := h.cap_eq
  sound := h.sound.mono rfl rfl fun _ _ hq => hq
  named := h.named
  unset := h.unset
  anchor := h.anchor
  queue := h.queue
  distinct := h.distinct
  trades := congrArg (· ++ [t]) h.trades

theorem Lists.dropLive (h : a.Lists band cap l) : a.dropLive.Lists band cap l :=
  { h with sound := h.sound.mono rfl rfl fun _ _ hq => hq }

theorem queueAt_erase (hw : a.Wf) (hband : a'.band = a.band) (hbase : a'.base = a.base)
    (hqueue : a'.queue = (a.retire (a.info s).side (a.info s).price s).queue) (sd : Side)
    (price : ℕ) : a'.queueAt sd price = (a.queueAt sd price).filter (· ≠ s) := by
  have herase : ∀ i, a'.queue sd i = (a.queue sd i).filter (· ≠ s) := by
    intro i
    have hout : s ∉ a.queue sd i ∨ sd = (a.info s).side ∧ i = (a.info s).price := by
      by_cases hsq : s ∈ a.queue sd i
      · exact .inr ⟨(hw.side_eq hsq).symm, (hw.price_eq hsq).symm⟩
      · exact .inl hsq
    rw [hqueue, retire_queue]
    split_ifs with hc
    · rw [hc.1, hc.2, (hw.nodup _ _).erase_eq_filter]
      exact List.filter_congr fun x _ => by by_cases hx : x = s <;> simp [hx]
    · refine (List.filter_eq_self.2 fun x hx => ?_).symm
      exact decide_eq_true fun he : x = s => hout.elim (fun hnot => hnot (he ▸ hx)) hc
  unfold queueAt
  rw [hband, hbase]
  split_ifs
  · exact herase _
  · rfl

theorem cancelAt_fields (a : Ladder) (s : ℕ) : (a.cancelAt s).base = a.base ∧
    (a.cancelAt s).baseSet = a.baseSet ∧ (a.cancelAt s).trades = a.trades ∧
    (a.cancelAt s).info = a.info ∧
    (a.cancelAt s).queue = (a.retire (a.info s).side (a.info s).price s).queue := by
  unfold cancelAt refreshTop
  split_ifs <;> exact ⟨rfl, rfl, rfl, rfl, rfl⟩

/-- The order of a slot leaves. -/
theorem Lists.cancelAt (h : a.Lists band cap l) (hw : a.Wf) (hs : a.Rests s) :
    (a.cancelAt s).Lists band cap (l.change (Entry.without (a.info s).id)) := by
  obtain ⟨hband, hcap⟩ := cancelAt_sizes (a := a) s
  obtain ⟨hbase, hset, htrades, hinfo, hqueue⟩ := cancelAt_fields a s
  refine h.change (Entry.without_keeps _) hband hcap hbase hset (h.sound.cancelAt hw hs)
    (h.named.leaves (hw.toSep.leaves_cancelAt hs)) htrades fun sd price => ?_
  have hentry : (a.cancelAt s).entry = a.entry := by
    funext x
    rw [entry, entry, hinfo, hbase]
  rw [queueAt_erase hw hband hbase hqueue, hentry, List.filterMap_map,
    ← List.filterMap_eq_map, List.filterMap_filter]
  refine List.filterMap_congr fun x hx => ?_
  obtain ⟨i, -, -, hi⟩ := mem_queueAt hx
  have hsame : (a.entry x).id = (a.info s).id ↔ x = s := by
    refine ⟨fun he => ?_, fun he => he ▸ rfl⟩
    have hx : a.find (a.info x).id = x := h.named x (hw.rests hi)
    have he' : (a.info x).id = (a.info s).id := he
    rw [← hx, he', h.named s hs]
  by_cases hxs : x = s
  · subst hxs
    simp [Entry.without, hsame]
  · simp [Entry.without, mt hsame.1 hxs, hxs]

theorem takePartly_window (a : Ladder) (s amount : ℕ) : (a.takePartly s amount).base = a.base ∧
    (a.takePartly s amount).baseSet = a.baseSet := by
  unfold takePartly
  split_ifs <;> exact ⟨rfl, rfl⟩

/-- The order of a slot loses a part of its quantity. -/
theorem Lists.takePartly (h : a.Lists band cap l) (hw : a.Wf) (hs : a.Rests s)
    (hn : n < (a.info s).qty) :
    (a.takePartly s n).Lists band cap (l.change (Entry.lower (a.info s).id n)) := by
  obtain ⟨hband, hcap⟩ := takePartly_sizes (a := a) s n
  obtain ⟨hbase, hset⟩ := takePartly_window a s n
  obtain ⟨-, hqueue, hinfo, htrades⟩ := takePartly_fields a s n
  refine h.change (Entry.lower_keeps _ _) hband hcap hbase hset (h.sound.takePartly s n)
    (h.named.leaves (leaves_takePartly s n)) htrades fun sd price => ?_
  have hat : (a.takePartly s n).queueAt sd price = a.queueAt sd price := by
    unfold queueAt
    rw [hband, hbase, hqueue]
  rw [hat, List.filterMap_map, ← List.filterMap_eq_map]
  refine List.filterMap_congr fun x hx => ?_
  obtain ⟨i, -, -, hi⟩ := mem_queueAt hx
  have hx : a.find (a.info x).id = x := h.named x (hw.rests hi)
  by_cases hxs : x = s
  · simp [Entry.lower, entry, hinfo, hbase, take, setInfo, hxs, Nat.not_le.2 hn]
  · have hne : (a.info x).id ≠ (a.info s).id := fun he => hxs (by rw [← hx, he, h.named s hs])
    simp [Entry.lower, entry, hinfo, hbase, take, setInfo, hne, hxs]

/-- Where no order has the id, no order is changed. -/
theorem Lists.missing (h : a.Lists band cap l) (hw : a.Wf) (hid : a.find id = NULL_IDX)
    (hf : ∀ e, e.id ≠ id → f e = some e) : l.change f = l :=
  Listing.change_eq_self fun e he => hf e fun heq => (h.find_ne_null hw).2 ⟨e, he, heq⟩ hid

/-- Where an order loses all its quantity, it leaves. -/
theorem Lists.change_lower (h : a.Lists band cap l) (hw : a.Wf) (hs : a.Rests s)
    (hn : (a.info s).qty ≤ n) : l.change (Entry.lower (a.info s).id n) =
      l.change (Entry.without (a.info s).id) := by
  refine Listing.change_congr fun e he => ?_
  by_cases hid : e.id = (a.info s).id
  · obtain ⟨-, hentry⟩ := h.found hw he
    rw [hid, h.named s hs] at hentry
    exact Entry.lower_all hid (hentry ▸ hn)
  · rw [Entry.lower_of_ne hid, Entry.without_of_ne hid]

theorem Lists.cancelOrder (h : a.Lists band cap l) (hw : a.Wf) (id : OrderId) :
    (a.cancelOrder id).Lists band cap (l.change (Entry.without id)) := by
  unfold Ladder.cancelOrder
  split_ifs with hid
  · rwa [h.missing hw hid fun e he => Entry.without_of_ne he]
  · obtain ⟨hr, heq⟩ := hw.ids id hid
    have hc := h.cancelAt hw hr
    rwa [heq] at hc

theorem Lists.reduceOrderQty (h : a.Lists band cap l) (hw : a.Wf) (id : OrderId) (n : ℕ) :
    (a.reduceOrderQty id n).1.Lists band cap (l.change (Entry.lower id n)) := by
  unfold Ladder.reduceOrderQty
  split_ifs with hid hq
  · rwa [h.missing hw hid fun e he => Entry.lower_of_ne he]
  · obtain ⟨hr, heq⟩ := hw.ids id hid
    have hc := h.cancelAt hw hr
    rwa [← h.change_lower hw hr hq, heq] at hc
  · obtain ⟨hr, heq⟩ := hw.ids id hid
    have hc := h.takePartly hw hr (Nat.lt_of_not_le hq)
    rwa [heq] at hc

/-- The execution of an order of the listing. -/
theorem Lists.executeOrder (h : a.Lists band cap l) (hw : a.Wf) (he : e ∈ l.orders) (n : ℕ) :
    (a.executeOrder e.id n).1.Lists band cap { l.change (Entry.lower e.id n) with
      executions := l.executions ++ [⟨e.id, 0, e.price, min n e.qty⟩] } := by
  have hid := (h.find_ne_null hw).2 ⟨e, he, rfl⟩
  obtain ⟨hr, heq⟩ := h.found hw he
  set s := a.find e.id with hs
  have hident : (a.info s).id = e.id := congrArg Entry.id heq
  have hprice : a.base + (a.info s).price = e.price := congrArg Entry.price heq
  have hqty : (a.info s).qty = e.qty := congrArg Entry.qty heq
  have hexec : (a.executeOrder e.id n).1 = (a.executeAt s n).1 := by
    rw [Ladder.executeOrder, if_neg hid]
  rw [hexec]
  have ht := h.trade ⟨(a.info s).id, 0, a.base + (a.info s).price, min n (a.info s).qty⟩
  have hwt := hw.trade ⟨(a.info s).id, 0, a.base + (a.info s).price, min n (a.info s).qty⟩
  unfold executeAt
  simp only
  split_ifs with hq
  · have hlower := ht.change_lower hwt hr hq
    have hc := (ht.cancelAt hwt hr).dropLive
    rw [refreshTop_dropLive]
    rw [← hlower] at hc
    rw [← hident, ← hprice, ← hqty]
    exact hc
  · have hc := ht.takePartly hwt hr (Nat.lt_of_not_le hq)
    rw [← hident, ← hprice, ← hqty]
    exact hc

theorem lower_eq_none {e : Entry} : Entry.lower e.id n e = none ↔ e.qty ≤ n := by
  rw [Entry.lower, if_pos rfl]
  split_ifs with hle <;> simp [hle]

/-- An execution returns true where it leaves nothing of the order. -/
theorem Lists.executeOrder_gone (h : a.Lists band cap l) (hw : a.Wf) (he : e ∈ l.orders) (n : ℕ) :
    (a.executeOrder e.id n).2 = true ↔ Entry.lower e.id n e = none := by
  have hid := (h.find_ne_null hw).2 ⟨e, he, rfl⟩
  have hqty : (a.info (a.find e.id)).qty = e.qty := congrArg Entry.qty (h.found hw he).2
  rw [lower_eq_none, Ladder.executeOrder, if_neg hid, executeAt]
  split_ifs with hq
  · exact ⟨fun _ => hqty ▸ hq, fun _ => rfl⟩
  · exact ⟨fun hc => absurd hc (by simp), fun hc => absurd (hqty ▸ hc) hq⟩

theorem Lists.reduceOrderQty_gone (h : a.Lists band cap l) (hw : a.Wf) (he : e ∈ l.orders) (n : ℕ) :
    (a.reduceOrderQty e.id n).2 = true ↔ Entry.lower e.id n e = none := by
  have hid := (h.find_ne_null hw).2 ⟨e, he, rfl⟩
  have hqty : (a.info (a.find e.id)).qty = e.qty := congrArg Entry.qty (h.found hw he).2
  rw [lower_eq_none, Ladder.reduceOrderQty, if_neg hid]
  split_ifs with hq
  · exact ⟨fun _ => hqty ▸ hq, fun _ => rfl⟩
  · exact ⟨fun hc => absurd hc (by simp), fun hc => absurd (hqty ▸ hc) hq⟩

end Leave

section Insert

/-- A book with fewer orders than slots has a free slot. -/
theorem Lists.exists_free (h : a.Lists band cap l) (hw : a.Wf) (hroom : l.orders.length < cap) :
    ∃ s free, a.free = s :: free := by
  rcases hf : a.free with _ | ⟨s, free⟩
  · have hall : ∀ s < a.cap, a.Rests s := fun s hs =>
      (hw.cover s hs).resolve_left (hf ▸ List.not_mem_nil)
    have hnodup : ((List.range a.cap).map fun s => (a.info s).id).Nodup := by
      refine List.nodup_range.map_on fun s hs x hx he => ?_
      rw [← h.named s (hall s (List.mem_range.1 hs)), ← h.named x (hall x (List.mem_range.1 hx)), he]
    have hsub : ((List.range a.cap).map fun s => (a.info s).id) ⊆ l.orders.map Entry.id := by
      intro id hid
      obtain ⟨s, hs, rfl⟩ := List.mem_map.1 hid
      exact List.mem_map.2 ⟨_, (h.mem_iff hw).2 ⟨s, hall s (List.mem_range.1 hs), rfl⟩, rfl⟩
    have hlen := (List.subperm_of_subset hnodup hsub).length_le
    rw [List.length_map, List.length_map, List.length_range, h.cap_eq] at hlen
    omega
  · exact ⟨s, free, rfl⟩

/-- The window is put in place by the first order. -/
theorem Lists.anchored (h : a.Lists band cap l) (hw : a.Wf) (price : ℕ) :
    (a.anchor price).Lists band cap { l with first := some (l.first.getD price) } := by
  rcases hl : l.first with _ | p
  · have hset := h.unset hl
    have hempty : ∀ sd i, a.queue sd i = [] := hw.unset hset
    have hanchor : a.anchor price =
        { a with base := centeredBase a.band price, baseSet := true } := by
      rw [Ladder.anchor, hset]
      rfl
    have hnil : ∀ {b : Ladder}, b.queue = a.queue → ∀ sd p, b.queueAt sd p = [] := by
      intro b hb sd p
      unfold queueAt
      rw [hb, hempty, ite_self]
    rw [hanchor]
    exact { h with
      sound := h.sound.mono rfl rfl fun _ _ hq => hq
      named := h.named
      unset := fun hc => absurd hc (Option.some_ne_none _)
      anchor := fun p hp => by
        obtain rfl := Option.some.inj hp
        exact ⟨rfl, congrArg (centeredBase · price) h.band_eq⟩
      queue := fun sd p => by
        have hold := h.queue sd p
        rw [hnil rfl] at hold
        rw [@hnil { a with base := centeredBase a.band price, baseSet := true } rfl sd p]
        exact hold }
  · obtain ⟨hset, hbase⟩ := h.anchor p hl
    rw [Ladder.anchor, if_pos hset]
    exact { h with
      unset := fun hc => absurd hc (Option.some_ne_none _)
      anchor := fun p' hp' => by
        obtain rfl := Option.some.inj hp'
        exact ⟨hset, hbase⟩ }

/-- An order that finds a free slot rests behind those at its price. -/
theorem Lists.enter {p qty : ℕ} {free : List ℕ} (h : a.Lists band cap l) (hw : a.Wf)
    (hfirst : l.first = some p) (hi : i < a.band) (hf : a.free = s :: free)
    (hnew : ∀ e ∈ l.orders, e.id ≠ id) (hsound : (a.rest id sd i qty).1.Sound)
    (hnamed : (a.rest id sd i qty).1.Named) :
    (a.rest id sd i qty).1.Lists band cap (l.add ⟨id, sd, a.base + i, qty⟩) := by
  obtain ⟨-, -, hinfo, -⟩ := rest_entered id sd i qty hf
  obtain ⟨hband, hcap⟩ := rest_sizes (a := a) id sd i qty
  obtain ⟨hbase, hset, htrades⟩ := rest_keeps (a := a) id sd i qty
  set a' := (a.rest id sd i qty).1 with ha'
  -- the slot was free, so the orders that were there keep their entries
  have hold : ∀ x, x ≠ s → a'.entry x = a.entry x := fun x hx => by
    rw [entry, entry, hinfo, if_neg hx, hbase]
  have hself : a'.entry s = ⟨id, sd, a.base + i, qty⟩ := by
    rw [entry, hinfo, if_pos rfl, hbase]
  exact
    { band_eq := hband.trans h.band_eq
      cap_eq := hcap.trans h.cap_eq
      sound := hsound
      named := hnamed
      unset := fun hc => absurd hc (Option.some_ne_none _)
      anchor := fun p' hp' => by
        rw [Listing.add, hfirst] at hp'
        rw [hset, hbase]
        exact h.anchor p' (hfirst.trans hp')
      queue := fun sd' p => by
        have hmap : (a.queueAt sd' p).map a'.entry = l.queue sd' p := by
          rw [← h.queue]
          refine List.map_congr_left fun x hx => hold x fun he => ?_
          obtain ⟨j, -, -, hj⟩ := mem_queueAt hx
          exact hw.not_free hj (hf ▸ he ▸ List.mem_cons_self)
        rw [ha', rest_queueAt hi hf, ← ha', Listing.queue_add]
        by_cases hc : sd' = sd ∧ p = a.base + i
        · rw [if_pos hc, if_pos ⟨hc.1.symm, hc.2.symm⟩, List.map_append, hmap, List.map_singleton,
            hself]
        · rw [if_neg hc, if_neg fun he => hc ⟨he.1.symm, he.2.symm⟩, List.append_nil, hmap]
      distinct := by
        rw [Listing.add, List.map_append, List.nodup_append]
        refine ⟨h.distinct, List.nodup_singleton _, ?_⟩
        rintro k hk k' hk' rfl
        obtain ⟨e, he, heq⟩ := List.mem_map.1 hk
        exact hnew e he (heq.trans (List.mem_singleton.1 hk'))
      trades := htrades.trans h.trades }

/-- An order whose price lies in the window goes to its level. -/
theorem Lists.insert_eq_place (h : a.Lists band cap l) (hw : a.Wf)
    (hwin : centeredBase band (l.first.getD price) ≤ price ∧
      price < centeredBase band (l.first.getD price) + band) (id : OrderId) (sd : Side) (qty : ℕ) :
    (a.anchor price).InWindow price ∧ a.insertLimitOrder id sd price qty =
      (a.anchor price).place id sd (price - (a.anchor price).base) qty := by
  have h1 := h.anchored hw price
  obtain ⟨-, hbase1⟩ := h1.anchor _ rfl
  have hin : (a.anchor price).InWindow price := by
    rw [InWindow, hbase1, h1.band_eq]
    exact hwin
  have hfix : (a.anchor price).rebaseFor price = a.anchor price := if_neg fun hc => hc.1 hin
  refine ⟨hin, ?_⟩
  rw [Ladder.insertLimitOrder, hfix]
  exact if_pos hin

/-- An insert in the window keeps the top of book exact, and the ids apart. -/
theorem Lists.insert_sound (h : a.Lists band cap l) (hw : a.Wf) (sd : Side) {price : UInt32}
    (qty : UInt32) (hnew : ∀ e ∈ l.orders, e.id ≠ id)
    (hwin : centeredBase band (l.first.getD price.toNat) ≤ price.toNat ∧
      price.toNat < centeredBase band (l.first.getD price.toNat) + band) :
    (a.insertLimitOrder id sd price.toNat qty.toNat).1.Sound ∧
      (a.insertLimitOrder id sd price.toNat qty.toNat).1.Named := by
  obtain ⟨hin, -⟩ := h.insert_eq_place hw hwin id sd qty.toNat
  constructor
  · refine h.sound.insertLimitOrder hw fun hm => absurd ?_ hm.2.1
    have hsame : a.anchor price.toNat = a := if_pos hm.1
    exact hsame ▸ hin
  · refine hw.named_step h.named (.insertLimitOrder id sd price qty) fun id' _ _ _ hop x hx hid => ?_
    obtain ⟨rfl, -, -, -⟩ := Op.insertLimitOrder.inj hop
    exact hnew _ ((h.mem_iff hw).2 ⟨x, hx, rfl⟩) hid

/-- An order that is admitted rests behind those at its price. -/
theorem Lists.insert (h : a.Lists band cap l) (hw : a.Wf) {price qty : UInt32}
    (hnew : ∀ e ∈ l.orders, e.id ≠ id)
    (hadm : l.Admits band cap ⟨id, sd, price.toNat, qty.toNat⟩) :
    (a.insertLimitOrder id sd price.toNat qty.toNat).2 = true ∧
      (a.insertLimitOrder id sd price.toNat qty.toNat).1.Lists band cap
        (l.add ⟨id, sd, price.toNat, qty.toNat⟩) := by
  have h1 := h.anchored hw price.toNat
  obtain ⟨hw1, -⟩ := hw.anchor price.toNat
  have hwin : centeredBase band (l.first.getD price.toNat) ≤ price.toNat ∧
      price.toNat < centeredBase band (l.first.getD price.toNat) + band := hadm.window
  obtain ⟨hin, hplace⟩ := h.insert_eq_place hw hwin id sd qty.toNat
  obtain ⟨hsound, hnamed⟩ := h.insert_sound hw sd qty hnew hwin
  set a1 := a.anchor price.toNat
  obtain ⟨s, free, hf⟩ := h1.exists_free hw1 hadm.room
  have hnone : a1.matchAgainst sd.other id (price.toNat - a1.base) qty.toNat = (a1, qty.toNat) := by
    refine matchAgainst_none fun i hi hcross => ?_
    obtain ⟨x, hx⟩ := List.exists_mem_of_ne_nil _ hi
    have hside : (a1.entry x).side = sd.other := hw1.side_eq hx
    have hprice : (a1.entry x).price = a1.base + i := congrArg (a1.base + ·) (hw1.price_eq hx)
    refine hadm.passive _ ((h1.mem_iff hw1).2 ⟨x, hw1.rests hx, rfl⟩) hside ?_
    rw [hside, hprice]
    have hle := hin.1
    cases sd <;> simp only [Side.other, Side.Crosses] at hcross ⊢ <;> omega
  have hrest : a.insertLimitOrder id sd price.toNat qty.toNat =
      a1.rest id sd (price.toNat - a1.base) qty.toNat := by
    rw [hplace, place, hnone]
    exact if_neg (Nat.pos_iff_ne_zero.1 hadm.qty)
  rw [hrest] at hsound hnamed ⊢
  have hi : price.toNat - a1.base < a1.band := Nat.sub_lt_left_of_lt_add hin.1 hin.2
  have hl := h1.enter hw1 rfl hi hf hnew hsound hnamed
  rw [Nat.add_sub_cancel' hin.1] at hl
  exact ⟨(rest_entered id sd _ _ hf).1, hl⟩

end Insert

end Ladder

section Shows

variable {c : OrderBook FinMap}

theorem Rep.fifo_eq (h : Rep finLaws c a) (hw : a.Wf) (hl : a.Lists band cap l) (sd : Side)
    (price : ℕ) : c.fifo sd price = l.fifo sd price := by
  rw [OrderBook.fifo, Listing.fifo, ← hl.queue, queueAt, h.base, h.levels]
  split_ifs with hin
  · have horders := congrArg (List.map fun o : Resting => (⟨o.id, o.qty⟩ : RestingOrder))
      (h.orders_map hw.toSep sd (Nat.sub_lt_left_of_lt_add hin.1 hin.2))
    rw [List.map_map, List.map_map] at horders
    rw [List.map_map]
    exact horders
  · rfl

theorem Ladder.Lists.mem_prices (hl : a.Lists band cap l) (hw : a.Wf) :
    price ∈ l.prices sd ↔ ∃ i, a.queue sd i ≠ [] ∧ a.base + i = price := by
  constructor
  · intro hp
    obtain ⟨e, he, rfl⟩ := List.mem_map.1 hp
    obtain ⟨hmem, hside⟩ := List.mem_filter.1 he
    obtain ⟨s, hs, rfl⟩ := (hl.mem_iff hw).1 hmem
    obtain rfl : (a.info s).side = sd := of_decide_eq_true hside
    exact ⟨_, List.ne_nil_of_mem hs, rfl⟩
  · rintro ⟨i, hi, rfl⟩
    obtain ⟨s, hs⟩ := List.exists_mem_of_ne_nil _ hi
    refine List.mem_map.2 ⟨a.entry s, List.mem_filter.2 ⟨?_, ?_⟩, ?_⟩
    · exact (hl.mem_iff hw).2 ⟨s, hw.rests hs, rfl⟩
    · exact decide_eq_true (hw.side_eq hs)
    · exact congrArg (a.base + ·) (hw.price_eq hs)

theorem Ladder.Lists.prices_eq_nil (hl : a.Lists band cap l) (hw : a.Wf)
    (hb : a.tob.best sd = UINT32_MAX) : l.prices sd = [] := by
  refine List.eq_nil_iff_forall_not_mem.2 fun p hp => ?_
  obtain ⟨i, hi, -⟩ := (hl.mem_prices hw).1 hp
  exact (exact_iff.1 (hl.sound.exact sd) i hi).1 hb

/-- The best level is that of a price of the listing. -/
theorem Ladder.Lists.best_mem (hl : a.Lists band cap l) (hw : a.Wf)
    (hb : a.tob.best sd ≠ UINT32_MAX) : a.base + a.tob.best sd ∈ l.prices sd :=
  (hl.mem_prices hw).2 ⟨_, (hw.top sd).resolve_left hb, rfl⟩

theorem Rep.best_eq (h : Rep finLaws c a) (hw : a.Wf) (hl : a.Lists band cap l) (sd : Side) :
    c.bestPrice sd = l.best sd := by
  cases sd
  · by_cases hb : a.tob.bestBid = UINT32_MAX
    · have hnil : l.prices .BUY = [] := hl.prices_eq_nil hw hb
      rw [OrderBook.bestPrice, Listing.best, h.tob, if_pos hb, hnil]
      rfl
    · rw [OrderBook.bestPrice, Listing.best, h.tob, h.base, if_neg hb, eq_comm,
        List.max?_eq_some_iff]
      refine ⟨hl.best_mem hw hb, fun p hp => ?_⟩
      obtain ⟨i, hi, rfl⟩ := (hl.mem_prices hw).1 hp
      have hle := mem_outward_buy.1 (exact_iff.1 (hl.sound.exact .BUY) i hi).2
      exact Nat.add_le_add_left hle _
  · by_cases hb : a.tob.bestAsk = UINT32_MAX
    · have hnil : l.prices .SELL = [] := hl.prices_eq_nil hw hb
      rw [OrderBook.bestPrice, Listing.best, h.tob, if_pos hb, hnil]
      rfl
    · rw [OrderBook.bestPrice, Listing.best, h.tob, h.base, if_neg hb, eq_comm,
        List.min?_eq_some_iff]
      refine ⟨hl.best_mem hw hb, fun p hp => ?_⟩
      obtain ⟨i, hi, rfl⟩ := (hl.mem_prices hw).1 hp
      have hle := (mem_outward_sell.1 (exact_iff.1 (hl.sound.exact .SELL) i hi).2).1
      exact Nat.add_le_add_left hle _

end Shows

end Nanomatch
