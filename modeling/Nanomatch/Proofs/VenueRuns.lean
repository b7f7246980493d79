import Nanomatch.Proofs.Listing
import Nanomatch.Proofs.Owners
import Nanomatch.Proofs.Wire

/-!
# The replay is the venue

As long as the venue's orders are admitted when they come, the books of a replay hold the orders of
the venue: each message does to the market what it says about the venue.
-/

namespace Nanomatch

open Framing ItchParser OrderBook Ladder

variable {v v' : Venue} {m : Market (OrderBook FinMap)} {c c' : OrderBook FinMap} {a : Ladder}
  {e : Entry} {f : Entry → Option Entry} {band cap locate i : ℕ} {id : OrderId}
  {allowedLocates : Finset UInt16}

namespace Venue

section Orders

/-- No two orders have the same id. -/
def Distinct (v : Venue) : Prop := (v.orders.map fun x => x.2.id).Nodup

theorem mem_listing : e ∈ (v.listing locate).orders ↔ (locate, e) ∈ v.orders := by
  simp [listing]

theorem mem_change : (locate, e) ∈ (v.change f).orders ↔
    ∃ e', (locate, e') ∈ v.orders ∧ f e' = some e := by
  simp only [change, List.mem_filterMap, Option.map_eq_some_iff, Prod.exists, Prod.mk.injEq]
  constructor
  · rintro ⟨i, e', hmem, e'', hf, rfl, rfl⟩
    exact ⟨e', hmem, hf⟩
  · rintro ⟨e', hmem, hf⟩
    exact ⟨locate, e', hmem, e, hf, rfl, rfl⟩

theorem listing_change (v : Venue) (f : Entry → Option Entry) (i : ℕ) :
    (v.change f).listing i = (v.listing i).change f := by
  have horders : ∀ orders : List (ℕ × Entry),
      ((orders.filterMap fun x => (f x.2).map (x.1, ·)).filter (·.1 = i)).map Prod.snd =
        ((orders.filter (·.1 = i)).map Prod.snd).filterMap f := by
    intro orders
    induction orders with
    | nil => rfl
    | cons x orders ih =>
      obtain ⟨j, e⟩ := x
      by_cases hj : j = i <;> rcases hf : f e with _ | e' <;> simp [hj, hf, ih]
  exact congrArg (fun orders => (⟨orders, v.first i, v.executions i⟩ : Listing)) (horders v.orders)

theorem listing_add (v : Venue) (locate : ℕ) (e : Entry) (i : ℕ) : (v.add locate e).listing i =
    if i = locate then (v.listing i).add e else v.listing i := by
  unfold listing add Listing.add
  by_cases hi : i = locate
  · subst hi
    simp [List.filter_append]
  · simp [List.filter_append, hi, Ne.symm hi]

theorem Distinct.eq (h : v.Distinct) {x y : ℕ × Entry} (hx : x ∈ v.orders) (hy : y ∈ v.orders)
    (hid : x.2.id = y.2.id) : x = y := List.inj_on_of_nodup_map h hx hy hid

theorem Distinct.change (h : v.Distinct) (hf : Entry.Keeps f) : (v.change f).Distinct := by
  have hsub : ∀ orders : List (ℕ × Entry),
      ((orders.filterMap fun x => (f x.2).map (x.1, ·)).map fun x => x.2.id).Sublist
        (orders.map fun x => x.2.id) := by
    intro orders
    induction orders with
    | nil => exact List.Sublist.refl _
    | cons x orders ih =>
      obtain ⟨j, e⟩ := x
      rcases he : f e with _ | e'
      · simpa [he] using ih.cons e.id
      · simpa [he, (hf e e' he).1] using ih
  exact h.sublist (hsub v.orders)

theorem Distinct.find_iff (h : v.Distinct) {x : ℕ × Entry} :
    v.find id = some x ↔ x ∈ v.orders ∧ x.2.id = id := by
  constructor
  · intro hx
    exact ⟨List.mem_of_find?_eq_some hx, by simpa using List.find?_some hx⟩
  · rintro ⟨hx, rfl⟩
    obtain ⟨y, hy⟩ : ∃ y, v.find x.2.id = some y :=
      Option.isSome_iff_exists.1 (List.find?_isSome.2 ⟨x, hx, by simp⟩)
    have hid : y.2.id = x.2.id := by simpa using List.find?_some hy
    rw [hy, h.eq (List.mem_of_find?_eq_some hy) hx hid]

theorem find_none (h : v.find id = none) : ∀ x ∈ v.orders, x.2.id ≠ id := by
  simpa [find] using h

theorem change_missing (h : ∀ x ∈ v.orders, x.2.id ≠ id) (hf : ∀ e, e.id ≠ id → f e = some e) :
    v.change f = v := by
  have hsame : v.orders.filterMap (fun x => (f x.2).map (x.1, ·)) = v.orders := by
    conv_rhs => rw [← List.filterMap_some (l := v.orders)]
    exact List.filterMap_congr fun x hx => by rw [hf x.2 (h x hx)]; rfl
  unfold change
  rw [hsame]

end Orders

end Venue

namespace Market

section Mirrors

/-- The books hold the orders of the venue's tickers, and the owners are the places of the orders. -/
structure Mirrors (band cap : ℕ) (m : Market (OrderBook FinMap)) (v : Venue) : Prop where
  size : m.marketBooks.size = kMaxStockLocate
  books : ∀ i, ∃ a, Rep finLaws ((m.marketBooks.cell i).getD (fresh band cap)) a ∧ a.Wf ∧
    a.Lists band cap (v.listing i)
  within : ∀ i c, m.marketBooks.cell i = some c → i < kMaxStockLocate
  empty : ∀ i, m.marketBooks.cell i = none → v.first i = none
  owner : ∀ id i, m.refOwner id = some i ↔ ∃ e, (i, e) ∈ v.orders ∧ e.id = id
  distinct : v.Distinct
  place : ∀ x ∈ v.orders, x.1 < kMaxStockLocate

theorem mirrors_init (hband : 0 < band) (hband' : band < 2 ^ 32) (hcap : 0 < cap)
    (hcap' : cap < 2 ^ 32) : Mirrors band cap {} {} where
  size := rfl
  books _ := ⟨_, rep_new hcap rfl, new_wf hband hband' hcap', new_lists band cap⟩
  within _ c hc := absurd hc.symm (Option.some_ne_none c)
  empty _ _ := rfl
  owner _ _ := by simp
  distinct := List.nodup_nil
  place x hx := absurd hx List.not_mem_nil

/-- The place of an order has a book, which holds the order. -/
theorem Mirrors.held (h : m.Mirrors band cap v) (he : (locate, e) ∈ v.orders) :
    ∃ c a, m.marketBooks.cell locate = some c ∧ Rep finLaws c a ∧ a.Wf ∧
      a.Lists band cap (v.listing locate) := by
  obtain ⟨a, hrep, hw, hl⟩ := h.books locate
  rcases hc : m.marketBooks.cell locate with _ | c
  · obtain ⟨s, hs, -⟩ := (hl.mem_iff hw).1 (Venue.mem_listing.2 he)
    have hnil := hw.unset (hl.unset (h.empty locate hc)) (a.info s).side (a.info s).price
    rw [Rests, hnil] at hs
    exact absurd hs List.not_mem_nil
  · rw [hc] at hrep
    exact ⟨c, a, rfl, hrep, hw, hl⟩

theorem Mirrors.owner_eq (h : m.Mirrors band cap v) (id : OrderId) :
    m.refOwner id = (v.find id).map Prod.fst := by
  rcases hf : v.find id with _ | ⟨i, e⟩
  · rcases ho : m.refOwner id with _ | i
    · rfl
    · obtain ⟨e, he, hid⟩ := (h.owner id i).1 ho
      exact absurd hid (Venue.find_none hf _ he)
  · obtain ⟨he, hid⟩ := h.distinct.find_iff.1 hf
    exact (h.owner id i).2 ⟨e, he, hid⟩

theorem Mirrors.added (h : m.Mirrors band cap v) (hlt : locate < kMaxStockLocate)
    (hnew : ∀ x ∈ v.orders, x.2.id ≠ e.id) (hrep : Rep finLaws c a) (hw : a.Wf)
    (hl : a.Lists band cap ((v.listing locate).add e)) :
    (m.added locate e.id (c, true)).Mirrors band cap (v.add locate e) where
  size := h.size
  books i := by
    rw [Venue.listing_add]
    by_cases hi : i = locate
    · subst hi
      rw [if_pos rfl]
      exact ⟨a, by simpa [Market.added] using hrep, hw, hl⟩
    · rw [if_neg hi]
      simpa [Market.added, hi] using h.books i
  within i c' hc := by
    by_cases hi : i = locate
    · exact hi ▸ hlt
    · exact h.within i c' (by simpa [Market.added, hi] using hc)
  empty i hc := by
    by_cases hi : i = locate
    · simp [Market.added, hi] at hc
    · have hold : m.marketBooks.cell i = none := by simpa [Market.added, hi] using hc
      rw [Venue.add]
      exact (Function.update_of_ne hi _ _).trans (h.empty i hold)
  owner id i := by
    have howner : (m.added locate e.id (c, true)).refOwner id =
        if id = e.id then some locate else m.refOwner id := by simp [Market.added]
    rw [howner]
    simp only [Venue.add, List.mem_append, List.mem_singleton, Prod.mk.injEq]
    split_ifs with hid
    · constructor
      · rintro he
        exact ⟨e, .inr ⟨(Option.some.inj he).symm, rfl⟩, hid.symm⟩
      · rintro ⟨e', he' | ⟨rfl, -⟩, heq⟩
        · exact absurd (heq.trans hid) (hnew _ he')
        · rfl
    · rw [h.owner]
      constructor
      · rintro ⟨e', he', heq⟩
        exact ⟨e', .inl he', heq⟩
      · rintro ⟨e', he' | ⟨-, rfl⟩, heq⟩
        · exact ⟨e', he', heq⟩
        · exact absurd heq.symm hid
  distinct := by
    rw [Venue.Distinct, Venue.add, List.map_append, List.nodup_append]
    refine ⟨h.distinct, List.nodup_singleton _, ?_⟩
    rintro k hk k' hk' rfl
    obtain ⟨x, hx, heq⟩ := List.mem_map.1 hk
    exact hnew x hx (heq.trans (List.mem_singleton.1 hk'))
  place x hx := by
    rcases List.mem_append.1 hx with hx | hx
    · exact h.place x hx
    · exact List.mem_singleton.1 hx ▸ hlt

/-- A change of one order. -/
theorem Mirrors.worked (h : m.Mirrors band cap v) (he : (locate, e) ∈ v.orders)
    (hf : Entry.Keeps f) (hother : ∀ e', e'.id ≠ e.id → f e' = some e') {gone : Bool}
    (hgone : gone = true ↔ f e = none) (hrep : Rep finLaws c a) (hw : a.Wf)
    (horders : v'.orders = (v.change f).orders) (hfirst : v'.first = v.first)
    (hexec : ∀ i ≠ locate, v'.executions i = v.executions i)
    (hl : a.Lists band cap (v'.listing locate)) :
    (m.worked locate e.id (c, gone)).Mirrors band cap v' where
  size := by
    unfold Market.worked
    split_ifs <;> exact h.size
  books i := by
    have hcell : (m.worked locate e.id (c, gone)).marketBooks.cell i =
        if i = locate then some c else m.marketBooks.cell i := by
      unfold Market.worked
      split_ifs <;> simp_all
    rw [hcell]
    by_cases hi : i = locate
    · subst hi
      exact ⟨a, by simpa using hrep, hw, hl⟩
    · -- no order of another place has the id
      have hsame : (v.listing i).change f = v.listing i := by
        refine Listing.change_eq_self fun e' he' => hother e' fun hid => hi ?_
        exact congrArg Prod.fst (h.distinct.eq (Venue.mem_listing.1 he') he hid)
      have hlisting : v'.listing i = v.listing i := by
        rw [← hsame, ← Venue.listing_change]
        unfold Venue.listing
        rw [horders, hfirst, hexec i hi]
        rfl
      rw [if_neg hi, hlisting]
      exact h.books i
  within i c' hc := by
    by_cases hi : i = locate
    · exact hi ▸ h.place _ he
    · refine h.within i c' ?_
      unfold Market.worked at hc
      split_ifs at hc <;> simpa [hi] using hc
  empty i hc := by
    rw [hfirst]
    refine h.empty i ?_
    unfold Market.worked at hc
    by_cases hi : i = locate <;> split_ifs at hc <;> simp_all
  owner id i := by
    have howner : (m.worked locate e.id (c, gone)).refOwner id =
        if gone = true ∧ id = e.id then none else m.refOwner id := by
      unfold Market.worked
      split_ifs <;> simp_all
    have hmem : (∃ e', (i, e') ∈ v'.orders ∧ e'.id = id) ↔
        ∃ e', (i, e') ∈ v.orders ∧ e'.id = id ∧ f e' ≠ none := by
      simp only [horders, Venue.mem_change]
      constructor
      · rintro ⟨e', ⟨e'', he'', hfe⟩, rfl⟩
        exact ⟨e'', he'', ((hf e'' e' hfe).1).symm, hfe ▸ Option.some_ne_none _⟩
      · rintro ⟨e'', he'', rfl, hne⟩
        obtain ⟨e', hfe⟩ := Option.ne_none_iff_exists'.1 hne
        exact ⟨e', ⟨e'', he'', hfe⟩, (hf e'' e' hfe).1⟩
    rw [howner, hmem]
    by_cases hid : id = e.id
    · have hone : ∀ e', (i, e') ∈ v.orders → e'.id = id → e' = e := fun e' he' heq =>
        congrArg Prod.snd (h.distinct.eq he' he (heq.trans hid))
      by_cases hg : gone = true
      · rw [if_pos ⟨hg, hid⟩]
        refine ⟨fun hc => absurd hc.symm (Option.some_ne_none i), ?_⟩
        rintro ⟨e', he', heq, hne⟩
        exact absurd (hone e' he' heq ▸ hgone.1 hg) hne
      · rw [if_neg fun hc => hg hc.1, h.owner]
        refine exists_congr fun e' => and_congr_right fun he' => ⟨fun heq => ⟨heq, ?_⟩, And.left⟩
        exact hone e' he' heq ▸ mt hgone.2 hg
    · rw [if_neg fun hc => hid hc.2, h.owner]
      refine exists_congr fun e' => and_congr_right fun _ => ⟨fun heq => ⟨heq, ?_⟩, And.left⟩
      rw [hother e' (heq ▸ hid)]
      exact Option.some_ne_none _
  distinct := by
    rw [Venue.Distinct, horders]
    exact h.distinct.change hf
  place x hx := by
    rw [horders] at hx
    obtain ⟨e', he', -⟩ := Venue.mem_change.1 (show (x.1, x.2) ∈ _ from hx)
    exact h.place (x.1, e') he'

end Mirrors

section Messages

theorem replaced_eq (m : Market (OrderBook FinMap)) (locate : ℕ) (oldId newId : OrderId)
    (c c' : OrderBook FinMap) : m.replaced locate oldId newId (c', true) =
      (m.worked locate oldId (c, true)).added locate newId (c', true) := by
  have hput : (m.marketBooks.put locate (some c)).put locate (some c') =
      m.marketBooks.put locate (some c') := by
    unfold Cells.put
    congr 1
    funext i
    by_cases hi : i = locate <;> simp [hi]
  simp [Market.replaced, worked, added, put, eraseOwner, setOwner, hput]

theorem Mirrors.execute (h : m.Mirrors band cap v) (id : OrderId) (shares : UInt32) :
    ∃ m', m.executeOrder id shares = some m' ∧ m'.Mirrors band cap (v.execute id shares.toNat) := by
  unfold Market.executeOrder
  rcases hfind : v.find id with _ | ⟨locate, e⟩
  · rw [Venue.execute, hfind]
    exact ⟨m, onOwner_none (by rw [h.owner_eq, hfind]; rfl) _, h⟩
  obtain ⟨he, rfl : e.id = id⟩ := h.distinct.find_iff.1 hfind
  obtain ⟨c, a, hc, hrep, hw, hl⟩ := h.held he
  have hmem := Venue.mem_listing.2 he
  have howner : m.refOwner e.id = some locate := (h.owner _ _).2 ⟨e, he, rfl⟩
  have hlt : locate < m.marketBooks.size := h.size.symm ▸ h.place _ he
  obtain ⟨c', hc', hrep'⟩ := hrep.step hw (.executeOrder e.id shares) trivial
  have hexec : (v.execute e.id shares.toNat).listing locate =
      { (v.listing locate).change (Entry.lower e.id shares.toNat) with
        executions := (v.listing locate).executions ++
          [⟨e.id, 0, e.price, min shares.toNat e.qty⟩] } := by
    rw [Venue.execute, hfind, ← Venue.listing_change]
    simp [Venue.listing, Venue.print, Venue.change]
  refine ⟨m.worked locate e.id (c', (a.executeOrder e.id shares.toNat).2), ?_, ?_⟩
  · rw [onOwner_some howner hlt hc]
    exact congrArg (Option.map (m.worked locate e.id)) hc'
  · refine h.worked he (Entry.lower_keeps e.id shares.toNat) (fun e' => Entry.lower_of_ne)
      (hl.executeOrder_gone hw hmem shares.toNat) hrep' (hw.step _) ?_ ?_ (fun i hi => ?_)
      (hexec ▸ hl.executeOrder hw hmem shares.toNat)
    all_goals rw [Venue.execute, hfind]
    · rfl
    · rfl
    · exact Function.update_of_ne hi _ _

theorem Mirrors.cancel (h : m.Mirrors band cap v) (id : OrderId) (shares : UInt32) :
    ∃ m', m.cancelOrder id shares = some m' ∧
      m'.Mirrors band cap (v.change (Entry.lower id shares.toNat)) := by
  unfold Market.cancelOrder
  rcases hfind : v.find id with _ | ⟨locate, e⟩
  · rw [Venue.change_missing (Venue.find_none hfind) fun e => Entry.lower_of_ne]
    exact ⟨m, onOwner_none (by rw [h.owner_eq, hfind]; rfl) _, h⟩
  obtain ⟨he, rfl : e.id = id⟩ := h.distinct.find_iff.1 hfind
  obtain ⟨c, a, hc, hrep, hw, hl⟩ := h.held he
  have hmem := Venue.mem_listing.2 he
  have howner : m.refOwner e.id = some locate := (h.owner _ _).2 ⟨e, he, rfl⟩
  have hlt : locate < m.marketBooks.size := h.size.symm ▸ h.place _ he
  obtain ⟨c', hc', hrep'⟩ := hrep.step hw (.reduceOrderQty e.id shares) trivial
  refine ⟨m.worked locate e.id (c', (a.reduceOrderQty e.id shares.toNat).2), ?_, ?_⟩
  · rw [onOwner_some howner hlt hc]
    exact congrArg (Option.map (m.worked locate e.id)) hc'
  · refine h.worked he (Entry.lower_keeps e.id shares.toNat) (fun e' => Entry.lower_of_ne)
      (hl.reduceOrderQty_gone hw hmem shares.toNat) hrep' (hw.step _) rfl rfl (fun _ _ => rfl) ?_
    rw [Venue.listing_change]
    exact hl.reduceOrderQty hw e.id shares.toNat

/-- The order leaves its book. -/
theorem Mirrors.gone (h : m.Mirrors band cap v) (he : (locate, e) ∈ v.orders) :
    ∃ c c', m.marketBooks.cell locate = some c ∧ OrderBookOps.cancelOrder c e.id = some c' ∧
      (m.worked locate e.id (c', true)).Mirrors band cap (v.change (Entry.without e.id)) := by
  obtain ⟨c, a, hc, hrep, hw, hl⟩ := h.held he
  obtain ⟨c', hc', hrep'⟩ := hrep.cancelOrder hw trivial
  refine ⟨c, c', hc, hc', ?_⟩
  refine h.worked he (Entry.without_keeps e.id) (fun e' => Entry.without_of_ne)
    ⟨fun _ => if_pos rfl, fun _ => rfl⟩ hrep' (hw.cancelOrder e.id) rfl rfl (fun _ _ => rfl) ?_
  rw [Venue.listing_change]
  exact hl.cancelOrder hw e.id

theorem Mirrors.delete (h : m.Mirrors band cap v) (id : OrderId) :
    ∃ m', m.deleteOrder id = some m' ∧ m'.Mirrors band cap (v.change (Entry.without id)) := by
  unfold Market.deleteOrder
  rcases hfind : v.find id with _ | ⟨locate, e⟩
  · rw [Venue.change_missing (Venue.find_none hfind) fun e => Entry.without_of_ne]
    exact ⟨m, onOwner_none (by rw [h.owner_eq, hfind]; rfl) _, h⟩
  obtain ⟨he, rfl : e.id = id⟩ := h.distinct.find_iff.1 hfind
  have howner : m.refOwner e.id = some locate := (h.owner _ _).2 ⟨e, he, rfl⟩
  have hlt : locate < m.marketBooks.size := h.size.symm ▸ h.place _ he
  obtain ⟨c, c', hc, hc', hm⟩ := h.gone he
  exact ⟨_, by rw [onOwner_some howner hlt hc, hc']; rfl, hm⟩

/-- An order that is admitted comes into its book. -/
theorem Mirrors.insert (h : m.Mirrors band cap v) (hlt : locate < kMaxStockLocate) {sd : Side}
    {price shares : UInt32}
    (hadm : v.Admits band cap locate ⟨id, sd, price.toNat, shares.toNat⟩) :
    ∃ c', OrderBookOps.insertLimitOrder ((m.marketBooks.cell locate).getD (fresh band cap)) id sd
        price shares = some (c', true) ∧
      (m.added locate id (c', true)).Mirrors band cap
        (v.add locate ⟨id, sd, price.toNat, shares.toNat⟩) := by
  obtain ⟨a, hrep, hw, hl⟩ := h.books locate
  obtain ⟨hnew, hadm⟩ := hadm
  obtain ⟨c', hc', hrep'⟩ := hrep.step hw (.insertLimitOrder id sd price shares) trivial
  obtain ⟨htrue, hl'⟩ := hl.insert hw (fun e he => hnew _ (Venue.mem_listing.1 he)) hadm
  have hr : (a.step (.insertLimitOrder id sd price shares)).2 = true := htrue
  rw [hr] at hc'
  exact ⟨c', hc', h.added hlt hnew hrep' (hw.step _) hl'⟩

theorem Mirrors.replace (h : m.Mirrors band cap v) {oldId newId : OrderId} {price shares : UInt32}
    (hacc : v.Accepts band cap allowedLocates (.replace oldId newId price shares)) :
    ∃ m', m.replaceOrder oldId newId price shares = some m' ∧
      m'.Mirrors band cap (v.replace oldId newId price.toNat shares.toNat) := by
  rcases hfind : v.find oldId with _ | ⟨locate, e⟩
  · rw [Venue.replace, hfind]
    exact ⟨m, replaceOrder_none (by rw [h.owner_eq, hfind]; rfl) newId price shares, h⟩
  have hadm := hacc _ hfind
  rw [Venue.replace, hfind]
  obtain ⟨he, rfl : e.id = oldId⟩ := h.distinct.find_iff.1 hfind
  have howner : m.refOwner e.id = some locate := (h.owner _ _).2 ⟨e, he, rfl⟩
  have hlt : locate < m.marketBooks.size := h.size.symm ▸ h.place _ he
  obtain ⟨c, a, hc, hrep, hw, hl⟩ := h.held he
  obtain ⟨c', c1, hc', hc1, hm1⟩ := h.gone he
  obtain rfl : c = c' := Option.some.inj (hc.symm.trans hc')
  obtain ⟨c2, hc2, hm2⟩ := hm1.insert (h.place _ he) hadm
  have hcell : (m.worked locate e.id (c1, true)).marketBooks.cell locate = some c1 := if_pos rfl
  rw [hcell, Option.getD_some] at hc2
  have hmem := Venue.mem_listing.2 he
  have hne : a.find e.id ≠ NULL_IDX := (hl.find_ne_null hw).2 ⟨e, hmem, rfl⟩
  obtain ⟨hr, hentry⟩ := hl.found hw hmem
  obtain ⟨o, ho, -, -, -, hside⟩ := hrep.readOrder_eq hw hr
  have hfound : OrderBookOps.findId c e.id = some (a.find e.id) := hrep.findId trivial e.id
  have hsideOf : OrderBookOps.sideOf c (a.find e.id) = some e.side := by
    have hdef : OrderBookOps.sideOf c (a.find e.id) = (c.readOrder (a.find e.id)).map Order.side := rfl
    rw [hdef, ho, Option.map_some, hside]
    exact congrArg (some ∘ Entry.side) hentry
  have hin : replaceIn c e.id newId (a.find e.id) price shares = some (c2, true) := by
    simp only [replaceIn, hsideOf, hc1, hc2, Option.bind_eq_bind, Option.bind_some]
  refine ⟨m.replaced locate e.id newId (c2, true), ?_, replaced_eq m locate e.id newId c1 c2 ▸ hm2⟩
  rw [replaceOrder_some howner hlt hc, hfound, Option.bind_some, if_neg hne, hin]
  rfl

/-- One message, of a venue that admits its orders. -/
theorem Mirrors.handle (h : m.Mirrors band cap v) : ∀ {message : Message},
    v.Accepts band cap allowedLocates message →
    ∃ m', m.handle (fresh band cap) allowedLocates message = some m' ∧
      m'.Mirrors band cap (v.handle allowedLocates message)
  | .add locate id side price shares, hacc => by
    simp only [Market.handle, Venue.handle]
    by_cases ht : locate.toNat < kMaxStockLocate ∧ isTracked allowedLocates locate
    · obtain ⟨c', hc', hm⟩ := h.insert ht.1 (hacc ht)
      rw [addOrder_tracked side price shares ht h.size, hc', if_pos ht]
      exact ⟨_, rfl, hm⟩
    · rw [addOrder_untracked side price shares ht, if_neg ht]
      exact ⟨m, rfl, h⟩
  | .execute id shares, _ => h.execute id shares
  | .cancel id shares, _ => h.cancel id shares
  | .delete id, _ => h.delete id
  | .replace _ _ _ _, hacc => h.replace hacc

/-- The packets of a feed, one after the other. -/
theorem Mirrors.handleAll : ∀ {packets : List Packet} {m : Market (OrderBook FinMap)} {v : Venue},
    m.Mirrors band cap v → v.AcceptsAll band cap allowedLocates (packets.filterMap Packet.message) →
    ∃ m', m.handleAll (fresh band cap) allowedLocates (packets.map Packet.message) = some m' ∧
      m'.Mirrors band cap (v.run allowedLocates (packets.filterMap Packet.message))
  | [], m, v, h, _ => ⟨m, rfl, h⟩
  | p :: packets, m, v, h, hacc => by
    rcases hp : p.message with _ | message
    · rw [List.filterMap_cons_none hp] at hacc ⊢
      obtain ⟨m', hm', h'⟩ := h.handleAll hacc
      exact ⟨m', by rw [List.map_cons, hp]; exact hm', h'⟩
    · rw [List.filterMap_cons_some hp] at hacc ⊢
      obtain ⟨m1, hm1, h1⟩ := h.handle hacc.1
      obtain ⟨m', hm', h'⟩ := h1.handleAll hacc.2
      refine ⟨m', ?_, h'⟩
      rw [List.map_cons, hp, Market.handleAll, dispatch, hm1]
      exact hm'

end Messages

end Market

section Feeds

variable (hband : 0 < band) (hband' : band < 2 ^ 32) (hcap : 0 < cap) (hcap' : cap < 2 ^ 32)

include hband hband' hcap hcap'

/-- Where a venue writes down what happens to its orders, and admits the orders that come, the books
after the replay of its feed hold its orders, queue by queue, with the same best prices and the same
executions, and the owner of an id is the ticker of the order. -/
theorem parse_venue {packets : List Packet} (hfits : ∀ p ∈ packets, p.Fits)
    (hacc : Venue.AcceptsAll band cap allowedLocates {} (packets.filterMap Packet.message)) :
    ∃ m v, parseItchFile (fresh band cap) allowedLocates (wire packets) {} = some m ∧
      v = Venue.run allowedLocates {} (packets.filterMap Packet.message) ∧
      (∀ id, m.refOwner id = (v.find id).map Prod.fst) ∧
      ∀ locate, (∀ side price, (m.book locate).elim [] (·.fifo side price) =
          (v.listing locate).fifo side price) ∧
        (∀ side, (m.book locate).bind (·.bestPrice side) = (v.listing locate).best side) ∧
        (m.book locate).elim [] OrderBook.logger = (v.listing locate).executions := by
  obtain ⟨m, hm, h⟩ := (Market.mirrors_init hband hband' hcap hcap').handleAll hacc
  refine ⟨m, _, (parse_wire _ _ hfits _).trans hm, rfl, h.owner_eq, fun locate => ?_⟩
  generalize Venue.run allowedLocates {} (packets.filterMap Packet.message) = v at h ⊢
  obtain ⟨a, hrep, hw, hl⟩ := h.books locate
  rcases hc : m.marketBooks.cell locate with _ | c
  · have hbook : m.book locate = none := by
      by_cases hlt : locate < m.marketBooks.size <;> simp [Market.book, Cells.read, hlt, hc]
    have hnil : (v.listing locate).orders = [] := by
      refine List.eq_nil_iff_forall_not_mem.2 fun e he => ?_
      obtain ⟨c, -, hc', -⟩ := h.held (Venue.mem_listing.1 he)
      exact Option.some_ne_none c (hc'.symm.trans hc)
    have htrades : (v.listing locate).executions = [] := by
      rw [hc] at hrep
      exact hl.trades.symm.trans hrep.logger.symm
    rw [hbook, htrades]
    refine ⟨fun side price => ?_, fun side => ?_, rfl⟩
    · simp [Listing.fifo, Listing.queue, hnil]
    · cases side <;> simp [Listing.best, Listing.prices, hnil]
  · rw [hc] at hrep
    rw [Market.book_of_cell (h.size.symm ▸ h.within locate c hc) hc]
    exact ⟨fun side price => hrep.fifo_eq hw hl side price, fun side => hrep.best_eq hw hl side,
      hrep.logger.trans hl.trades⟩

end Feeds

/-- Orders of two tickers, one of which is executed in part, another lowered, replaced and deleted, and
a packet of a type that is not handled. -/
def samplePackets : List Packet :=
  let fields (locate id side shares price : ℕ) : ItchField → ℕ
    | .stockLocate => locate
    | .orderId => id
    | .side => side
    | .shares => shares
    | .canceledShares => shares
    | .price => price
    | .originalOrderId => id
    | .newOrderId => 3
    | _ => 0
  [.known .addOrder (fields 1 1 66 5 100) [], .known .addOrderAttributed (fields 2 2 83 7 50) [],
    .other 83 [0, 0], .known .orderExecuted (fields 1 1 0 2 0) [],
    .known .orderCancel (fields 2 2 0 1 0) [9], .known .orderReplace (fields 2 2 0 4 52) [],
    .known .orderDelete (fields 1 1 0 0 0) []]

theorem parse_venue_sample : ∃ m v, parseItchFile (fresh 16 4) ∅ (wire samplePackets) {} = some m ∧
    v = Venue.run ∅ {} (samplePackets.filterMap Packet.message) ∧
    (∀ id, m.refOwner id = (v.find id).map Prod.fst) ∧
    ∀ locate, (∀ side price, (m.book locate).elim [] (·.fifo side price) =
        (v.listing locate).fifo side price) ∧
      (∀ side, (m.book locate).bind (·.bestPrice side) = (v.listing locate).best side) ∧
      (m.book locate).elim [] OrderBook.logger = (v.listing locate).executions :=
  parse_venue (by decide) (by decide) (by decide) (by decide) (by decide) (by decide)

end Nanomatch
