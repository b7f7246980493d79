import Nanomatch.Proofs.ItchTickers
import Nanomatch.Proofs.Owners

/-!
# Owners stay in step

A message that inserts a new id and whose insert takes no order out of its book changes the owners
as it changes the resting orders. A maker that an add fills, or an order that it drops, leaves its
book and not the owners.
-/

namespace Nanomatch

open OrderBook ItchParser

variable {m m' : Market (OrderBook FinMap)} {c c' : OrderBook FinMap} {locate : ℕ}
  {id oldId newId : OrderId} {r : OrderBook FinMap × Bool}

namespace Market

section InStep

/-- One book changes, and the owners among its ids change with it. -/
theorem InStep.change (h : m.InStep) (hlt : locate < kMaxStockLocate)
    (hcell : ∀ i, m'.marketBooks.cell i = if i = locate then some c else m.marketBooks.cell i)
    (here : ∀ id, m'.refOwner id = some locate ↔ c.HasId id)
    (elsewhere : ∀ id, ∀ i ≠ locate, m'.refOwner id = some i ↔ m.refOwner id = some i) :
    m'.InStep := by
  intro id i
  by_cases hi : i = locate
  · subst hi
    rw [here, hcell, if_pos rfl]
    constructor
    · exact fun hid => ⟨hlt, c, rfl, hid⟩
    · rintro ⟨-, c', hc', hid⟩
      exact Option.some.inj hc' ▸ hid
  · rw [elsewhere id i hi, h id i, hcell, if_neg hi]

theorem InStep.not_owned (h : m.InStep) (hid : m.NoneHas id) (i : ℕ) : m.refOwner id ≠ some i := by
  intro hi
  obtain ⟨hlt, c, hc, hk⟩ := (h id i).1 hi
  exact hid i hlt c hc hk

theorem InStep.added (h : m.InStep) (hlt : locate < kMaxStockLocate)
    (hbook : ∀ k, m.refOwner k = some locate ↔ c.HasId k) (hnew : m.NoneHas id)
    (hids : ∀ k, r.1.HasId k ↔ c.HasId k ∨ r.2 = true ∧ k = id) :
    (m.added locate id r).InStep := by
  unfold Market.added
  split_ifs with hr
  · refine h.change hlt (c := r.1) (fun i => rfl) (fun k => ?_) fun k i hi => ?_
    · rw [setOwner_refOwner, hids, ← hbook]
      split_ifs with hk
      · simp [hr, hk]
      · simp [hk]
    · rw [setOwner_refOwner]
      split_ifs with hk
      · exact iff_of_false (fun he => hi (Option.some.inj he).symm) (hk ▸ h.not_owned hnew i)
      · rfl
  · refine h.change hlt (c := r.1) (fun i => rfl) (fun k => ?_) fun k i hi => Iff.rfl
    rw [put_refOwner, hids, ← hbook]
    simp [hr]

theorem InStep.worked (h : m.InStep) (hid : m.refOwner id = some locate)
    (hlt : locate < kMaxStockLocate) (hbook : ∀ k, m.refOwner k = some locate ↔ c.HasId k)
    (hids : ∀ k, r.1.HasId k ↔ c.HasId k ∧ ¬ (r.2 = true ∧ k = id)) :
    (m.worked locate id r).InStep := by
  unfold Market.worked
  split_ifs with hr
  · refine h.change hlt (c := r.1) (fun i => rfl) (fun k => ?_) fun k i hi => ?_
    · rw [eraseOwner_refOwner, hids, ← hbook]
      split_ifs with hk
      · simp [hr, hk]
      · simp [hk]
    · rw [eraseOwner_refOwner]
      split_ifs with hk
      · rw [hk, hid]
        exact iff_of_false not_false fun he => hi (Option.some.inj he).symm
      · rfl
  · refine h.change hlt (c := r.1) (fun i => rfl) (fun k => ?_) fun k i hi => Iff.rfl
    rw [put_refOwner, hids, ← hbook]
    simp [hr]

theorem InStep.replaced (h : m.InStep) (hid : m.refOwner oldId = some locate)
    (hlt : locate < kMaxStockLocate) (hbook : ∀ k, m.refOwner k = some locate ↔ c.HasId k)
    (hnew : newId ≠ oldId → m.NoneHas newId)
    (hids : ∀ k, r.1.HasId k ↔ c.HasId k ∧ k ≠ oldId ∨ r.2 = true ∧ k = newId) :
    (m.replaced locate oldId newId r).InStep := by
  have herased : ∀ k, ∀ i ≠ locate,
      ((m.put locate r.1).eraseOwner oldId).refOwner k = some i ↔ m.refOwner k = some i := by
    intro k i hi
    rw [eraseOwner_refOwner]
    split_ifs with hk
    · rw [hk, hid]
      exact iff_of_false not_false fun he => hi (Option.some.inj he).symm
    · rfl
  unfold Market.replaced
  split_ifs with hr
  · refine h.change hlt (c := r.1) (fun i => rfl) (fun k => ?_) fun k i hi => ?_
    · rw [setOwner_refOwner, eraseOwner_refOwner, hids, ← hbook]
      split_ifs with hk hk'
      · simp [hr, hk]
      · have hne : oldId ≠ newId := hk' ▸ hk
        simp [hk', hne]
      · simp [hk, hk']
    · rw [setOwner_refOwner]
      split_ifs with hk
      · refine iff_of_false (fun he => hi (Option.some.inj he).symm) ?_
        by_cases hsame : newId = oldId
        · rw [hk, hsame, hid]
          exact fun he => hi (Option.some.inj he).symm
        · exact hk ▸ h.not_owned (hnew hsame) i
      · exact herased k i hi
  · refine h.change hlt (c := r.1) (fun i => rfl) (fun k => ?_) herased
    rw [eraseOwner_refOwner, hids, ← hbook]
    split_ifs with hk
    · simp [hr, hk]
    · simp [hr, hk]

end InStep

section Messages

/-- The owners among the ids of a book, present or not. -/
theorem InStep.owner_iff (h : m.InStep) (hlt : locate < kMaxStockLocate) {newBook : OrderBook FinMap}
    (hnew : ∀ k, ¬ newBook.HasId k) (k : OrderId) :
    m.refOwner k = some locate ↔ ((m.marketBooks.cell locate).getD newBook).HasId k := by
  rw [h k locate]
  rcases hc : m.marketBooks.cell locate with _ | c
  · simp [hnew]
  · simp [hlt]

theorem InStep.book_iff (h : m.InStep) (hlt : locate < kMaxStockLocate)
    (hc : m.marketBooks.cell locate = some c) (k : OrderId) :
    m.refOwner k = some locate ↔ c.HasId k := by
  rw [h k locate, hc]
  simp [hlt]

/-- An operation that takes out the order of `id`, or none. -/
theorem InStep.onOwner (h : m.InStep) (hok : m.Ok OrderBook.Standing)
    {op : OrderBook FinMap → Option (OrderBook FinMap × Bool)}
    (hop : ∀ c, c.Standing → ∃ c' r, op c = some (c', r) ∧ c'.Standing ∧
      ∀ k, c'.HasId k ↔ c.HasId k ∧ ¬ (r = true ∧ k = id)) :
    ∃ m', m.onOwner id op = some m' ∧ m'.Ok OrderBook.Standing ∧ m'.InStep := by
  rcases hid : m.refOwner id with _ | locate
  · exact ⟨m, onOwner_none hid op, hok, h⟩
  obtain ⟨hlt, c, hc⟩ := hok.owner id locate hid
  obtain ⟨c', r, hr, hstanding, hids⟩ := hop c (hok.books locate c hc)
  refine ⟨m.worked locate id (c', r), ?_, hok.worked hstanding,
    h.worked hid hlt (h.book_iff hlt hc) hids⟩
  rw [onOwner_some hid (hok.size.symm ▸ hlt) hc, hr]
  rfl

variable {newBook : OrderBook FinMap} {allowedLocates : Finset UInt16}

theorem InStep.addOrder (h : m.InStep) (hok : m.Ok OrderBook.Standing) (hbook : newBook.Standing)
    (hempty : ∀ k, ¬ newBook.HasId k) {locate : UInt16} {side : Side} {price shares : UInt32}
    (hnew : m.NewIds allowedLocates (.add locate id side price shares))
    (htakes : m.TakesNone newBook allowedLocates (.add locate id side price shares)) :
    ∃ m', m.addOrder newBook allowedLocates locate id side price shares = some m' ∧
      m'.Ok OrderBook.Standing ∧ m'.InStep := by
  by_cases ht : locate.toNat < kMaxStockLocate ∧ isTracked allowedLocates locate
  · have howner := h.owner_iff ht.1 hempty
    have hstanding : ((m.marketBooks.cell locate.toNat).getD newBook).Standing := by
      rcases hc : m.marketBooks.cell locate.toNat with _ | c
      · exact hbook
      · exact hok.books _ c hc
    have hfree : ¬ ((m.marketBooks.cell locate.toNat).getD newBook).HasId id := fun hid =>
      h.not_owned (hnew ht) _ ((howner id).2 hid)
    obtain ⟨c', r, hr, hstanding', hids⟩ := hstanding.insert hfree (htakes ht)
    refine ⟨m.added locate.toNat id (c', r), ?_, hok.added ht.1 hstanding',
      h.added ht.1 howner (hnew ht) hids⟩
    rw [addOrder_tracked side price shares ht hok.size, hr]
    rfl
  · exact ⟨m, addOrder_untracked side price shares ht, hok, h⟩

theorem InStep.replaceOrder (h : m.InStep) (hok : m.Ok OrderBook.Standing)
    {price shares : UInt32}
    (hnew : m.NewIds allowedLocates (.replace oldId newId price shares))
    (htakes : m.TakesNone newBook allowedLocates (.replace oldId newId price shares)) :
    ∃ m', m.replaceOrder oldId newId price shares = some m' ∧ m'.Ok OrderBook.Standing ∧
      m'.InStep := by
  rcases hid : m.refOwner oldId with _ | locate
  · exact ⟨m, replaceOrder_none hid newId price shares, hok, h⟩
  obtain ⟨hlt, c, hc⟩ := hok.owner oldId locate hid
  have howner := h.book_iff hlt hc
  have hstanding := hok.books locate c hc
  obtain ⟨idx, hfind, hiff, hread⟩ := hstanding.find oldId
  have hfind' : OrderBookOps.findId c oldId = some idx := hfind
  have hne : idx ≠ NULL_IDX := hiff.1 ((howner oldId).1 hid)
  obtain ⟨o, ho⟩ := hread hne
  obtain ⟨c1, hc1, hstanding1, hids1⟩ := hstanding.cancel oldId
  have hfresh : newId ≠ oldId → m.NoneHas newId := fun hdiff =>
    hnew ⟨by rw [hid]; exact Option.some_ne_none _, hdiff⟩
  have hfree : ¬ c1.HasId newId := by
    rw [hids1]
    rintro ⟨hhas, hdiff⟩
    exact h.not_owned (hfresh hdiff) locate ((howner newId).2 hhas)
  obtain ⟨c2, r, hc2, hstanding2, hids2⟩ := hstanding1.insert hfree
    (htakes locate hid c hc idx hfind o ho c1 hc1)
  refine ⟨m.replaced locate oldId newId (c2, r), ?_, hok.replaced hlt hstanding2,
    h.replaced hid hlt howner hfresh fun k => by rw [hids2, hids1]⟩
  have hside : OrderBookOps.sideOf c idx = some o.side := by
    have hdef : OrderBookOps.sideOf c idx = (c.readOrder idx).map Order.side := rfl
    rw [hdef, ho]
    rfl
  have hin : replaceIn c oldId newId idx price shares = some (c2, r) := by
    unfold Market.replaceIn
    simp only [hside, hc1, hc2, Option.bind_eq_bind, Option.bind_some]
  rw [replaceOrder_some hid (hok.size.symm ▸ hlt) hc, hfind', Option.bind_some, if_neg hne, hin]
  rfl

/-- One message with a new id, whose insert takes no order out. -/
theorem InStep.handle (h : m.InStep) (hok : m.Ok OrderBook.Standing) (hbook : newBook.Standing)
    (hempty : ∀ k, ¬ newBook.HasId k) : ∀ {message : Message}, m.NewIds allowedLocates message →
    m.TakesNone newBook allowedLocates message →
    ∃ m', m.handle newBook allowedLocates message = some m' ∧ m'.Ok OrderBook.Standing ∧ m'.InStep
  | .add _ _ _ _ _, hnew, htakes => h.addOrder hok hbook hempty hnew htakes
  | .execute id shares, _, _ => h.onOwner hok fun c hc => hc.execute id shares
  | .cancel id shares, _, _ => h.onOwner hok fun c hc => hc.reduce id shares
  | .delete id, _, _ => h.onOwner hok fun c hc => by
    obtain ⟨c', hc', hstanding, hids⟩ := hc.cancel id
    exact ⟨c', true, by rw [hc']; rfl, hstanding, fun k => by simp [hids]⟩
  | .replace _ _ _ _, hnew, htakes => h.replaceOrder hok hnew htakes

end Messages

end Market

section Runs

variable {newBook : OrderBook FinMap} {allowedLocates : Finset UInt16} {file : List UInt8}

namespace ItchParser

/-- The owners are in step after every round of which the message is as required. -/
theorem rounds_inStep (hbook : newBook.Standing) (hempty : ∀ k, ¬ newBook.HasId k) :
    ∀ (n : ℕ) (r : Replay (OrderBook FinMap)), r.market.Ok OrderBook.Standing → r.market.InStep →
    AlongRounds (fun m message => m.NewIds allowedLocates message ∧
      m.TakesNone newBook allowedLocates message) newBook allowedLocates file n r →
    ∃ r', rounds newBook allowedLocates file n r = some r' ∧ r'.market.InStep
  | 0, r, _, h, _ => ⟨r, rfl, h⟩
  | n + 1, r, hok, h, ⟨hmessage, hrest⟩ => by
    unfold rounds
    rcases round_cases newBook allowedLocates file r with hr | ⟨message, cursor, dispatched, hm, hr⟩
    · rw [hr]
      exact ⟨r, rfl, h⟩
    · obtain ⟨m', hm', hok', h'⟩ : ∃ m', r.market.dispatch newBook allowedLocates message = some m' ∧
          m'.Ok OrderBook.Standing ∧ m'.InStep := by
        rcases message with _ | message
        · exact ⟨r.market, rfl, hok, h⟩
        · obtain ⟨hnew, htakes⟩ := hmessage message hm
          exact h.handle hok hbook hempty hnew htakes
      rw [hm', Option.map_some] at hr
      rw [hr] at hrest ⊢
      exact rounds_inStep hbook hempty n _ hok' h' hrest

/-- In a feed that inserts new ids only, and whose inserts take no order out of their books, the
owners are in step with the books after every message. -/
theorem rounds_owners {band cap : ℕ} (hband : 0 < band) (hband' : band < 2 ^ 32) (hcap : 0 < cap)
    (hcap' : cap < 2 ^ 32) (allowedLocates : Finset UInt16) (file : List UInt8) (n : ℕ)
    (h : AlongRounds (fun m message => m.NewIds allowedLocates message ∧
      m.TakesNone (fresh band cap) allowedLocates message) (fresh band cap) allowedLocates file n
      { market := {} }) :
    ∃ r, rounds (fresh band cap) allowedLocates file n { market := {} } = some r ∧
      r.market.InStep := by
  obtain ⟨hstanding, hempty⟩ := standing_fresh hband hband' hcap hcap'
  have h0 : ({} : Market (OrderBook FinMap)).InStep := by
    intro id locate
    refine iff_of_false (Option.some_ne_none _).symm ?_
    rintro ⟨-, c, hc, -⟩
    exact Option.some_ne_none c hc.symm
  exact rounds_inStep hstanding hempty n _ (Market.ok_init _) h0 h

theorem rounds_owners_twoTickers : ∃ r,
    rounds (fresh 16 4) ∅ (addSeven ++ addEight ++ deleteSeven) 3 { market := {} } = some r ∧
      r.market.InStep :=
  rounds_owners (by decide) (by decide) (by decide) (by decide) ∅ _ 3 (by decide +kernel)

/-- A bid for the whole of order 7. -/
def takeSeven : List UInt8 := [0, 36, 65, 0, 1, 0, 0, 0, 0, 0, 0, 0, 0, 0, 0, 0, 0, 0, 0, 0, 9, 66,
  0, 0, 0, 5, 65, 65, 65, 65, 65, 65, 65, 65, 0, 0, 0, 100]

/-- Order 7 is filled by an add, and keeps its owner. -/
theorem not_forall_rounds_owners : ¬ ∀ band cap, 0 < band → band < 2 ^ 32 → 0 < cap →
    cap < 2 ^ 32 → ∀ (allowedLocates : Finset UInt16) (file : List UInt8) (n : ℕ),
    AlongRounds (fun m => m.NewIds allowedLocates) (fresh band cap) allowedLocates file n
      { market := {} } →
    ∃ r, rounds (fresh band cap) allowedLocates file n { market := {} } = some r ∧
      r.market.InStep := by
  intro h
  obtain ⟨r, hr, hstep⟩ := h 16 4 (by decide) (by decide) (by decide) (by decide) ∅
    (addSeven ++ takeSeven) 2 (by decide +kernel)
  have hval : (rounds (fresh 16 4) ∅ (addSeven ++ takeSeven) 2 { market := {} }).map (fun r =>
      (r.market.refOwner 7, (r.market.marketBooks.cell 1).any fun c => c.HasId 7)) =
      some (some 1, false) := by
    decide +kernel
  rw [hr, Option.map_some, Option.some.injEq, Prod.mk.injEq] at hval
  obtain ⟨howner, hhas⟩ := hval
  obtain ⟨-, c, hc, hid⟩ := (hstep 7 1).1 howner
  rw [hc] at hhas
  simp [hid] at hhas

end ItchParser

end Runs

end Nanomatch
