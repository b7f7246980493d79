import Nanomatch.Lib.Shards
import Nanomatch.Proofs.ItchTickers
import Nanomatch.Proofs.Wire

/-!
# How the tickers are mixed does not matter

If every id is of one ticker, a message works on the place of its ticker alone. So two feeds that have
the same messages for each ticker, however they are mixed, leave the same books and owners.
-/

namespace Nanomatch

open Framing ItchParser

variable {β : Type} {newBook b : β} {Inv : β → Prop} {m m' m1 m1' : Market β}
  {allowedLocates : Finset UInt16} {k locate : ℕ} {id oldId newId : OrderId}
  {place : OrderId → ℕ} {r : β × Bool}

/-- The place that the message is for. -/
def Message.ticker (place : OrderId → ℕ) : Message → ℕ
  | .add locate _ _ _ _ => locate.toNat
  | .execute id _ => place id
  | .cancel id _ => place id
  | .delete id => place id
  | .replace oldId _ _ _ => place oldId

namespace Market

section SameAt

/-- The two markets have the same book in place `k` and agree on the owners of its ids. -/
structure SameAt (place : OrderId → ℕ) (k : ℕ) (m m' : Market β) : Prop where
  book : m.marketBooks.cell k = m'.marketBooks.cell k
  owner : ∀ id, place id = k → m.refOwner id = m'.refOwner id

theorem SameAt.put (h : SameAt place k m m') (locate : ℕ) (b : β) :
    SameAt place k (m.put locate b) (m'.put locate b) where
  book := by rw [put_cell, put_cell, h.book]
  owner := h.owner

theorem SameAt.setOwner (h : SameAt place k m m') (id : OrderId) (locate : ℕ) :
    SameAt place k (m.setOwner id locate) (m'.setOwner id locate) where
  book := h.book
  owner id' hid' := by rw [setOwner_refOwner, setOwner_refOwner, h.owner id' hid']

theorem SameAt.eraseOwner (h : SameAt place k m m') (id : OrderId) :
    SameAt place k (m.eraseOwner id) (m'.eraseOwner id) where
  book := h.book
  owner id' hid' := by rw [eraseOwner_refOwner, eraseOwner_refOwner, h.owner id' hid']

theorem SameAt.added (h : SameAt place k m m') (locate : ℕ) (id : OrderId) (r : β × Bool) :
    SameAt place k (m.added locate id r) (m'.added locate id r) := by
  unfold Market.added
  split_ifs
  · exact (h.put locate r.1).setOwner id locate
  · exact h.put locate r.1

theorem SameAt.worked (h : SameAt place k m m') (locate : ℕ) (id : OrderId) (r : β × Bool) :
    SameAt place k (m.worked locate id r) (m'.worked locate id r) := by
  unfold Market.worked
  split_ifs
  · exact (h.put locate r.1).eraseOwner id
  · exact h.put locate r.1

theorem SameAt.replaced (h : SameAt place k m m') (locate : ℕ) (oldId newId : OrderId)
    (r : β × Bool) :
    SameAt place k (m.replaced locate oldId newId r) (m'.replaced locate oldId newId r) := by
  unfold Market.replaced
  split_ifs
  · exact ((h.put locate r.1).eraseOwner oldId).setOwner newId locate
  · exact (h.put locate r.1).eraseOwner oldId

/-- What happens within one place shows in no other one. -/
theorem Within.sameAt (hw : Within locate m m') (hp : m.Placed place) (hp' : m'.Placed place)
    (hk : locate ≠ k) : SameAt place k m' m where
  book := hw.books k hk.symm
  owner id hid := by
    rcases hw.owner id with he | he | ⟨he, -⟩
    · exact he
    · exact absurd ((hp' id locate he).symm.trans hid) hk
    · exact absurd ((hp id locate he).symm.trans hid) hk

end SameAt

section Handle

variable [OrderBookOps β]

theorem Placed.handle (h : m.Placed place) (hok : m.Ok Inv) : ∀ {message : Message},
    message.Fits place → m.handle newBook allowedLocates message = some m' → m'.Placed place
  | .add locate id side price shares, hfits, hm => by
    have hm : m.addOrder newBook allowedLocates locate id side price shares = some m' := hm
    by_cases ht : locate.toNat < kMaxStockLocate ∧ isTracked allowedLocates locate
    · rw [addOrder_tracked side price shares ht hok.size, Option.map_eq_some_iff] at hm
      obtain ⟨r, -, rfl⟩ := hm
      exact h.added hfits
    · rw [addOrder_untracked side price shares ht] at hm
      exact Option.some.inj hm ▸ h
  | .execute _ _, _, hm => h.onOwner hok hm
  | .cancel _ _, _, hm => h.onOwner hok hm
  | .delete _, _, hm => h.onOwner hok hm
  | .replace _ _ _ _, hfits, hm => h.replaceOrder hok hfits hm

omit [OrderBookOps β] in
theorem onOwner_within (h : m.Placed place) (hok : m.Ok Inv) {op : β → Option (β × Bool)}
    (hm : m.onOwner id op = some m') : m' = m ∨ Within (place id) m m' := by
  rcases hid : m.refOwner id with _ | locate
  · exact .inl (Option.some.inj (hm.symm.trans (onOwner_none hid op)))
  · obtain ⟨hlt, b, hb⟩ := hok.owner id locate hid
    rw [onOwner_some hid (hok.size.symm ▸ hlt) hb, Option.map_eq_some_iff] at hm
    obtain ⟨r, -, rfl⟩ := hm
    exact .inr (h id locate hid ▸ within_worked hid r)

/-- A message changes nothing, or it works within its place. -/
theorem handle_within (h : m.Placed place) (hok : m.Ok Inv) : ∀ {message : Message},
    m.handle newBook allowedLocates message = some m' →
      m' = m ∨ Within (message.ticker place) m m'
  | .add locate id side price shares, hm => by
    have hm : m.addOrder newBook allowedLocates locate id side price shares = some m' := hm
    by_cases ht : locate.toNat < kMaxStockLocate ∧ isTracked allowedLocates locate
    · rw [addOrder_tracked side price shares ht hok.size, Option.map_eq_some_iff] at hm
      obtain ⟨r, -, rfl⟩ := hm
      exact .inr (within_added m _ id r)
    · rw [addOrder_untracked side price shares ht] at hm
      exact .inl (Option.some.inj hm).symm
  | .execute _ _, hm => onOwner_within h hok hm
  | .cancel _ _, hm => onOwner_within h hok hm
  | .delete _, hm => onOwner_within h hok hm
  | .replace oldId newId price shares, hm => by
    have hm : m.replaceOrder oldId newId price shares = some m' := hm
    rcases hid : m.refOwner oldId with _ | locate
    · exact .inl (Option.some.inj (hm.symm.trans (replaceOrder_none hid newId price shares)))
    · obtain ⟨hlt, b, hb⟩ := hok.owner oldId locate hid
      rw [replaceOrder_some hid (hok.size.symm ▸ hlt) hb, Option.bind_eq_some_iff] at hm
      obtain ⟨idx, -, hm⟩ := hm
      split_ifs at hm
      · exact .inl (Option.some.inj hm).symm
      · obtain ⟨r, -, rfl⟩ := Option.map_eq_some_iff.1 hm
        exact .inr (h oldId locate hid ▸ within_replaced hid newId r)

omit [OrderBookOps β] in
theorem SameAt.onOwner (h : SameAt place (place id) m m') (hok : m.Ok Inv) (hok' : m'.Ok Inv)
    (hp : m.Placed place) {op : β → Option (β × Bool)} (hm : m.onOwner id op = some m1)
    (hm' : m'.onOwner id op = some m1') : SameAt place (place id) m1 m1' := by
  have howner := h.owner id rfl
  rcases hid : m.refOwner id with _ | locate
  · rw [onOwner_none hid, Option.some.injEq] at hm
    rw [onOwner_none (howner.symm.trans hid), Option.some.injEq] at hm'
    exact hm ▸ hm' ▸ h
  · obtain rfl := hp id locate hid
    obtain ⟨hlt, b, hb⟩ := hok.owner id _ hid
    have hb' := h.book.symm.trans hb
    rw [onOwner_some hid (hok.size.symm ▸ hlt) hb, Option.map_eq_some_iff] at hm
    rw [onOwner_some (howner.symm.trans hid) (hok'.size.symm ▸ hlt) hb',
      Option.map_eq_some_iff] at hm'
    obtain ⟨r, hr, rfl⟩ := hm
    obtain ⟨r', hr', rfl⟩ := hm'
    obtain rfl := Option.some.inj (hr.symm.trans hr')
    exact h.worked _ id r

/-- A message for a place does the same in markets that are the same there. -/
theorem SameAt.handle {message : Message} (h : SameAt place (message.ticker place) m m')
    (hok : m.Ok Inv) (hok' : m'.Ok Inv) (hp : m.Placed place)
    (hm : m.handle newBook allowedLocates message = some m1)
    (hm' : m'.handle newBook allowedLocates message = some m1') :
    SameAt place (message.ticker place) m1 m1' := by
  cases message with
  | add locate id side price shares =>
    have hm : m.addOrder newBook allowedLocates locate id side price shares = some m1 := hm
    have hm' : m'.addOrder newBook allowedLocates locate id side price shares = some m1' := hm'
    have hbook : m.marketBooks.cell locate.toNat = m'.marketBooks.cell locate.toNat := h.book
    by_cases ht : locate.toNat < kMaxStockLocate ∧ isTracked allowedLocates locate
    · rw [addOrder_tracked side price shares ht hok.size, Option.map_eq_some_iff] at hm
      rw [addOrder_tracked side price shares ht hok'.size, ← hbook, Option.map_eq_some_iff] at hm'
      obtain ⟨r, hr, rfl⟩ := hm
      obtain ⟨r', hr', rfl⟩ := hm'
      obtain rfl := Option.some.inj (hr.symm.trans hr')
      exact h.added _ id r
    · rw [addOrder_untracked side price shares ht, Option.some.injEq] at hm hm'
      exact hm ▸ hm' ▸ h
  | execute id shares => exact h.onOwner hok hok' hp hm hm'
  | cancel id shares => exact h.onOwner hok hok' hp hm hm'
  | delete id => exact h.onOwner hok hok' hp hm hm'
  | replace oldId newId price shares =>
    have hm : m.replaceOrder oldId newId price shares = some m1 := hm
    have hm' : m'.replaceOrder oldId newId price shares = some m1' := hm'
    have howner := h.owner oldId rfl
    rcases hid : m.refOwner oldId with _ | locate
    · rw [replaceOrder_none hid, Option.some.injEq] at hm
      rw [replaceOrder_none (howner.symm.trans hid), Option.some.injEq] at hm'
      exact hm ▸ hm' ▸ h
    · obtain rfl : place oldId = locate := hp oldId locate hid
      obtain ⟨hlt, b, hb⟩ := hok.owner oldId _ hid
      have hb' : m'.marketBooks.cell (place oldId) = some b := h.book.symm.trans hb
      rw [replaceOrder_some hid (hok.size.symm ▸ hlt) hb, Option.bind_eq_some_iff] at hm
      rw [replaceOrder_some (howner.symm.trans hid) (hok'.size.symm ▸ hlt) hb',
        Option.bind_eq_some_iff] at hm'
      obtain ⟨idx, hidx, hm⟩ := hm
      obtain ⟨idx', hidx', hm'⟩ := hm'
      obtain rfl := Option.some.inj (hidx.symm.trans hidx')
      split_ifs at hm hm'
      · exact Option.some.inj hm ▸ Option.some.inj hm' ▸ h
      · obtain ⟨r, hr, rfl⟩ := Option.map_eq_some_iff.1 hm
        obtain ⟨r', hr', rfl⟩ := Option.map_eq_some_iff.1 hm'
        obtain rfl := Option.some.inj (hr.symm.trans hr')
        exact h.replaced _ oldId newId r

/-- The parser falls into shards, one for each ticker. -/
theorem sharded (hret : Returns newBook Inv) (allowedLocates : Finset UInt16)
    (place : OrderId → ℕ) : Sharded (Market.handle · newBook allowedLocates) (Message.ticker place)
      (SameAt place) (fun m : Market β => m.Ok Inv ∧ m.Placed place) (Message.Fits place) where
  refl _ _ := ⟨rfl, fun _ _ => rfl⟩
  symm _ _ _ h := ⟨h.book.symm, fun id hid => (h.owner id hid).symm⟩
  trans _ _ _ _ h h' := ⟨h.book.trans h'.book, fun id hid => (h.owner id hid).trans (h'.owner id hid)⟩
  step_ok m message h hfits := by
    obtain ⟨m', hm', hok'⟩ := h.1.dispatch hret allowedLocates (some message)
    exact ⟨m', hm', hok', h.2.handle h.1 hfits hm'⟩
  other m m' message k h hfits hm hk := by
    rcases handle_within h.2 h.1 hm with rfl | hw
    · exact ⟨rfl, fun _ _ => rfl⟩
    · exact hw.sameAt h.2 (h.2.handle h.1 hfits hm) hk
  own _ _ _ _ _ h h' _ hsame hm hm' := hsame.handle h.1 h'.1 h.2 hm hm'

/-- Frames without a message are left out. -/
theorem handleAll_map {α : Type} (f : α → Option Message) : ∀ (xs : List α) (m : Market β),
    m.handleAll newBook allowedLocates (xs.map f) =
      (xs.filterMap f).foldlM (Market.handle · newBook allowedLocates) m
  | [], _ => rfl
  | x :: xs, m => by
    rcases hx : f x with _ | message
    · rw [List.filterMap_cons_none hx, List.map_cons, hx]
      exact handleAll_map f xs m
    · rw [List.filterMap_cons_some hx, List.map_cons, hx, List.foldlM_cons]
      exact bind_congr fun m' => handleAll_map f xs m'

end Handle

end Market

section Feeds

variable [OrderBookOps β] {packets packets' : List Packet}

/-- Two feeds with the same messages for each ticker leave the same books and owners. -/
theorem parse_interleaved (hret : Returns newBook Inv) (allowedLocates : Finset UInt16)
    (hwritten : ∀ p ∈ packets, p.Fits) (hwritten' : ∀ p ∈ packets', p.Fits)
    (hfits : ∀ message ∈ packets.filterMap Packet.message, message.Fits place)
    (hfits' : ∀ message ∈ packets'.filterMap Packet.message, message.Fits place)
    (hsame : ∀ k, (packets.filterMap Packet.message).filter (·.ticker place = k) =
      (packets'.filterMap Packet.message).filter (·.ticker place = k)) :
    ∃ m m', parseItchFile newBook allowedLocates (wire packets) {} = some m ∧
      parseItchFile newBook allowedLocates (wire packets') {} = some m' ∧
      (∀ k, m.book k = m'.book k) ∧ ∀ id, m.refOwner id = m'.refOwner id := by
  have hplaced : ({} : Market β).Placed place := fun _ _ hi => (Option.some_ne_none _ hi.symm).elim
  obtain ⟨m, m', hm, hm', hok, hok', hall⟩ :=
    (Market.sharded hret allowedLocates place).run_interleaved hfits hfits' hsame
      (s := {}) ⟨Market.ok_init Inv, hplaced⟩
  refine ⟨m, m', ?_, ?_, fun k => ?_, fun id => (hall (place id)).owner id rfl⟩
  · rw [parse_wire newBook allowedLocates hwritten, Market.handleAll_map]
    exact hm
  · rw [parse_wire newBook allowedLocates hwritten', Market.handleAll_map]
    exact hm'
  · unfold Market.book Cells.read
    rw [hok.1.size, hok'.1.size, (hall k).book]

end Feeds

/-- An order of ticker 1 that is executed in part. -/
def firstTicker : List Packet :=
  let fields : ItchField → ℕ
    | .stockLocate => 1
    | .orderId => 7
    | .shares => 5
    | .price => 100
    | _ => 0
  [.known .addOrder fields [], .known .orderExecuted fields []]

/-- An order of ticker 2 that is replaced. -/
def secondTicker : List Packet :=
  let fields : ItchField → ℕ
    | .stockLocate => 2
    | .orderId => 8
    | .originalOrderId => 8
    | .newOrderId => 9
    | .shares => 3
    | .price => 50
    | _ => 0
  [.known .addOrder fields [], .known .orderReplace fields []]

def tickerOf (id : OrderId) : ℕ := if id = 7 then 1 else 2

/-- One ticker after the other, and the second one first. -/
theorem parse_interleaved_swapped : ∃ m m',
    parseItchFile (fresh 16 4) ∅ (wire (firstTicker ++ secondTicker)) {} = some m ∧
      parseItchFile (fresh 16 4) ∅ (wire (secondTicker ++ firstTicker)) {} = some m' ∧
      (∀ k, m.book k = m'.book k) ∧ ∀ id, m.refOwner id = m'.refOwner id := by
  have hfits : ∀ message ∈ (firstTicker ++ secondTicker).filterMap Packet.message,
      message.Fits tickerOf := by decide
  have hfirst : ∀ message ∈ firstTicker.filterMap Packet.message,
      message.ticker tickerOf = 1 := by decide
  have hsecond : ∀ message ∈ secondTicker.filterMap Packet.message,
      message.ticker tickerOf = 2 := by decide
  refine parse_interleaved (fresh_returns (by decide) (by decide) (by decide) (by decide)) ∅
    (by decide) (by decide) hfits (by decide) fun k => ?_
  rw [List.filterMap_append, List.filterMap_append, List.filter_append, List.filter_append]
  by_cases hk : 1 = k
  · have hnone : (secondTicker.filterMap Packet.message).filter (·.ticker tickerOf = k) = [] :=
      List.filter_eq_nil_iff.2 fun message hm => by simp [hsecond message hm, ← hk]
    rw [hnone, List.append_nil, List.nil_append]
  · have hnone : (firstTicker.filterMap Packet.message).filter (·.ticker tickerOf = k) = [] :=
      List.filter_eq_nil_iff.2 fun message hm => by simp [hfirst message hm, hk]
    rw [hnone, List.append_nil, List.nil_append]

end Nanomatch
