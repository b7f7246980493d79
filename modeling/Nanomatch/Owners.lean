import Nanomatch.ItchFeed
import Nanomatch.Makers

/-!
# Owners and resting orders

`ref_owner` and the books change in one message, but by different code: the parser erases the key of
the order that the message names, and not those of the orders that an add takes out of the book.
-/

namespace Nanomatch

namespace OrderBook

variable {M : Type} (c : OrderBook M)

/-- An order with the id rests in the book. -/
def HasId (id : OrderId) : Prop := ∃ o ∈ c.resting .BUY ++ c.resting .SELL, o.id = id

variable [IdMapOps M]

/-- The book that `insert_limit_order` matches against, its window in place. -/
def windowed (s : OrderBook M) (price : ℕ) : Option (OrderBook M) :=
  let s := s.anchor price
  if ¬ s.inBand (s.toIdx price) ∧ s.liveOrderCount ≤ BOOTSTRAP_REBASE_LIMIT then
    s.rebaseBase (centeredBase s.bids.size price)
  else some s

/-- An insert takes no order out of the book: if the window moves it drops none, and the first maker
that the order meets holds more than the order wants. -/
structure TakesNone (side : Side) (price qty : ℕ) : Prop where
  window : c.Moves price → ∀ o ∈ c.resting .BUY ++ c.resting .SELL,
    c.Keeps (centeredBase c.bids.size price) (c.absPrice o)
  makers : ∀ s ∈ c.windowed price, s.inBand (s.toIdx price) →
    ∀ slot ∈ (s.metMakers side.other (s.toIdx price).toNat).head?, qty < s.qtyAt slot

instance (id : OrderId) : Decidable (c.HasId id) :=
  inferInstanceAs (Decidable (∃ o ∈ c.resting .BUY ++ c.resting .SELL, _))

instance (side : Side) (price qty : ℕ) : Decidable (c.TakesNone side price qty) :=
  decidable_of_iff
    ((c.Moves price → ∀ o ∈ c.resting .BUY ++ c.resting .SELL,
      c.Keeps (centeredBase c.bids.size price) (c.absPrice o)) ∧
    ∀ s ∈ c.windowed price, s.inBand (s.toIdx price) →
      ∀ slot ∈ (s.metMakers side.other (s.toIdx price).toNat).head?, qty < s.qtyAt slot)
    ⟨fun h => ⟨h.1, h.2⟩, fun h => ⟨h.1, h.2⟩⟩

end OrderBook

/-- Deciding a property of `2 ^ k` numbers, half by half. -/
def decidableSpan (p : ℕ → Prop) [DecidablePred p] : (k lo : ℕ) → Decidable (∀ i < 2 ^ k, p (lo + i))
  | 0, lo => decidable_of_iff (p lo)
    ⟨fun h i hi => by
      obtain rfl : i = 0 := by omega
      exact h, fun h => h 0 (by decide)⟩
  | k + 1, lo =>
    have := decidableSpan p k lo
    have := decidableSpan p k (lo + 2 ^ k)
    decidable_of_iff ((∀ i < 2 ^ k, p (lo + i)) ∧ ∀ i < 2 ^ k, p (lo + 2 ^ k + i)) <| by
      constructor
      · rintro ⟨hlow, hhigh⟩ i hi
        rcases Nat.lt_or_ge i (2 ^ k) with hlt | hge
        · exact hlow i hlt
        · have he : lo + 2 ^ k + (i - 2 ^ k) = lo + i := by omega
          exact he ▸ hhigh (i - 2 ^ k) (by omega)
      · intro h
        exact ⟨fun i hi => h i (by omega), fun i hi =>
          Nat.add_assoc lo (2 ^ k) i ▸ h (2 ^ k + i) (by omega)⟩

namespace Market

variable {M : Type} (m : Market (OrderBook M))

/-- No order with the id rests in any book. -/
def NoneHas (id : OrderId) : Prop :=
  ∀ locate < kMaxStockLocate, ∀ c ∈ m.marketBooks.cell locate, ¬ c.HasId id

/-- The keys of `ref_owner` are the ids of the orders that rest in the books, each with the place of
its book. -/
def InStep : Prop := ∀ id locate, m.refOwner id = some locate ↔
  locate < kMaxStockLocate ∧ ∃ c, m.marketBooks.cell locate = some c ∧ c.HasId id

/-- The message does not insert an id that rests in a book. A replace may keep its order's id. -/
def NewIds (allowedLocates : Finset UInt16) : Message → Prop
  | .add locate id _ _ _ =>
    locate.toNat < kMaxStockLocate ∧ isTracked allowedLocates locate → m.NoneHas id
  | .replace oldId newId _ _ => m.refOwner oldId ≠ none ∧ newId ≠ oldId → m.NoneHas newId
  | _ => True

/-- The insert of the message, if it makes one, takes no order out of its book. -/
def TakesNone [IdMapOps M] (newBook : OrderBook M) (allowedLocates : Finset UInt16) :
    Message → Prop
  | .add locate _ side price shares =>
    locate.toNat < kMaxStockLocate ∧ isTracked allowedLocates locate →
      ((m.marketBooks.cell locate.toNat).getD newBook).TakesNone side price.toNat shares.toNat
  | .replace oldId _ price shares =>
    ∀ locate ∈ m.refOwner oldId, ∀ c ∈ m.marketBooks.cell locate, ∀ idx ∈ c.findId oldId,
      ∀ o ∈ c.readOrder idx, ∀ c' ∈ c.cancelOrder oldId,
        c'.TakesNone o.side price.toNat shares.toNat
  | _ => True

instance (id : OrderId) : Decidable (m.NoneHas id) :=
  have := decidableSpan (fun locate => ∀ c ∈ m.marketBooks.cell locate, ¬ c.HasId id) 13 0
  decidable_of_iff (∀ i < 2 ^ 13, ∀ c ∈ m.marketBooks.cell (0 + i), ¬ c.HasId id) <| by
    simp only [Nat.zero_add]
    rfl

instance (allowedLocates : Finset UInt16) : (message : Message) →
    Decidable (m.NewIds allowedLocates message)
  | .add _ _ _ _ _ => inferInstanceAs (Decidable (_ ∧ _ → _))
  | .execute _ _ => .isTrue trivial
  | .cancel _ _ => .isTrue trivial
  | .delete _ => .isTrue trivial
  | .replace _ _ _ _ => inferInstanceAs (Decidable (_ ∧ _ → _))

instance [IdMapOps M] (newBook : OrderBook M) (allowedLocates : Finset UInt16) :
    (message : Message) → Decidable (m.TakesNone newBook allowedLocates message)
  | .add _ _ _ _ _ => inferInstanceAs (Decidable (_ ∧ _ → _))
  | .execute _ _ => .isTrue trivial
  | .cancel _ _ => .isTrue trivial
  | .delete _ => .isTrue trivial
  | .replace oldId _ _ _ => inferInstanceAs (Decidable (∀ locate ∈ m.refOwner oldId, _))

end Market

namespace ItchParser

variable {β : Type} [OrderBookOps β]

/-- `P` holds of every message of `n` rounds in the market that it meets. -/
def AlongRounds (P : Market β → Message → Prop) (newBook : β) (allowedLocates : Finset UInt16)
    (file : List UInt8) : ℕ → Replay β → Prop
  | 0, _ => True
  | n + 1, r => (∀ message, messageAt file r.cursor = some (some message) → P r.market message) ∧
    match round newBook allowedLocates file r with
    | some (some r') => AlongRounds P newBook allowedLocates file n r'
    | _ => True

instance decidableAlongRounds (P : Market β → Message → Prop) [∀ m message, Decidable (P m message)]
    (newBook : β) (allowedLocates : Finset UInt16) (file : List UInt8) :
    (n : ℕ) → (r : Replay β) → Decidable (AlongRounds P newBook allowedLocates file n r)
  | 0, _ => .isTrue trivial
  | n + 1, r =>
    have : Decidable (∀ message, messageAt file r.cursor = some (some message) →
        P r.market message) := match messageAt file r.cursor with
      | some (some message) => decidable_of_iff (P r.market message) (by simp)
      | some none => .isTrue (by simp)
      | none => .isTrue (by simp)
    match h : round newBook allowedLocates file r with
    | some (some r') =>
      have := decidableAlongRounds P newBook allowedLocates file n r'
      decidable_of_iff ((∀ message, messageAt file r.cursor = some (some message) →
        P r.market message) ∧ AlongRounds P newBook allowedLocates file n r')
        (by simp [AlongRounds, h])
    | some none => decidable_of_iff (∀ message, messageAt file r.cursor = some (some message) →
        P r.market message) (by simp [AlongRounds, h])
    | none => decidable_of_iff (∀ message, messageAt file r.cursor = some (some message) →
        P r.market message) (by simp [AlongRounds, h])

end ItchParser

end Nanomatch
