import Nanomatch.Proofs.ItchApart

/-!
# Tracking other tickers

A run that tracks some tickers only is the shadow of the run that tracks all of them: it has the
same books in the places that it tracks, and the owners among these places. What the full run does
in another place does not show, as long as no id goes from one place to another.
-/

namespace Nanomatch

variable {β : Type} {newBook b : β} {Inv : β → Prop} {full full' shadow m m' : Market β}
  {allowedLocates : Finset UInt16} {locate : ℕ} {id oldId newId : OrderId} {r : β × Bool}

namespace Market

section Shadow

/-- The books in the tracked places are those of the run that tracks all places, and so are the
owners among these places. -/
structure Shadow (allowedLocates : Finset UInt16) (shadow full : Market β) : Prop where
  books : ∀ locate, isTracked allowedLocates (UInt16.ofNat locate) →
    shadow.marketBooks.cell locate = full.marketBooks.cell locate
  owner : ∀ id locate, shadow.refOwner id = some locate ↔
    full.refOwner id = some locate ∧ isTracked allowedLocates (UInt16.ofNat locate)

/-- No id goes from one place to another. -/
def Settled (m m' : Market β) : Prop := ∀ id locate locate', m.refOwner id = some locate →
  m'.refOwner id = some locate' → locate = locate'

theorem shadow_init (allowedLocates : Finset UInt16) : Shadow allowedLocates ({} : Market β) {} where
  books _ _ := rfl
  owner _ _ := iff_of_false (Option.some_ne_none _).symm fun h => Option.some_ne_none _ h.1.symm

theorem Shadow.put (h : Shadow allowedLocates shadow full) (locate : ℕ) (b : β) :
    Shadow allowedLocates (shadow.put locate b) (full.put locate b) where
  books i hi := by rw [put_cell, put_cell, h.books i hi]
  owner := h.owner

theorem Shadow.setOwner (h : Shadow allowedLocates shadow full) (id : OrderId)
    (ht : isTracked allowedLocates (UInt16.ofNat locate)) :
    Shadow allowedLocates (shadow.setOwner id locate) (full.setOwner id locate) where
  books := h.books
  owner id' i := by
    rw [setOwner_refOwner, setOwner_refOwner]
    split_ifs
    · simp only [Option.some.injEq]
      exact ⟨fun hi => ⟨hi, hi ▸ ht⟩, And.left⟩
    · exact h.owner id' i

theorem Shadow.eraseOwner (h : Shadow allowedLocates shadow full) (id : OrderId) :
    Shadow allowedLocates (shadow.eraseOwner id) (full.eraseOwner id) where
  books := h.books
  owner id' i := by
    rw [eraseOwner_refOwner, eraseOwner_refOwner]
    split_ifs
    · simp
    · exact h.owner id' i

theorem Shadow.added (h : Shadow allowedLocates shadow full)
    (ht : isTracked allowedLocates (UInt16.ofNat locate)) :
    Shadow allowedLocates (shadow.added locate id r) (full.added locate id r) := by
  unfold Market.added
  split_ifs
  · exact (h.put locate r.1).setOwner id ht
  · exact h.put locate r.1

theorem Shadow.worked (h : Shadow allowedLocates shadow full) (locate : ℕ) (id : OrderId)
    (r : β × Bool) :
    Shadow allowedLocates (shadow.worked locate id r) (full.worked locate id r) := by
  unfold Market.worked
  split_ifs
  · exact (h.put locate r.1).eraseOwner id
  · exact h.put locate r.1

theorem Shadow.replaced (h : Shadow allowedLocates shadow full)
    (ht : isTracked allowedLocates (UInt16.ofNat locate)) :
    Shadow allowedLocates (shadow.replaced locate oldId newId r)
      (full.replaced locate oldId newId r) := by
  unfold Market.replaced
  split_ifs
  · exact ((h.put locate r.1).eraseOwner oldId).setOwner newId ht
  · exact (h.put locate r.1).eraseOwner oldId

/-- The market `full'` differs from `full` in the book of one place, and in the owners of ids that
it owns in one of the two. -/
structure Within (locate : ℕ) (full full' : Market β) : Prop where
  books : ∀ i ≠ locate, full'.marketBooks.cell i = full.marketBooks.cell i
  owner : ∀ id, full'.refOwner id = full.refOwner id ∨ full'.refOwner id = some locate ∨
    full.refOwner id = some locate ∧ full'.refOwner id = none

theorem within_added (m : Market β) (locate : ℕ) (id : OrderId) (r : β × Bool) :
    Within locate m (m.added locate id r) := by
  unfold Market.added
  split_ifs
  · refine ⟨fun i hi => if_neg hi, fun id' => ?_⟩
    rw [setOwner_refOwner]
    split_ifs
    · exact .inr (.inl rfl)
    · exact .inl rfl
  · exact ⟨fun i hi => if_neg hi, fun _ => .inl rfl⟩

theorem within_worked (h : m.refOwner id = some locate) (r : β × Bool) :
    Within locate m (m.worked locate id r) := by
  unfold Market.worked
  split_ifs
  · refine ⟨fun i hi => if_neg hi, fun id' => ?_⟩
    rw [eraseOwner_refOwner]
    split_ifs with hid
    · exact .inr (.inr ⟨hid ▸ h, rfl⟩)
    · exact .inl rfl
  · exact ⟨fun i hi => if_neg hi, fun _ => .inl rfl⟩

theorem within_replaced (h : m.refOwner oldId = some locate) (newId : OrderId) (r : β × Bool) :
    Within locate m (m.replaced locate oldId newId r) := by
  have herase : ∀ id, ((m.put locate r.1).eraseOwner oldId).refOwner id = m.refOwner id ∨
      m.refOwner id = some locate ∧ ((m.put locate r.1).eraseOwner oldId).refOwner id = none := by
    intro id
    rw [eraseOwner_refOwner]
    split_ifs with hid
    · exact .inr ⟨hid ▸ h, rfl⟩
    · exact .inl rfl
  unfold Market.replaced
  split_ifs
  · refine ⟨fun i hi => if_neg hi, fun id => ?_⟩
    rw [setOwner_refOwner]
    split_ifs
    · exact .inr (.inl rfl)
    · exact (herase id).imp_right .inr
  · exact ⟨fun i hi => if_neg hi, fun id => (herase id).imp_right .inr⟩

/-- What happens in a place that is not tracked does not show. -/
theorem Shadow.within (h : Shadow allowedLocates shadow full) (hw : Within locate full full')
    (hsettled : Settled full full') (ht : ¬ isTracked allowedLocates (UInt16.ofNat locate)) :
    Shadow allowedLocates shadow full' where
  books i hi := by
    have hne : i ≠ locate := fun he => ht (he ▸ hi)
    rw [h.books i hi, hw.books i hne]
  owner id i := by
    rw [h.owner]
    rcases hw.owner id with he | he | ⟨he, hnone⟩
    · rw [he]
    · refine and_congr_left fun hi => iff_of_false (fun hf => ?_) fun hf => ?_
      · exact ht (hsettled id i locate hf he ▸ hi)
      · exact ht (Option.some.inj (he.symm.trans hf) ▸ hi)
    · rw [he, hnone]
      refine iff_of_false (fun hf => ?_) fun hf => Option.some_ne_none i hf.1.symm
      exact ht (Option.some.inj hf.1 ▸ hf.2)

theorem Shadow.refOwner_none (h : Shadow allowedLocates shadow full)
    (hid : ∀ i, full.refOwner id = some i → ¬ isTracked allowedLocates (UInt16.ofNat i)) :
    shadow.refOwner id = none := by
  refine Option.eq_none_iff_forall_ne_some.2 fun i hi => ?_
  obtain ⟨hf, ht⟩ := (h.owner id i).1 hi
  exact hid i hf ht

end Shadow

section Handle

/-- An operation on the book of an order. -/
theorem Shadow.onOwner (h : Shadow allowedLocates shadow full) (hs : shadow.Ok Inv)
    (hf : full.Ok Inv) {op : β → Option (β × Bool)} (hfull : full.onOwner id op = some full')
    (hsettled : Settled full full') :
    ∃ shadow', shadow.onOwner id op = some shadow' ∧ Shadow allowedLocates shadow' full' := by
  rcases hid : full.refOwner id with _ | locate
  · obtain rfl : full = full' := Option.some.inj ((onOwner_none hid op).symm.trans hfull)
    have hnone := h.refOwner_none fun i hi => absurd (hid.symm.trans hi) (Option.some_ne_none i).symm
    exact ⟨shadow, onOwner_none hnone op, h⟩
  obtain ⟨hlt, b, hb⟩ := hf.owner id locate hid
  rw [onOwner_some hid (hf.size.symm ▸ hlt) hb, Option.map_eq_some_iff] at hfull
  obtain ⟨r, hr, rfl⟩ := hfull
  by_cases ht : isTracked allowedLocates (UInt16.ofNat locate)
  · have hid' := (h.owner id locate).2 ⟨hid, ht⟩
    have hb' := (h.books locate ht).trans hb
    refine ⟨shadow.worked locate id r, ?_, h.worked locate id r⟩
    rw [onOwner_some hid' (hs.size.symm ▸ hlt) hb', hr]
    rfl
  · have hnone := h.refOwner_none fun i hi => Option.some.inj (hid.symm.trans hi) ▸ ht
    exact ⟨shadow, onOwner_none hnone op, h.within (within_worked hid r) hsettled ht⟩

variable [OrderBookOps β]

theorem Shadow.addOrder (h : Shadow allowedLocates shadow full) (hs : shadow.Ok Inv)
    (hf : full.Ok Inv) {locate : UInt16} {side : Side} {price shares : UInt32}
    (hfull : full.addOrder newBook ∅ locate id side price shares = some full')
    (hsettled : Settled full full') :
    ∃ shadow', shadow.addOrder newBook allowedLocates locate id side price shares = some shadow' ∧
      Shadow allowedLocates shadow' full' := by
  by_cases hlt : locate.toNat < kMaxStockLocate
  · rw [addOrder_tracked side price shares ⟨hlt, .inl rfl⟩ hf.size, Option.map_eq_some_iff] at hfull
    obtain ⟨r, hr, rfl⟩ := hfull
    have hplace : UInt16.ofNat locate.toNat = locate := UInt16.ofNat_toNat
    by_cases ht : isTracked allowedLocates locate
    · refine ⟨shadow.added locate.toNat id r, ?_, h.added (hplace.symm ▸ ht)⟩
      rw [addOrder_tracked side price shares ⟨hlt, ht⟩ hs.size, h.books _ (hplace.symm ▸ ht), hr]
      rfl
    · refine ⟨shadow, addOrder_untracked side price shares fun hc => ht hc.2, ?_⟩
      exact h.within (within_added full locate.toNat id r) hsettled (hplace.symm ▸ ht)
  · rw [addOrder_untracked side price shares fun hc => hlt hc.1] at hfull
    obtain rfl := Option.some.inj hfull
    exact ⟨shadow, addOrder_untracked side price shares fun hc => hlt hc.1, h⟩

theorem Shadow.replaceOrder (h : Shadow allowedLocates shadow full) (hs : shadow.Ok Inv)
    (hf : full.Ok Inv) {price shares : UInt32}
    (hfull : full.replaceOrder oldId newId price shares = some full')
    (hsettled : Settled full full') :
    ∃ shadow', shadow.replaceOrder oldId newId price shares = some shadow' ∧
      Shadow allowedLocates shadow' full' := by
  rcases hid : full.refOwner oldId with _ | locate
  · rw [replaceOrder_none hid] at hfull
    obtain rfl := Option.some.inj hfull
    have hnone := h.refOwner_none fun i hi => absurd (hid.symm.trans hi) (Option.some_ne_none i).symm
    exact ⟨shadow, replaceOrder_none hnone newId price shares, h⟩
  obtain ⟨hlt, b, hb⟩ := hf.owner oldId locate hid
  rw [replaceOrder_some hid (hf.size.symm ▸ hlt) hb, Option.bind_eq_some_iff] at hfull
  obtain ⟨idx, hfind, hfull⟩ := hfull
  by_cases ht : isTracked allowedLocates (UInt16.ofNat locate)
  · have hid' := (h.owner oldId locate).2 ⟨hid, ht⟩
    have hb' := (h.books locate ht).trans hb
    rw [replaceOrder_some hid' (hs.size.symm ▸ hlt) hb', hfind, Option.bind_some]
    split_ifs at hfull ⊢ with hne
    · obtain rfl := Option.some.inj hfull
      exact ⟨shadow, rfl, h⟩
    · obtain ⟨r, hr, rfl⟩ := Option.map_eq_some_iff.1 hfull
      exact ⟨shadow.replaced locate oldId newId r, by rw [hr]; rfl, h.replaced ht⟩
  · have hnone := h.refOwner_none fun i hi => Option.some.inj (hid.symm.trans hi) ▸ ht
    refine ⟨shadow, replaceOrder_none hnone newId price shares, ?_⟩
    split_ifs at hfull
    · exact Option.some.inj hfull ▸ h
    · obtain ⟨r, -, rfl⟩ := Option.map_eq_some_iff.1 hfull
      exact h.within (within_replaced hid newId r) hsettled ht

/-- A message leaves the shadow run the shadow of the full one. -/
theorem Shadow.dispatch (h : Shadow allowedLocates shadow full) (hs : shadow.Ok Inv)
    (hf : full.Ok Inv) : ∀ {message : Option Message},
    full.dispatch newBook ∅ message = some full' → Settled full full' →
    ∃ shadow', shadow.dispatch newBook allowedLocates message = some shadow' ∧
      Shadow allowedLocates shadow' full'
  | none, hfull, _ => ⟨shadow, rfl, Option.some.inj hfull ▸ h⟩
  | some (.add _ _ _ _ _), hfull, hsettled => h.addOrder hs hf hfull hsettled
  | some (.execute _ _), hfull, hsettled => h.onOwner hs hf hfull hsettled
  | some (.cancel _ _), hfull, hsettled => h.onOwner hs hf hfull hsettled
  | some (.delete _), hfull, hsettled => h.onOwner hs hf hfull hsettled
  | some (.replace _ _ _ _), hfull, hsettled => h.replaceOrder hs hf hfull hsettled

end Handle

end Market

section Runs

variable [OrderBookOps β]

namespace ItchParser

open Framing

theorem handleAll_take_succ (messages : List (Option Message)) (n : ℕ) (m : Market β) :
    m.handleAll newBook allowedLocates (messages.take (n + 1)) =
      (m.handleAll newBook allowedLocates (messages.take n)).bind fun m' =>
        match messages[n]? with
        | none => some m'
        | some message => m'.dispatch newBook allowedLocates message := by
  rw [List.take_add_one, handleAll_append]
  congr 1
  funext m'
  rcases messages[n]? with _ | message
  · rfl
  · simp [Market.handleAll]

/-- After every message the run that tracks `allowedLocates` is the shadow of the full one. -/
theorem shadow_take (hret : Returns newBook Inv) (allowedLocates : Finset UInt16)
    (messages : List (Option Message))
    (hone : ∀ n m m', ({} : Market β).handleAll newBook ∅ (messages.take n) = some m →
      ({} : Market β).handleAll newBook ∅ (messages.take (n + 1)) = some m' →
      Market.Settled m m') (n : ℕ) : ∃ shadow full : Market β,
    ({} : Market β).handleAll newBook allowedLocates (messages.take n) = some shadow ∧
    ({} : Market β).handleAll newBook ∅ (messages.take n) = some full ∧
    shadow.Ok Inv ∧ full.Ok Inv ∧ Market.Shadow allowedLocates shadow full := by
  induction n with
  | zero =>
    exact ⟨{}, {}, rfl, rfl, Market.ok_init Inv, Market.ok_init Inv, Market.shadow_init _⟩
  | succ n ih =>
    obtain ⟨shadow, full, hshadow, hfull, hs, hf, h⟩ := ih
    obtain ⟨full', hfull', hf'⟩ := Market.Ok.handleAll hret ∅ (messages.take (n + 1))
      (Market.ok_init Inv)
    have hsettled := hone n full full' hfull hfull'
    have hlast := hfull'
    rw [handleAll_take_succ, hfull, Option.bind_some] at hlast
    rw [handleAll_take_succ, hshadow, Option.bind_some]
    rcases hmsg : messages[n]? with _ | message
    · rw [hmsg] at hlast
      exact ⟨shadow, full', rfl, hfull', hs, hf', Option.some.inj hlast ▸ h⟩
    · rw [hmsg] at hlast
      obtain ⟨shadow', hshadow', h'⟩ := h.dispatch hs hf hlast hsettled
      obtain ⟨m, hm, hok⟩ := hs.dispatch hret allowedLocates message
      obtain rfl : m = shadow' := Option.some.inj (hm.symm.trans hshadow')
      exact ⟨m, full', hm, hfull', hok, hf', h'⟩

/-- Two runs over one feed that both track a ticker agree on its book, and on the ids that it owns,
after every message. -/
theorem rounds_tracked (hret : Returns newBook Inv) {file : List UInt8}
    (hone : OneOwner newBook file) (locate : UInt16) {allowed allowed' : Finset UInt16}
    (ht : isTracked allowed locate) (ht' : isTracked allowed' locate) (n : ℕ) :
    ∃ r r', rounds newBook allowed file n { market := {} } = some r ∧
      rounds newBook allowed' file n { market := {} } = some r' ∧
      r.market.marketBooks.cell locate.toNat = r'.market.marketBooks.cell locate.toNat ∧
      ∀ id, r.market.refOwner id = some locate.toNat ↔
        r'.market.refOwner id = some locate.toNat := by
  obtain ⟨fs, rest, hsplit, hend⟩ := exists_stuck nil_notMem_frames file
  have hsettled : ∀ n m m', ({} : Market β).handleAll newBook ∅ ((messagesOf fs rest).take n) =
      some m → ({} : Market β).handleAll newBook ∅ ((messagesOf fs rest).take (n + 1)) = some m' →
      Market.Settled m m' := by
    intro n m m' hm hm' id i i' hi hi'
    have hr := rounds_eq newBook ∅ hsplit hend {} n
    have hr' := rounds_eq newBook ∅ hsplit hend {} (n + 1)
    rw [hm, Option.map_some] at hr
    rw [hm', Option.map_some] at hr'
    exact hone n (n + 1) _ _ hr hr' id i i' hi hi'
  obtain ⟨shadow, full, hs, hf, -, -, h⟩ := shadow_take hret allowed _ hsettled n
  obtain ⟨shadow', full', hs', hf', -, -, h'⟩ := shadow_take hret allowed' _ hsettled n
  obtain rfl : full = full' := Option.some.inj (hf.symm.trans hf')
  have hplace : UInt16.ofNat locate.toNat = locate := UInt16.ofNat_toNat
  refine ⟨_, _, by rw [rounds_eq newBook allowed hsplit hend, hs, Option.map_some],
    by rw [rounds_eq newBook allowed' hsplit hend, hs', Option.map_some], ?_, fun id => ?_⟩
  · exact (h.books _ (hplace.symm ▸ ht)).trans (h'.books _ (hplace.symm ▸ ht')).symm
  · simp only [h.owner, h'.owner, hplace, ht, ht', and_true]

end ItchParser

end Runs

section Places

variable {place : OrderId → ℕ}

/-- The message gives no id to a book other than that of its place. -/
def Message.Fits (place : OrderId → ℕ) : Message → Prop
  | .add locate id _ _ _ => place id = locate.toNat
  | .replace oldId newId _ _ => place newId = place oldId
  | _ => True

instance (place : OrderId → ℕ) : (message : Message) → Decidable (message.Fits place)
  | .add _ _ _ _ _ => inferInstanceAs (Decidable (_ = _))
  | .execute _ _ => .isTrue trivial
  | .cancel _ _ => .isTrue trivial
  | .delete _ => .isTrue trivial
  | .replace _ _ _ _ => inferInstanceAs (Decidable (_ = _))

namespace Market

/-- Every owner is the place of its id. -/
def Placed (place : OrderId → ℕ) (m : Market β) : Prop :=
  ∀ id locate, m.refOwner id = some locate → place id = locate

theorem Placed.setOwner (h : m.Placed place) (hid : place id = locate) :
    (m.setOwner id locate).Placed place := by
  intro id' i hi
  rw [setOwner_refOwner] at hi
  split_ifs at hi with he
  · rw [he, hid, Option.some.inj hi]
  · exact h id' i hi

theorem Placed.eraseOwner (h : m.Placed place) (id : OrderId) : (m.eraseOwner id).Placed place := by
  intro id' i hi
  rw [eraseOwner_refOwner] at hi
  split_ifs at hi
  exact h id' i hi

theorem Placed.added (h : m.Placed place) (hid : place id = locate) :
    (m.added locate id r).Placed place := by
  have hput : (m.put locate r.1).Placed place := h
  unfold Market.added
  split_ifs
  · exact hput.setOwner hid
  · exact hput

theorem Placed.onOwner (h : m.Placed place) (hok : m.Ok Inv) {op : β → Option (β × Bool)}
    (hm : m.onOwner id op = some m') : m'.Placed place := by
  rcases hid : m.refOwner id with _ | locate
  · exact Option.some.inj ((onOwner_none hid op).symm.trans hm) ▸ h
  obtain ⟨hlt, b, hb⟩ := hok.owner id locate hid
  rw [onOwner_some hid (hok.size.symm ▸ hlt) hb, Option.map_eq_some_iff] at hm
  obtain ⟨r, -, rfl⟩ := hm
  have hput : (m.put locate r.1).Placed place := h
  unfold Market.worked
  split_ifs
  · exact hput.eraseOwner id
  · exact hput

variable [OrderBookOps β]

theorem Placed.replaceOrder (h : m.Placed place) (hok : m.Ok Inv) {price shares : UInt32}
    (hfits : place newId = place oldId) (hm : m.replaceOrder oldId newId price shares = some m') :
    m'.Placed place := by
  rcases hid : m.refOwner oldId with _ | locate
  · exact Option.some.inj ((replaceOrder_none hid newId price shares).symm.trans hm) ▸ h
  obtain ⟨hlt, b, hb⟩ := hok.owner oldId locate hid
  rw [replaceOrder_some hid (hok.size.symm ▸ hlt) hb, Option.bind_eq_some_iff] at hm
  obtain ⟨idx, -, hm⟩ := hm
  split_ifs at hm
  · exact Option.some.inj hm ▸ h
  obtain ⟨r, -, rfl⟩ := Option.map_eq_some_iff.1 hm
  have hput : (m.put locate r.1).Placed place := h
  have herase := hput.eraseOwner oldId
  unfold Market.replaced
  split_ifs
  · exact herase.setOwner (hfits.trans (h oldId locate hid))
  · exact herase

theorem Placed.dispatch (h : m.Placed place) (hok : m.Ok Inv) : ∀ {message : Option Message},
    (∀ x ∈ message, x.Fits place) → m.dispatch newBook ∅ message = some m' → m'.Placed place
  | none, _, hm => Option.some.inj hm ▸ h
  | some (.add locate id side price shares), hfits, hm => by
    have hm : m.addOrder newBook ∅ locate id side price shares = some m' := hm
    by_cases hlt : locate.toNat < kMaxStockLocate
    · rw [addOrder_tracked side price shares ⟨hlt, .inl rfl⟩ hok.size, Option.map_eq_some_iff] at hm
      obtain ⟨r, -, rfl⟩ := hm
      exact h.added (hfits _ rfl)
    · rw [addOrder_untracked side price shares fun hc => hlt hc.1] at hm
      exact Option.some.inj hm ▸ h
  | some (.execute _ _), _, hm => h.onOwner hok hm
  | some (.cancel _ _), _, hm => h.onOwner hok hm
  | some (.delete _), _, hm => h.onOwner hok hm
  | some (.replace _ _ _ _), hfits, hm => h.replaceOrder hok (hfits _ rfl) hm

theorem Placed.handleAll (hret : Returns newBook Inv) : ∀ {messages : List (Option Message)}
    {m m' : Market β}, m.Ok Inv → m.Placed place →
    (∀ message ∈ messages, ∀ x ∈ message, x.Fits place) →
    m.handleAll newBook ∅ messages = some m' → m'.Placed place
  | [], _, _, _, h, _, hm => Option.some.inj hm ▸ h
  | message :: messages, m, m', hok, h, hfits, hm => by
    obtain ⟨hfit, hfits⟩ := List.forall_mem_cons.1 hfits
    obtain ⟨m1, hm1, hok1⟩ := hok.dispatch hret ∅ message
    rw [Market.handleAll, hm1] at hm
    exact Placed.handleAll hret hok1 (h.dispatch hok hfit hm1) hfits hm

end Market

namespace ItchParser

open Framing

variable [OrderBookOps β]

/-- If every id has one place in the messages of a feed, no id is inserted into two books. -/
theorem oneOwner_of_fits (hret : Returns newBook Inv) {fs : List (List UInt8)}
    {rest file : List UInt8}
    (h : Splits frames fs rest file) (hend : Stuck frames rest)
    (hfits : ∀ message ∈ messagesOf fs rest, ∀ x ∈ message, x.Fits place) :
    OneOwner newBook file := by
  have hplaced : ∀ n r, rounds newBook ∅ file n { market := {} } = some r →
      r.market.Placed place := by
    intro n r hr
    rw [rounds_eq newBook ∅ h hend, Option.map_eq_some_iff] at hr
    obtain ⟨m, hm, rfl⟩ := hr
    exact Market.Placed.handleAll hret (Market.ok_init Inv)
      (fun _ _ hi => (Option.some_ne_none _ hi.symm).elim)
      (fun message hmem => hfits message (List.mem_of_mem_take hmem)) hm
  intro n n' r r' hr hr' id i i' hi hi'
  rw [← hplaced n r hr id i hi, hplaced n' r' hr' id i' hi']

/-- An add of order 8 of the stock 2. -/
def addEight : List UInt8 := [0, 36, 65, 0, 2, 0, 0, 0, 0, 0, 0, 0, 0, 0, 0, 0, 0, 0, 0, 0, 8, 66,
  0, 0, 0, 5, 66, 66, 66, 66, 66, 66, 66, 66, 0, 0, 0, 100]

theorem oneOwner_twoTickers : OneOwner (fresh 16 4) (addSeven ++ addEight ++ deleteSeven) := by
  have hframes : ∀ f ∈ [addSeven, addEight, deleteSeven], IsFrame f := by
    simp only [List.forall_mem_cons]
    exact ⟨isFrame_addSeven, ⟨0, 36, _, rfl, by decide, by decide⟩,
      ⟨0, 19, _, rfl, by decide, by decide⟩, by simp⟩
  have hfits : ∀ message ∈ messagesOf [addSeven, addEight, deleteSeven] [], ∀ x ∈ message,
      x.Fits fun id => if id = 7 then 1 else 2 := by
    decide +kernel
  exact oneOwner_of_fits (fresh_returns (by decide) (by decide) (by decide) (by decide))
    ⟨hframes, by simp⟩ stuck_nil hfits

theorem rounds_tracked_twoTickers : ∃ r r',
    rounds (fresh 16 4) {1} (addSeven ++ addEight ++ deleteSeven) 2 { market := {} } = some r ∧
    rounds (fresh 16 4) ∅ (addSeven ++ addEight ++ deleteSeven) 2 { market := {} } = some r' ∧
    r.market.marketBooks.cell 1 = r'.market.marketBooks.cell 1 ∧
    ∀ id, r.market.refOwner id = some 1 ↔ r'.market.refOwner id = some 1 :=
  rounds_tracked (fresh_returns (by decide) (by decide) (by decide) (by decide))
    oneOwner_twoTickers 1 (by decide) (by decide) 2

end ItchParser

end Places

end Nanomatch
