import Nanomatch.Makers
import Nanomatch.Proofs.IdMapRuns
import Nanomatch.Proofs.Runs

/-!
# What a match does not look at

`match_against_asks` and `match_against_bids` use the id map only to erase ids from it, and do not
look at `base_set_`. So a match on one book is a match on any other that differs in these two, and
the calls it makes can be read off a book whose id map only writes them down.
-/

namespace Nanomatch

variable {M M' : Type}

namespace OrderBook

/-- The book over the id map `m`, with `b` for `base_set_`. -/
def onMap (c : OrderBook M) (m : M') (b : Bool) : OrderBook M' :=
  { c with idMap := m, baseSet := b }

variable (c : OrderBook M) (m : M') (b : Bool) (sd : Side) (i s : ℕ)

section Access

theorem readLevel_onMap : (c.onMap m b).readLevel sd i = c.readLevel sd i := by
  cases sd <;> rfl

theorem modifyOrder_onMap (f : Order → Order) :
    (c.onMap m b).modifyOrder s f = (c.modifyOrder s f).map (onMap · m b) := by
  simp only [modifyOrder, Option.bind_eq_bind, Option.map_bind]
  rfl

theorem modifyLevel_onMap (f : PriceLevel → PriceLevel) :
    (c.onMap m b).modifyLevel sd i f = (c.modifyLevel sd i f).map (onMap · m b) := by
  cases sd <;> simp only [modifyLevel, Option.bind_eq_bind, Option.map_bind] <;> rfl

theorem clearBit_onMap : (c.onMap m b).clearBit sd i = (c.clearBit sd i).map (onMap · m b) := by
  cases sd <;> simp only [clearBit, Option.bind_eq_bind, Option.map_bind] <;> rfl

theorem deallocate_onMap : (c.onMap m b).deallocate i = (c.deallocate i).map (onMap · m b) := by
  simp only [deallocate, Option.bind_eq_bind, Option.map_bind]
  rfl

theorem dropLive_onMap : (c.onMap m b).dropLive = c.dropLive.onMap m b := by
  have hlive : (c.onMap m b).liveOrderCount = c.liveOrderCount := rfl
  unfold dropLive
  rw [hlive]
  split_ifs <;> rfl

theorem updateBestBid_onMap : (c.onMap m b).updateBestBid = c.updateBestBid.map (onMap · m b) := by
  simp only [updateBestBid, Option.bind_eq_bind, Option.map_bind]
  refine Option.bind_congr fun next _ => ?_
  simp only [Function.comp_apply, apply_ite (Option.map (onMap · m b)), Option.map_bind]
  rfl

theorem updateBestAsk_onMap : (c.onMap m b).updateBestAsk = c.updateBestAsk.map (onMap · m b) := by
  simp only [updateBestAsk, Option.bind_eq_bind, Option.map_bind]
  refine Option.bind_congr fun next _ => ?_
  simp only [Function.comp_apply, apply_ite (Option.map (onMap · m b)), Option.map_bind]
  rfl

/-- Two steps of the code, the first on the book. -/
theorem bind_onMap {x : Option (OrderBook M)} {f : OrderBook M → Option (OrderBook M)}
    {g : OrderBook M' → Option (OrderBook M')} (h : ∀ c, g (c.onMap m b) = (f c).map (onMap · m b)) :
    (x.map (onMap · m b)).bind g = (x.bind f).map (onMap · m b) := by
  rw [Option.bind_map, Option.map_bind]
  exact Option.bind_congr fun c _ => h c

/-- Two steps of the code, the first a look at the book. -/
theorem look_onMap {α : Type} {x : Option α} {f : α → Option (OrderBook M)}
    {g : α → Option (OrderBook M')} (h : ∀ o, g o = (f o).map (onMap · m b)) :
    x.bind g = (x.bind f).map (onMap · m b) := by
  rw [Option.map_bind]
  exact Option.bind_congr fun o _ => h o

theorem if_onMap {p : Prop} [Decidable p] {x y : Option (OrderBook M)}
    {x' y' : Option (OrderBook M')} (hx : x' = x.map (onMap · m b)) (hy : y' = y.map (onMap · m b)) :
    (if p then x' else y') = (if p then x else y).map (onMap · m b) := by
  rw [apply_ite (Option.map (onMap · m b)), hx, hy]

theorem levelRemove_onMap :
    (c.onMap m b).levelRemove sd i s = (c.levelRemove sd i s).map (onMap · m b) := by
  unfold levelRemove
  refine look_onMap m b fun o => ?_
  rw [if_onMap m b (modifyLevel_onMap c m b sd i _) (modifyOrder_onMap c m b _ _)]
  refine bind_onMap m b fun c => look_onMap m b fun o => ?_
  rw [if_onMap m b (modifyLevel_onMap c m b sd i _) (modifyOrder_onMap c m b _ _)]
  refine bind_onMap m b fun c => look_onMap m b fun o => ?_
  rw [modifyLevel_onMap]
  refine bind_onMap m b fun c => ?_
  rw [readLevel_onMap]
  refine look_onMap m b fun level => ?_
  have hsame : some (c.onMap m b) = (some c).map (onMap · m b) := rfl
  rw [if_onMap m b (if_onMap m b (clearBit_onMap c m b _ _) (clearBit_onMap c m b _ _)) hsame]
  exact bind_onMap m b fun c => modifyOrder_onMap c m b _ _

/-- What does not look at the id map does not change it. -/
theorem idMap_eq {c c' : OrderBook M} {x : Option (OrderBook M)}
    (hx : x = x.map (onMap · c.idMap c.baseSet)) (h : x = some c') : c'.idMap = c.idMap := by
  rw [h, Option.map_some, Option.some.injEq] at hx
  rw [hx]
  rfl

theorem TopExact.onMap {c : OrderBook M} {m : M'} {b : Bool} (h : c.TopExact) :
    (c.onMap m b).TopExact :=
  ⟨h.bid, h.noBid, h.ask, h.noAsk⟩

end Access

section Matching

variable [IdMapOps M] [IdMapOps M']

/-- The id map `m` is `m₀` after the calls of the log, and answers further erases. -/
def Follows (E : M → Prop) (m₀ : M) (log : CallLog M') (m : M) : Prop :=
  runCalls m₀ log.calls = some m ∧ E m

variable {E : M → Prop} (hE : ∀ m id, E m → ∃ m', IdMapOps.erase m id = some m' ∧ E m')
  {m₀ m : M} {c c' : OrderBook (CallLog M')} {b : Bool} {sd : Side} {i : ℕ} {takerId : OrderId}

include hE

theorem eraseId_onMap {id : OrderId} (h : c.eraseId id = some c') (hm : Follows E m₀ c.idMap m) :
    ∃ m', Follows E m₀ c'.idMap m' ∧ (c.onMap m b).eraseId id = some (c'.onMap m' b) := by
  obtain ⟨m', hm', hE'⟩ := hE m id hm.2
  obtain rfl := Option.some.inj h
  exact ⟨m', ⟨(runCalls_cons hm.1).trans hm', hE'⟩, bind_some hm' rfl⟩

/-- A level's order with no quantity left is removed. -/
theorem leave_onMap {o : Order} {idx : ℕ}
    (h : (if o.qty = 0 then do
        let c ← c.levelRemove sd i idx
        let c ← c.eraseId o.id
        let c ← c.deallocate idx
        some c.dropLive
      else some c) = some c') (hm : Follows E m₀ c.idMap m) :
    ∃ m', Follows E m₀ c'.idMap m' ∧
      (if o.qty = 0 then do
        let c ← (c.onMap m b).levelRemove sd i idx
        let c ← c.eraseId o.id
        let c ← c.deallocate idx
        some c.dropLive
      else some (c.onMap m b)) = some (c'.onMap m' b) := by
  split_ifs at h ⊢
  · obtain ⟨c1, h1, h⟩ := Option.bind_eq_some_iff.1 h
    obtain ⟨c2, h2, h⟩ := Option.bind_eq_some_iff.1 h
    obtain ⟨c3, h3, h⟩ := Option.bind_eq_some_iff.1 h
    obtain rfl := Option.some.inj h
    have hm1 : Follows E m₀ c1.idMap m := by
      rwa [idMap_eq (levelRemove_onMap c c.idMap c.baseSet sd i idx) h1]
    have hid3 := idMap_eq (deallocate_onMap c2 c2.idMap c2.baseSet idx) h3
    have hid4 : c3.dropLive.idMap = c3.idMap := by
      unfold dropLive
      split_ifs <;> rfl
    obtain ⟨m', hm', hrun⟩ := eraseId_onMap hE h2 hm1
    refine ⟨m', by rwa [hid4, hid3], ?_⟩
    refine bind_some (by rw [levelRemove_onMap, h1]; rfl) (bind_some hrun ?_)
    refine bind_some (by rw [deallocate_onMap, h3]; rfl) ?_
    rw [dropLive_onMap]
  · obtain rfl := Option.some.inj h
    exact ⟨m, hm, rfl⟩

theorem matchLevel_onMap : ∀ (fuel : ℕ) (c : OrderBook (CallLog M')) (m : M) (idx remaining left : ℕ),
    matchLevel sd i takerId fuel c idx remaining = some (c', left) → Follows E m₀ c.idMap m →
    ∃ m', Follows E m₀ c'.idMap m' ∧
      matchLevel sd i takerId fuel (c.onMap m b) idx remaining = some (c'.onMap m' b, left)
  | 0, _, _, _, _, _, h, _ => absurd h (by simp [matchLevel])
  | fuel + 1, c, m, idx, remaining, left, h, hm => by
    unfold matchLevel at h ⊢
    split_ifs at h ⊢ with hc
    · obtain ⟨o, ho, h⟩ := Option.bind_eq_some_iff.1 h
      obtain ⟨level, hl, h⟩ := Option.bind_eq_some_iff.1 h
      obtain ⟨c1, h1, h⟩ := Option.bind_eq_some_iff.1 h
      obtain ⟨c2, h2, h⟩ := Option.bind_eq_some_iff.1 h
      obtain ⟨o', ho', h⟩ := Option.bind_eq_some_iff.1 h
      obtain ⟨c3, h3, h⟩ := Option.bind_eq_some_iff.1 h
      have hid1 : c1.idMap = c.idMap := idMap_eq (modifyOrder_onMap (c.enqueueTrade _) _ _ _ _) h1
      have hid2 : c2.idMap = c1.idMap := idMap_eq (modifyLevel_onMap c1 _ _ _ _ _) h2
      have hm2 : Follows E m₀ c2.idMap m := by rwa [hid2, hid1]
      obtain ⟨m1, hm1, hleave⟩ := leave_onMap hE h3 hm2
      obtain ⟨m2, hm2, hrun⟩ := matchLevel_onMap fuel c3 m1 _ _ left h hm1
      refine ⟨m2, hm2, bind_some ho (bind_some (by rw [readLevel_onMap, hl]) ?_)⟩
      have h1' := modifyOrder_onMap (c.enqueueTrade ⟨o.id, takerId, level.price, min remaining o.qty⟩)
        m b idx fun o' => { o' with qty := o'.qty - min remaining o.qty }
      rw [h1, Option.map_some] at h1'
      refine bind_some h1' (bind_some (by rw [modifyLevel_onMap, h2]; rfl) ?_)
      exact bind_some ho' (bind_some hleave hrun)
    · obtain ⟨rfl, rfl⟩ : c = c' ∧ remaining = left := by simpa using h
      exact ⟨m, hm, rfl⟩

variable {limit : ℕ}

theorem matchAsksLoop_onMap : ∀ (fuel : ℕ) (c : OrderBook (CallLog M')) (m : M) (remaining left : ℕ),
    matchAsksLoop takerId limit fuel c remaining = some (c', left) → Follows E m₀ c.idMap m →
    ∃ m', Follows E m₀ c'.idMap m' ∧
      matchAsksLoop takerId limit fuel (c.onMap m b) remaining = some (c'.onMap m' b, left)
  | 0, _, _, _, _, h, _ => absurd h (by simp [matchAsksLoop])
  | fuel + 1, c, m, remaining, left, h, hm => by
    have htob : (c.onMap m b).tob = c.tob := rfl
    unfold matchAsksLoop at h ⊢
    simp only [htob] at h ⊢
    split_ifs at h ⊢ with hr hx
    · obtain ⟨rfl, rfl⟩ : c = c' ∧ remaining = left := by simpa using h
      exact ⟨m, hm, rfl⟩
    · obtain ⟨level, hl, h⟩ := Option.bind_eq_some_iff.1 h
      obtain ⟨⟨c1, left1⟩, h1, h⟩ := Option.bind_eq_some_iff.1 h
      obtain ⟨level', hl', h⟩ := Option.bind_eq_some_iff.1 h
      obtain ⟨c2, h2, h⟩ := Option.bind_eq_some_iff.1 h
      obtain ⟨m1, hm1, hlevel⟩ := matchLevel_onMap (b := b) hE _ c m _ _ _ h1 hm
      have hid : c2.idMap = c1.idMap :=
        idMap_eq (if_onMap _ _ (updateBestAsk_onMap c1 _ _) rfl) h2
      obtain ⟨m2, hm2, hrun⟩ := matchAsksLoop_onMap fuel c2 m1 _ left h (by rwa [hid])
      refine ⟨m2, hm2, bind_some (by rw [readLevel_onMap, hl]) (bind_some hlevel ?_)⟩
      refine bind_some (by rw [readLevel_onMap, hl']) (bind_some ?_ hrun)
      exact (if_onMap m1 b (updateBestAsk_onMap c1 m1 b) rfl).trans
        (congrArg (Option.map (onMap · m1 b)) h2)
    · obtain ⟨rfl, rfl⟩ : c = c' ∧ remaining = left := by simpa using h
      exact ⟨m, hm, rfl⟩

theorem matchBidsLoop_onMap : ∀ (fuel : ℕ) (c : OrderBook (CallLog M')) (m : M) (remaining left : ℕ),
    matchBidsLoop takerId limit fuel c remaining = some (c', left) → Follows E m₀ c.idMap m →
    ∃ m', Follows E m₀ c'.idMap m' ∧
      matchBidsLoop takerId limit fuel (c.onMap m b) remaining = some (c'.onMap m' b, left)
  | 0, _, _, _, _, h, _ => absurd h (by simp [matchBidsLoop])
  | fuel + 1, c, m, remaining, left, h, hm => by
    have htob : (c.onMap m b).tob = c.tob := rfl
    unfold matchBidsLoop at h ⊢
    simp only [htob] at h ⊢
    split_ifs at h ⊢ with hr hx
    · obtain ⟨rfl, rfl⟩ : c = c' ∧ remaining = left := by simpa using h
      exact ⟨m, hm, rfl⟩
    · obtain ⟨level, hl, h⟩ := Option.bind_eq_some_iff.1 h
      split_ifs at h with he
      · obtain ⟨rfl, rfl⟩ : c = c' ∧ remaining = left := by simpa using h
        exact ⟨m, hm, bind_some (by rw [readLevel_onMap, hl]) (if_pos he)⟩
      obtain ⟨⟨c1, left1⟩, h1, h⟩ := Option.bind_eq_some_iff.1 h
      obtain ⟨level', hl', h⟩ := Option.bind_eq_some_iff.1 h
      obtain ⟨c2, h2, h⟩ := Option.bind_eq_some_iff.1 h
      obtain ⟨m1, hm1, hlevel⟩ := matchLevel_onMap (b := b) hE _ c m _ _ _ h1 hm
      have hid : c2.idMap = c1.idMap :=
        idMap_eq (if_onMap _ _ (updateBestBid_onMap c1 _ _) rfl) h2
      obtain ⟨m2, hm2, hrun⟩ := matchBidsLoop_onMap fuel c2 m1 _ left h (by rwa [hid])
      refine ⟨m2, hm2, bind_some (by rw [readLevel_onMap, hl]) ?_⟩
      rw [if_neg he]
      refine bind_some hlevel (bind_some (by rw [readLevel_onMap, hl']) (bind_some ?_ hrun))
      exact (if_onMap m1 b (updateBestBid_onMap c1 m1 b) rfl).trans
        (congrArg (Option.map (onMap · m1 b)) h2)
    · obtain ⟨rfl, rfl⟩ : c = c' ∧ remaining = left := by simpa using h
      exact ⟨m, hm, rfl⟩

end Matching

section Sides

/-- A match over a log of the calls is a match over any id map that these calls lead through. -/
theorem matchAgainst_onMap [IdMapOps M] [IdMapOps M'] {E : M → Prop}
    (hE : ∀ m id, E m → ∃ m', IdMapOps.erase m id = some m' ∧ E m') {c c' : OrderBook (CallLog M')}
    {m : M} (hm : E m) (b : Bool) (sd : Side) (takerId : OrderId) (limit qty : ℕ) {left : ℕ}
    (hlog : c.idMap.calls = []) (h : c.matchAgainst sd takerId limit qty = some (c', left)) :
    ∃ m', runCalls m c'.idMap.calls = some m' ∧
      (c.onMap m b).matchAgainst sd takerId limit qty = some (c'.onMap m' b, left) := by
  have hf : Follows E m c.idMap m := ⟨by rw [hlog]; rfl, hm⟩
  cases sd with
  | BUY =>
    obtain ⟨m', hm', hrun⟩ := matchBidsLoop_onMap (b := b) hE _ c m qty left h hf
    exact ⟨m', hm'.1, hrun⟩
  | SELL =>
    obtain ⟨m', hm', hrun⟩ := matchAsksLoop_onMap (b := b) hE _ c m qty left h hf
    exact ⟨m', hm'.1, hrun⟩

end Sides

end OrderBook

end Nanomatch
