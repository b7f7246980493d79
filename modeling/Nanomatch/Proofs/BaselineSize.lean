import Nanomatch.Proofs.BaselineRuns

/-!
# How many orders the plain book holds

Only an insert adds an order to the plain book, and it adds one, so a run with no more inserts than
the pool has slots fits the pool.
-/

namespace Nanomatch

namespace StlOrderBook

variable {b b' : StlOrderBook} {sd : Side} {p qty qty' bound : ℕ} {l : List ListNode}

section Size

/-- All prices of the maps are below `bound`. -/
def Below (bound : ℕ) (b : StlOrderBook) : Prop := ∀ sd, ∀ p ∈ b.levels sd, p < bound

theorem Below.size_eq (h : Below bound b) : b.size =
    (∑ i ∈ Finset.range bound, (b.level .BUY i).length) +
      ∑ i ∈ Finset.range bound, (b.level .SELL i).length := by
  have hin : ∀ sd, ∀ p ∈ b.levels sd, 0 ≤ p ∧ p < 0 + bound := fun sd p hp =>
    ⟨Nat.zero_le p, by rw [Nat.zero_add]; exact h sd p hp⟩
  have hsum := StlOrderBook.size_eq hin
  simpa only [Nat.zero_add] using hsum

theorem Below.setLevel (h : Below bound b) (hp : p < bound) (sd : Side) (l : List ListNode) :
    Below bound (b.setLevel sd p l) := by
  intro sd' q hq
  rw [mem_setLevel] at hq
  split_ifs at hq with hc
  · exact hc.2 ▸ hp
  · exact h sd' q hq

theorem sum_level_setLevel (hp : p < bound) (sd sd' : Side) (l : List ListNode) :
    (∑ i ∈ Finset.range bound, ((b.setLevel sd p l).level sd' i).length) +
        (if sd' = sd then (b.level sd p).length else 0) =
      (∑ i ∈ Finset.range bound, (b.level sd' i).length) + if sd' = sd then l.length else 0 := by
  by_cases hsd : sd' = sd
  · subst hsd
    have hmem : p ∈ Finset.range bound := Finset.mem_range.2 hp
    have hother : ∑ i ∈ (Finset.range bound).erase p, ((b.setLevel sd' p l).level sd' i).length =
        ∑ i ∈ (Finset.range bound).erase p, (b.level sd' i).length :=
      Finset.sum_congr rfl fun i hi => by
        rw [level_setLevel, if_neg fun hc => Finset.ne_of_mem_erase hi hc.2]
    rw [← Finset.add_sum_erase _ _ hmem, hother, level_setLevel, if_pos ⟨rfl, rfl⟩, if_pos rfl,
      if_pos rfl, ← Finset.add_sum_erase _ _ hmem]
    omega
  · rw [if_neg hsd, if_neg hsd]
    simp only [level_setLevel, hsd, false_and, if_false]

/-- What a change of one level does to the number of orders. -/
theorem Below.size_setLevel (h : Below bound b) (hp : p < bound) (sd : Side) (l : List ListNode) :
    (b.setLevel sd p l).size + (b.level sd p).length = b.size + l.length := by
  have hbuy := sum_level_setLevel (b := b) hp sd .BUY l
  have hsell := sum_level_setLevel (b := b) hp sd .SELL l
  rw [(h.setLevel hp sd l).size_eq, h.size_eq]
  cases sd <;> simp only [if_true, reduceCtorEq, if_false] at hbuy hsell <;> omega

theorem Below.lt_of_level (h : Below bound b) (hl : b.level sd p ≠ []) : p < bound :=
  h sd p (by_contra fun hp => hl (level_eq_nil hp))

end Size

section Steps

/-- What a call leaves has at most `n` orders more. -/
structure Grows (bound n : ℕ) (b b' : StlOrderBook) : Prop where
  below : Below bound b'
  size : b'.size ≤ b.size + n

theorem Below.eraseId (h : Below bound b) (id : OrderId) : Below bound (b.eraseId id) := by
  intro sd p hp
  rw [levels_eraseId] at hp
  exact h sd p hp

theorem matchLoop_grows (sd : Side) (crosses : ℕ → Bool) : ∀ {fuel : ℕ} {b b' : StlOrderBook}
    {qty qty' : ℕ}, Below bound b → b.matchLoop sd crosses fuel qty = some (b', qty') →
    Grows bound 0 b b'
  | 0, _, _, _, _, _, h => absurd h (by simp [matchLoop])
  | fuel + 1, b, b', qty, qty', hb, h => by
    rw [matchLoop] at h
    have hstop : some (b, qty) = some (b', qty') → Grows bound 0 b b' := fun he => by
      obtain ⟨rfl, -⟩ := Prod.mk.inj (Option.some.inj he)
      exact ⟨hb, le_rfl⟩
    split_ifs at h
    · split at h
      · exact hstop h
      · rename_i price _
        split_ifs at h
        · rcases hl : b.level sd price with _ | ⟨resting, rest⟩ <;> rw [hl] at h
          · exact absurd h (by simp)
          have hlt : price < bound := hb.lt_of_level (hl ▸ List.cons_ne_nil _ _)
          simp only at h
          split_ifs at h
          · have hsize := (hb.eraseId resting.id).size_setLevel hlt sd rest
            rw [level_eraseId, hl, List.length_cons] at hsize
            obtain ⟨h1, h2⟩ := matchLoop_grows sd crosses
              ((hb.eraseId resting.id).setLevel hlt sd rest) h
            have : (b.eraseId resting.id).size = b.size := rfl
            exact ⟨h1, by omega⟩
          · have hsize := hb.size_setLevel hlt sd
              ({ resting with qty := resting.qty - min qty resting.qty } :: rest)
            rw [hl, List.length_cons, List.length_cons] at hsize
            obtain ⟨h1, h2⟩ := matchLoop_grows sd crosses (hb.setLevel hlt sd _) h
            exact ⟨h1, by omega⟩
        · exact hstop h
    · exact hstop h

theorem pushBack_grows (h : Below bound b) (hp : p < bound) (id : OrderId) (sd : Side) (qty : ℕ) :
    Grows bound 1 b (b.pushBack id sd p qty) := by
  have hset := h.setLevel hp sd (b.level sd p ++ [{ id, qty, it := b.nextIt }])
  have hsize := h.size_setLevel hp sd (b.level sd p ++ [{ id, qty, it := b.nextIt }])
  rw [List.length_append, List.length_singleton] at hsize
  have hlevels : (b.pushBack id sd p qty).levels =
      (b.setLevel sd p (b.level sd p ++ [{ id, qty, it := b.nextIt }])).levels := by
    funext sd'
    cases sd' <;> rfl
  have hsame : (b.pushBack id sd p qty).size =
      (b.setLevel sd p (b.level sd p ++ [{ id, qty, it := b.nextIt }])).size := rfl
  refine ⟨fun sd' q hq => hset sd' q ?_, ?_⟩
  · rw [hlevels] at hq
    exact hq
  · rw [hsame]
    omega

theorem Grows.trans {n m : ℕ} {b'' : StlOrderBook} (h : Grows bound n b b')
    (h' : Grows bound m b' b'') : Grows bound (n + m) b b'' :=
  ⟨h'.below, by have := h.size; have := h'.size; omega⟩

theorem insertLimitOrder_grows (h : Below bound b) (hp : p < bound) {id : OrderId} {r : Bool}
    (hb : b.insertLimitOrder id sd p qty = some (b', r)) : Grows bound 1 b b' := by
  have hrest : ∀ b₁ qty₁, Grows bound 0 b b₁ →
      some (if qty₁ > 0 then (b₁.pushBack id sd p qty₁, true) else (b₁, false)) = some (b', r) →
      Grows bound 1 b b' := by
    intro b₁ qty₁ h₁ he
    split_ifs at he
    · obtain ⟨rfl, -⟩ := Prod.mk.inj (Option.some.inj he)
      exact h₁.trans (pushBack_grows h₁.below hp id sd qty₁)
    · obtain ⟨rfl, -⟩ := Prod.mk.inj (Option.some.inj he)
      exact ⟨h₁.below, h₁.size.trans (Nat.le_succ _)⟩
  unfold insertLimitOrder at hb
  cases sd
  · obtain ⟨⟨b₁, qty₁⟩, h₁, he⟩ := Option.bind_eq_some_iff.1 hb
    exact hrest b₁ qty₁ (matchLoop_grows _ _ h h₁) he
  · obtain ⟨⟨b₁, qty₁⟩, h₁, he⟩ := Option.bind_eq_some_iff.1 hb
    exact hrest b₁ qty₁ (matchLoop_grows _ _ h h₁) he

theorem cancelOrder_grows (h : Below bound b) {id : OrderId} {r : Bool}
    (hb : b.cancelOrder id = some (b', r)) : Grows bound 0 b b' := by
  unfold cancelOrder at hb
  split at hb
  · obtain ⟨rfl, -⟩ := Prod.mk.inj (Option.some.inj hb)
    exact ⟨h, le_rfl⟩
  · rename_i e _
    split_ifs at hb with hany
    obtain ⟨rfl, -⟩ := Prod.mk.inj (Option.some.inj hb)
    have hne : b.level e.side e.price ≠ [] := fun hnil => by simp [hnil] at hany
    have hlt := h.lt_of_level hne
    have hset := h.setLevel hlt e.side ((b.level e.side e.price).eraseP (·.it == e.it))
    have hsize := h.size_setLevel hlt e.side ((b.level e.side e.price).eraseP (·.it == e.it))
    have hle : ((b.level e.side e.price).eraseP (·.it == e.it)).length ≤
        (b.level e.side e.price).length := List.length_eraseP_le
    refine ⟨hset.eraseId id, ?_⟩
    change (b.setLevel e.side e.price _).size ≤ _
    omega

theorem processMarketOrder_grows (h : Below bound b)
    (hb : b.processMarketOrder sd qty = some b') : Grows bound 0 b b' := by
  unfold processMarketOrder at hb
  cases sd
  · obtain ⟨⟨b₁, qty₁⟩, h₁, he⟩ := Option.bind_eq_some_iff.1 hb
    obtain rfl := Option.some.inj he
    exact matchLoop_grows _ _ h h₁
  · obtain ⟨⟨b₁, qty₁⟩, h₁, he⟩ := Option.bind_eq_some_iff.1 hb
    obtain rfl := Option.some.inj he
    exact matchLoop_grows _ _ h h₁

theorem step_grows (h : Below (2 ^ 32) b) : ∀ {call : Call} {r : Bool},
    b.step call = some (b', r) → Grows (2 ^ 32) call.insertedPrice.toList.length b b'
  | .insertLimitOrder id sd price qty, r, hb => insertLimitOrder_grows h price.toNat_lt hb
  | .cancelOrder id, r, hb => by
    obtain ⟨⟨b₁, r₁⟩, h₁, he⟩ := Option.map_eq_some_iff.1 hb
    obtain ⟨rfl, -⟩ := Prod.mk.inj he
    exact cancelOrder_grows h h₁
  | .processMarketOrder sd qty, r, hb => by
    obtain ⟨b₁, h₁, he⟩ := Option.map_eq_some_iff.1 hb
    obtain ⟨rfl, -⟩ := Prod.mk.inj he
    exact processMarketOrder_grows h h₁

theorem fits_of_inserts {cap : ℕ} : ∀ (calls : List Call) {b : StlOrderBook}, Below (2 ^ 32) b →
    b.size + (calls.filterMap Call.insertedPrice).length ≤ cap → Fits cap b calls
  | [], b, _, h => h
  | call :: calls, b, hb, h => by
    have hlen : ((call :: calls).filterMap Call.insertedPrice).length =
        call.insertedPrice.toList.length + (calls.filterMap Call.insertedPrice).length := by
      rw [List.filterMap_cons]
      cases call.insertedPrice <;> simp [Nat.add_comm]
    refine ⟨by omega, ?_⟩
    split
    · trivial
    · rename_i b' r hstep
      obtain ⟨hb', hle⟩ := step_grows hb hstep
      exact fits_of_inserts calls hb' (by omega)

/-- A run of an empty book that makes no more inserts than `cap`. -/
theorem fits_fresh {cap : ℕ} (calls : List Call)
    (h : (calls.filterMap Call.insertedPrice).length ≤ cap) : Fits cap {} calls := by
  have hbelow : Below (2 ^ 32) {} := fun sd p hp => by
    cases sd <;> exact absurd hp Std.TreeMap.not_mem_emptyc
  refine fits_of_inserts calls hbelow ?_
  have hsize : ({} : StlOrderBook).size = 0 := by
    rw [hbelow.size_eq]
    have hlevel : ∀ sd p, ({} : StlOrderBook).level sd p = [] := by
      intro sd p
      cases sd <;> exact Std.TreeMap.getD_emptyc
    simp only [hlevel, List.length_nil, Finset.sum_const_zero, Nat.add_zero]
  rwa [hsize, Nat.zero_add]

end Steps

end StlOrderBook

end Nanomatch
