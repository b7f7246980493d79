import Nanomatch.Proofs.Exact
import Nanomatch.Proofs.LadderCount
import Nanomatch.Proofs.StlOrderBook

/-!
# The plain book holds the orders of the ladder

`Same` relates a plain book to a ladder: level by level they hold the same orders in the same
order, a map from list nodes to slots telling which is which, and the two id indexes name the same
orders. The operations on one order keep it.
-/

namespace Nanomatch

open Ladder StlOrderBook

/-- The plain book `b` holds the orders of the ladder `a`; `ρ` takes its list nodes to slots. -/
structure Same (a : Ladder) (b : StlOrderBook) (ρ : ℕ → ℕ) : Prop where
  level : ∀ sd, ∀ i < a.band, (b.level sd (a.base + i)).map (fun n => (ρ n.it, n.id, n.qty)) =
    (a.queue sd i).map fun s => (s, (a.info s).id, (a.info s).qty)
  tidy : b.Tidy
  within : ∀ sd, ∀ p ∈ b.levels sd, a.InWindow p
  index : ∀ id, a.find id = ((b.idIndex id).map fun e => ρ e.it).getD NULL_IDX
  entry : ∀ id e, b.idIndex id = some e → ∃ n ∈ b.level e.side e.price, n.it = e.it
  it_lt : ∀ sd p, ∀ n ∈ b.level sd p, n.it < b.nextIt

variable {a a' : Ladder} {b : StlOrderBook} {ρ : ℕ → ℕ} {sd : Side} {i p s : ℕ} {n : ListNode}
  {l m : List ListNode}

namespace Same

section Facts

/-- The ladder's part may change where it does not show. -/
theorem congr (h : Same a b ρ) (hband : a'.band = a.band) (hbase : a'.base = a.base)
    (hqueue : ∀ sd i, a'.queue sd i = a.queue sd i) (hfind : ∀ id, a'.find id = a.find id)
    (hinfo : ∀ sd i, ∀ s ∈ a.queue sd i,
      (a'.info s).id = (a.info s).id ∧ (a'.info s).qty = (a.info s).qty) : Same a' b ρ where
  level sd i hi := by
    rw [hbase, hqueue, h.level sd i (hband ▸ hi)]
    refine List.map_congr_left fun s hs => ?_
    rw [(hinfo sd i s hs).1, (hinfo sd i s hs).2]
  tidy := h.tidy
  within sd p hp := by
    obtain ⟨h1, h2⟩ := h.within sd p hp
    exact ⟨hbase ▸ h1, hbase ▸ hband ▸ h2⟩
  index id := (hfind id).trans (h.index id)
  entry := h.entry
  it_lt := h.it_lt

theorem size_add_free (h : Same a b ρ) (hc : a.Core) : b.size + a.free.length = a.cap := by
  have hlen : ∀ sd, ∀ i < a.band, (b.level sd (a.base + i)).length = (a.queue sd i).length := by
    intro sd i hi
    have := congrArg List.length (h.level sd i hi)
    simpa using this
  rw [← hc.held_add_free, size_eq h.within, held]
  congr 2 <;> exact Finset.sum_congr rfl fun i hi => hlen _ i (Finset.mem_range.1 hi)

/-- Where a list node's order is on the ladder. -/
theorem mem_queue (h : Same a b ρ) (hi : i < a.band) (hn : n ∈ b.level sd (a.base + i)) :
    ρ n.it ∈ a.queue sd i ∧ (a.info (ρ n.it)).id = n.id ∧ (a.info (ρ n.it)).qty = n.qty := by
  have hmem := List.mem_map_of_mem (f := fun n : ListNode => (ρ n.it, n.id, n.qty)) hn
  rw [h.level sd i hi, List.mem_map] at hmem
  obtain ⟨s, hs, he⟩ := hmem
  obtain ⟨rfl, hid, hqty⟩ : s = ρ n.it ∧ (a.info s).id = n.id ∧ (a.info s).qty = n.qty := by
    simpa using he
  exact ⟨hs, hid, hqty⟩

theorem level_window (h : Same a b ρ) (hn : n ∈ b.level sd p) :
    ∃ i < a.band, p = a.base + i := by
  have hp : p ∈ b.levels sd := h.tidy.mem_iff.2 (List.ne_nil_of_mem hn)
  obtain ⟨h1, h2⟩ := h.within sd p hp
  exact ⟨p - a.base, by omega, by omega⟩

theorem level_eq_nil (h : Same a b ρ) (hi : i < a.band) :
    b.level sd (a.base + i) = [] ↔ a.queue sd i = [] := by
  rw [← List.map_eq_nil_iff (f := fun n : ListNode => (ρ n.it, n.id, n.qty)), h.level sd i hi,
    List.map_eq_nil_iff]

/-- The queue around a list node's slot. -/
theorem split (h : Same a b ρ) (hi : i < a.band) (hl : b.level sd (a.base + i) = l ++ n :: m) :
    ∃ q r, a.queue sd i = q ++ ρ n.it :: r ∧
      l.map (fun n => (ρ n.it, n.id, n.qty)) = q.map (fun s => (s, (a.info s).id, (a.info s).qty)) ∧
      m.map (fun n => (ρ n.it, n.id, n.qty)) =
        r.map fun s => (s, (a.info s).id, (a.info s).qty) := by
  have he := (h.level sd i hi).symm
  rw [hl, List.map_append, List.map_cons, List.map_eq_append_iff] at he
  obtain ⟨q, r', hq, hl', hr'⟩ := he
  obtain ⟨s, r, rfl, hs, hm'⟩ := List.map_eq_cons_iff.1 hr'
  obtain rfl : s = ρ n.it := congrArg Prod.fst hs
  exact ⟨q, r, hq, hl'.symm, hm'.symm⟩

end Facts

section Best

theorem mem_levels (h : Same a b ρ) (hs : a.Sep) :
    p ∈ b.levels sd ↔ ∃ i, p = a.base + i ∧ a.queue sd i ≠ [] := by
  rw [h.tidy.mem_iff]
  constructor
  · intro hne
    obtain ⟨n, hn⟩ := List.exists_mem_of_ne_nil _ hne
    obtain ⟨i, hi, rfl⟩ := h.level_window hn
    exact ⟨i, rfl, mt (h.level_eq_nil hi).2 hne⟩
  · rintro ⟨i, rfl, hne⟩
    exact mt (h.level_eq_nil (hs.lt_band hne)).1 hne

/-- The first level a taker meets is the cached best one. -/
theorem best (h : Same a b ρ) (hs : a.Sep) (hexact : a.Exact sd) (htop : a.TopOk sd) :
    b.best sd = if a.tob.best sd = UINT32_MAX then none else some (a.base + a.tob.best sd) := by
  have hex := exact_iff.1 hexact
  split_ifs with hb
  · refine best_eq_none fun p hp => ?_
    obtain ⟨i, -, hne⟩ := (h.mem_levels hs).1 hp
    exact (hex i hne).1 hb
  · have hmem : a.base + a.tob.best sd ∈ b.levels sd :=
      (h.mem_levels hs).2 ⟨_, rfl, htop.resolve_left hb⟩
    cases sd with
    | BUY =>
      refine best_buy.2 ⟨hmem, fun q hq => ?_⟩
      have hq' : q ∈ b.levels .BUY := hq
      obtain ⟨i, rfl, hne⟩ := (h.mem_levels hs).1 hq'
      have := mem_outward_buy.1 (hex i hne).2
      omega
    | SELL =>
      refine best_sell.2 ⟨hmem, fun q hq => ?_⟩
      have hq' : q ∈ b.levels .SELL := hq
      obtain ⟨i, rfl, hne⟩ := (h.mem_levels hs).1 hq'
      have := (mem_outward_sell.1 (hex i hne).2).1
      omega

end Best

section Orders

/-- An order leaves the book. -/
theorem remove (h : Same a b ρ) (hc : a.Core) (hi : i < a.band)
    (hl : b.level sd (a.base + i) = l ++ n :: m) :
    Same (a.retire sd i (ρ n.it)) ((b.eraseId n.id).setLevel sd (a.base + i) (l ++ m)) ρ := by
  have hn : n ∈ b.level sd (a.base + i) := hl ▸ List.mem_append_right l List.mem_cons_self
  obtain ⟨hsq, hid, -⟩ := h.mem_queue hi hn
  obtain ⟨q, r, hq, hlq, hmr⟩ := h.split hi hl
  have hnq : ρ n.it ∉ q := by
    have hnd := List.nodup_append.1 (hq ▸ hc.nodup sd i)
    exact fun hs => hnd.2.2 _ hs _ List.mem_cons_self rfl
  refine ⟨?_, ?_, ?_, ?_, ?_, ?_⟩
  · intro sd' j hj
    have hj' : a.base + j = a.base + i ↔ j = i := by omega
    change ((_ : StlOrderBook).level sd' (a.base + j)).map _ = _
    rw [level_setLevel, level_eraseId, retire_queue]
    simp only [hj']
    split_ifs with hc'
    · rw [hq, List.erase_append_right _ hnq, List.erase_cons_head, List.map_append, List.map_append,
        hlq, hmr]
      rfl
    · exact h.level sd' j hj
  · exact Tidy.setLevel (by simpa [Tidy] using h.tidy) _ _ _
  · intro sd' x hx
    rw [mem_setLevel] at hx
    split_ifs at hx with hc'
    · rw [hc'.2]
      exact ⟨Nat.le_add_right _ _, Nat.add_lt_add_left hi _⟩
    · exact h.within sd' x (by simpa using hx)
  · intro k
    have hf : (a.retire sd i (ρ n.it)).find k = if n.id = k then NULL_IDX else a.find k :=
      hid ▸ rfl
    rw [hf, idIndex_setLevel, idIndex_eraseId]
    split_ifs with hk
    · simp [hk]
    · rw [Function.update_of_ne (Ne.symm hk)]
      exact h.index k
  · intro k e hk
    rw [idIndex_setLevel, idIndex_eraseId] at hk
    have hne : k ≠ n.id := by
      rintro rfl
      simp at hk
    rw [Function.update_of_ne hne] at hk
    obtain ⟨x, hx, he⟩ := h.entry k e hk
    refine ⟨x, ?_, he⟩
    rw [level_setLevel, level_eraseId]
    split_ifs with hc'
    · rw [hc'.1, hc'.2, hl] at hx
      -- the entry of another id names another node
      have hxn : x ≠ n := by
        rintro rfl
        have hfind : a.find k = ρ x.it := by rw [h.index k, hk, he]; rfl
        have hnull : a.find k ≠ NULL_IDX := by
          rw [hfind]
          have := hc.slot_lt hsq
          have := hc.cap_lt
          simp only [NULL_IDX, UINT32_MAX]
          omega
        exact hne ((hc.ids k hnull).2.symm.trans (hfind ▸ hid))
      simpa [hxn] using hx
    · exact hx
  · intro sd' x y hy
    rw [nextIt_setLevel]
    rw [level_setLevel, level_eraseId] at hy
    split_ifs at hy
    · refine h.it_lt sd (a.base + i) y ?_
      rw [hl]
      rcases List.mem_append.1 hy with hy | hy
      · exact List.mem_append_left _ hy
      · exact List.mem_append_right _ (List.mem_cons_of_mem n hy)
    · exact h.it_lt sd' x y hy

/-- An order loses quantity. -/
theorem take (h : Same a b ρ) (hs : a.Sep) (hi : i < a.band)
    (hl : b.level sd (a.base + i) = l ++ n :: m) (amount : ℕ) :
    Same (a.take (ρ n.it) amount)
      (b.setLevel sd (a.base + i) (l ++ { n with qty := n.qty - amount } :: m)) ρ := by
  have hn : n ∈ b.level sd (a.base + i) := hl ▸ List.mem_append_right l List.mem_cons_self
  obtain ⟨hsq, hid, hqty⟩ := h.mem_queue hi hn
  obtain ⟨q, r, hq, hlq, hmr⟩ := h.split hi hl
  have hnd := List.nodup_append.1 (hq ▸ hs.nodup sd i)
  have hother : ∀ x, x ≠ ρ n.it → (a.take (ρ n.it) amount).info x = a.info x :=
    fun x hx => take_info_of_ne hx amount
  -- the orders other than the one in the slot look as before
  have hsame : ∀ q' : List ℕ, ρ n.it ∉ q' →
      q'.map (fun s => (s, ((a.take (ρ n.it) amount).info s).id,
        ((a.take (ρ n.it) amount).info s).qty)) =
      q'.map fun s => (s, (a.info s).id, (a.info s).qty) := fun q' hq' =>
    List.map_congr_left fun x hx => by rw [hother x fun he => hq' (he ▸ hx)]
  refine ⟨?_, ?_, ?_, fun k => by rw [idIndex_setLevel]; exact h.index k, ?_, ?_⟩
  · intro sd' j hj
    have hj' : a.base + j = a.base + i ↔ j = i := by omega
    change ((_ : StlOrderBook).level sd' (a.base + j)).map _ = (a.queue sd' j).map _
    rw [level_setLevel]
    simp only [hj']
    split_ifs with hc'
    · rw [hc'.1, hc'.2, hq, List.map_append, List.map_append, List.map_cons, List.map_cons,
        hsame q fun hs => hnd.2.2 _ hs _ List.mem_cons_self rfl,
        hsame r (List.nodup_cons.1 hnd.2.1).1, hlq, hmr, take_info_self]
      simp [hid, hqty]
    · rw [hsame _ fun hx => hc' ?_]
      · exact h.level sd' j hj
      · exact hs.unique hsq hx
  · exact h.tidy.setLevel _ _ _
  · intro sd' x hx
    rw [mem_setLevel] at hx
    split_ifs at hx with hc'
    · rw [hc'.2]
      exact ⟨Nat.le_add_right _ _, Nat.add_lt_add_left hi _⟩
    · exact h.within sd' x hx
  · intro k e hk
    rw [idIndex_setLevel] at hk
    obtain ⟨x, hx, he⟩ := h.entry k e hk
    rw [level_setLevel]
    split_ifs with hc'
    · rw [hc'.1, hc'.2, hl] at hx
      rcases List.mem_append.1 hx with hx | hx
      · exact ⟨x, List.mem_append_left _ hx, he⟩
      · rcases List.mem_cons.1 hx with rfl | hx
        · exact ⟨_, List.mem_append_right _ List.mem_cons_self, he⟩
        · exact ⟨x, List.mem_append_right _ (List.mem_cons_of_mem _ hx), he⟩
    · exact ⟨x, hx, he⟩
  · intro sd' x y hy
    rw [nextIt_setLevel]
    rw [level_setLevel] at hy
    have hlt := h.it_lt sd (a.base + i)
    rw [hl] at hlt
    split_ifs at hy
    · rcases List.mem_append.1 hy with hy | hy
      · exact hlt y (List.mem_append_left _ hy)
      · rcases List.mem_cons.1 hy with rfl | hy
        · exact hlt n (List.mem_append_right _ List.mem_cons_self)
        · exact hlt y (List.mem_append_right _ (List.mem_cons_of_mem _ hy))
    · exact h.it_lt sd' x y hy

/-- An order rests. -/
theorem push (h : Same a b ρ) (hs : a.Sep) {free : List ℕ} (hf : a.free = s :: free) (sd : Side)
    (hi : i < a.band) (id : OrderId) (qty : ℕ) :
    Same ({ a with free }.enter id sd i qty s) (b.pushBack id sd (a.base + i) qty)
      (Function.update ρ b.nextIt s) := by
  have hρ : ∀ sd' x, ∀ y ∈ b.level sd' x, Function.update ρ b.nextIt s y.it = ρ y.it :=
    fun sd' x y hy => Function.update_of_ne (h.it_lt sd' x y hy).ne _ _
  have hslot : ∀ sd' j, ∀ x ∈ a.queue sd' j, ({ a with free }.enter id sd i qty s).info x = a.info x :=
    fun sd' j x hx => enter_info_of_ne fun he => hs.not_free hx (hf ▸ he ▸ List.mem_cons_self)
  have hold : ∀ sd', ∀ j < a.band,
      (b.level sd' (a.base + j)).map (fun n => (Function.update ρ b.nextIt s n.it, n.id, n.qty)) =
      (a.queue sd' j).map fun x => (x, (({ a with free }.enter id sd i qty s).info x).id,
        (({ a with free }.enter id sd i qty s).info x).qty) := by
    intro sd' j hj
    rw [List.map_congr_left fun y hy => by rw [hρ _ _ y hy], h.level sd' j hj]
    exact List.map_congr_left fun x hx => by rw [hslot sd' j x hx]
  refine ⟨?_, ?_, ?_, ?_, ?_, ?_⟩
  · intro sd' j hj
    have hj' : a.base + j = a.base + i ↔ j = i := by omega
    change ((_ : StlOrderBook).level sd' (a.base + j)).map _ =
      (if sd' = sd ∧ j = i then a.queue sd i ++ [s] else a.queue sd' j).map _
    rw [level_pushBack]
    simp only [hj']
    split_ifs with hc
    · rw [List.map_append, List.map_append, hold sd i hi]
      simp only [List.map_cons, List.map_nil, Function.update_self, enter_info_self]
    · exact hold sd' j hj
  · intro sd' x hx
    rw [level_pushBack]
    split_ifs with hc
    · simp
    · exact h.tidy sd' x ((mem_pushBack hx).resolve_left hc)
  · intro sd' x hx
    rcases mem_pushBack hx with ⟨-, rfl⟩ | hx
    · exact ⟨Nat.le_add_right _ _, Nat.add_lt_add_left hi _⟩
    · exact h.within sd' x hx
  · intro k
    rw [find_enter, idIndex_pushBack]
    by_cases hk : id = k
    · subst hk
      simp
    · have hfind : ({ a with free } : Ladder).find k = a.find k := rfl
      rw [if_neg hk, Function.update_of_ne (Ne.symm hk), hfind, h.index k]
      rcases he : b.idIndex k with _ | e
      · rfl
      · obtain ⟨n, hn, hit⟩ := h.entry k e he
        simp only [Option.map_some, Option.getD_some]
        rw [← hit, hρ _ _ n hn]
  · intro k e hk
    rw [idIndex_pushBack] at hk
    by_cases hki : k = id
    · subst hki
      rw [Function.update_self] at hk
      obtain rfl := Option.some.inj hk
      rw [level_pushBack, if_pos ⟨rfl, rfl⟩]
      exact ⟨_, List.mem_append_right _ (List.mem_singleton_self _), rfl⟩
    · rw [Function.update_of_ne hki] at hk
      obtain ⟨n, hn, hit⟩ := h.entry k e hk
      rw [level_pushBack]
      split_ifs with hc
      · exact ⟨n, List.mem_append_left _ (hc.1 ▸ hc.2 ▸ hn), hit⟩
      · exact ⟨n, hn, hit⟩
  · intro sd' x y hy
    change y.it < b.nextIt + 1
    rw [level_pushBack] at hy
    split_ifs at hy
    · rcases List.mem_append.1 hy with hy | hy
      · exact Nat.lt_succ_of_lt (h.it_lt _ _ y hy)
      · rw [List.mem_singleton.1 hy]
        exact Nat.lt_succ_self _
    · exact Nat.lt_succ_of_lt (h.it_lt _ _ y hy)

end Orders

end Same

end Nanomatch
