import Nanomatch.Proofs.Refine

/-!
# Runs of the book

A fresh book represents the fresh ladder, and every run of the book does to it what the run of the
ladder does. Over the finite map no condition on the calls is left, so every run succeeds.
-/

namespace Nanomatch

open LinkedList WordBits OrderBook Ladder

variable {M : Type} [IdMapOps M] {L : IdMapLaws M} {c : OrderBook M} {a : Ladder} {band cap : ℕ}

section Fresh

theorem chain_range {next : ℕ → ℕ} (h : ∀ i < cap, next i = if i + 1 < cap then i + 1 else NULL_IDX) :
    ∀ n k, k + n + 1 = cap → Chain next NULL_IDX k (List.range' k (n + 1))
  | 0, k, hk => ⟨rfl, by rw [h k (by omega), if_neg (by omega)]; rfl⟩
  | n + 1, k, hk => by
    rw [List.range'_succ]
    refine ⟨rfl, ?_⟩
    rw [h k (by omega), if_pos (by omega)]
    exact chain_range h n (k + 1) (by omega)

theorem rep_new (hcap : 0 < cap) {m : M} (hm : L.Sync m []) :
    Rep L (OrderBook.new band cap m) (Ladder.new band cap) where
  tob := rfl
  base := rfl
  baseSet := rfl
  live := rfl
  logger := rfl
  pool := rfl
  levels sd := by cases sd <;> rfl
  bitmap sd := by cases sd <;> rfl
  level sd i _ := by cases sd <;> exact ⟨Dll.nil_iff.2 ⟨rfl, rfl⟩, rfl, rfl⟩
  price _ _ h := absurd rfl h
  data _ _ _ hs := absurd hs List.not_mem_nil
  bit sd i := by
    have hq : (Ladder.new band cap).queue sd i = [] := rfl
    have hb : bitAt ((OrderBook.new band cap m).bitmap sd) i = false := by
      cases sd <;> exact Bitmap.bitAt_init band i
    simp [hq, hb]
  chain := by
    obtain ⟨n, rfl⟩ : ∃ n, cap = n + 1 := ⟨cap - 1, by omega⟩
    change Chain _ NULL_IDX 0 (List.range (n + 1))
    rw [List.range_eq_range']
    exact chain_range (fun _ _ => rfl) n 0 (by omega)
  sync := hm

end Fresh

section Runs

theorem Ladder.rebase_calls (newBase : ℕ) : a.calls <:+ (a.rebase newBase).calls := by
  unfold rebase
  split_ifs
  · exact List.suffix_refl _
  · exact dropAll_calls _ a

theorem Ladder.insertLimitOrder_calls (hw : a.Wf) (id : OrderId) (sd : Side) (price qty : ℕ) :
    a.calls <:+ (a.insertLimitOrder id sd price qty).1.calls := by
  obtain ⟨hw1, -⟩ := hw.anchor price
  have h1 : (a.anchor price).calls = a.calls := by unfold anchor; split_ifs <;> rfl
  have h2 : (a.anchor price).calls <:+ ((a.anchor price).rebaseFor price).calls := by
    unfold rebaseFor
    split_ifs
    · exact rebase_calls _
    · exact List.suffix_refl _
  unfold insertLimitOrder
  simp only
  split_ifs
  · exact h1 ▸ h2.trans (Rep.place_calls _ _ _ _ (hw1.rebaseFor price))
  · exact h1 ▸ h2

/-- The calls on the id map only grow. -/
theorem Ladder.step_calls (hw : a.Wf) : ∀ op : Op, a.calls <:+ (a.step op).1.calls
  | .insertLimitOrder id sd price qty => insertLimitOrder_calls hw id sd _ _
  | .cancelOrder id => by
    simp only [step, cancelOrder]
    split_ifs
    · exact List.suffix_refl _
    · rw [Rep.cancelAt_calls]; exact List.suffix_cons _ _
  | .processMarketOrder sd qty => (hw.match_spec sd.other _ _ _).frame.calls
  | .executeOrder id fillQty => by
    simp only [step, executeOrder, executeAt]
    split_ifs
    · exact List.suffix_refl _
    · rw [Rep.refreshTop_calls]; exact List.suffix_cons _ _
    · rw [Rep.takePartly_calls]; exact List.suffix_refl _
  | .reduceOrderQty id cancelQty => by
    simp only [step, reduceOrderQty]
    split_ifs
    · exact List.suffix_refl _
    · rw [Rep.cancelAt_calls]; exact List.suffix_cons _ _
    · rw [Rep.takePartly_calls]

theorem Ladder.run_calls : ∀ (ops : List Op) (a : Ladder), a.Wf → a.calls <:+ (a.run ops).calls
  | [], _, _ => List.suffix_refl _
  | op :: ops, _, hw => (step_calls hw op).trans (run_calls ops _ (hw.step op))

/-- A run of the book does to it what the run of the ladder does. -/
theorem Rep.run : ∀ (ops : List Op) (c : OrderBook M) (a : Ladder), Rep L c a → a.Wf →
    L.Good (a.run ops).calls → ∃ c', c.run ops = some c' ∧ Rep L c' (a.run ops)
  | [], c, a, h, _, _ => ⟨c, rfl, h⟩
  | op :: ops, c, a, h, hw, hg => by
    obtain ⟨c1, h1, hr1⟩ := h.step hw op (L.good_of_suffix (run_calls ops _ (hw.step op)) hg)
    obtain ⟨c2, h2, hr2⟩ := Rep.run ops c1 _ hr1 (hw.step op) hg
    exact ⟨c2, bind_some h1 h2, hr2⟩

end Runs

section Finite

/-- The finite map answers as itself. -/
def finLaws : IdMapLaws FinMap where
  Sync m calls := m.slot = lastInsert calls
  Good _ := True
  good_of_suffix _ _ := trivial
  find h _ id := congrArg (fun slot => some (slot id)) h
  insert {m calls id s} h _ := by
    refine ⟨_, rfl, funext fun k => ?_⟩
    simp only [lastInsert, h]
  erase {m calls id} h _ := by
    refine ⟨_, rfl, funext fun k => ?_⟩
    simp only [lastInsert, h]

theorem lastInsert_append (calls : List IdCall) (id : OrderId) : ∀ l : List IdCall,
    lastInsert (l ++ calls) id =
      if id ∈ l.map IdCall.key then lastInsert l id else lastInsert calls id
  | [] => rfl
  | call :: l => by
    have ih := lastInsert_append calls id l
    by_cases hid : call.key = id
    · rcases call with ⟨key, val⟩ | key <;> obtain rfl : key = id := hid <;>
        simp [lastInsert, IdCall.key]
    · rcases call with ⟨key, val⟩ | key <;> have hne : key ≠ id := hid <;>
        simp [lastInsert, IdCall.key, hne, Ne.symm hne, ih]

/-- A log answers as long as the id map under it does, after the calls `calls`. -/
def logLaws (base : M) (calls : List IdCall)
    (h : ∀ id, IdMapOps.find base id = some (lastInsert calls id)) : IdMapLaws (CallLog M) where
  Sync log all := log.base = base ∧ all = log.calls ++ calls
  Good _ := True
  good_of_suffix _ _ := trivial
  find := by
    rintro log all ⟨hbase, rfl⟩ - id
    have hfind : IdMapOps.find log id = if id ∈ log.calls.map IdCall.key then
        some (lastInsert log.calls id) else IdMapOps.find log.base id := rfl
    rw [hfind, hbase, h, lastInsert_append]
    split_ifs <;> rfl
  insert := by
    rintro log all id s ⟨hbase, rfl⟩ -
    exact ⟨_, rfl, hbase, rfl⟩
  erase := by
    rintro log all id ⟨hbase, rfl⟩ -
    exact ⟨_, rfl, hbase, rfl⟩

/-- A fresh book over the finite map. -/
def fresh (band cap : ℕ) : OrderBook FinMap := OrderBook.new band cap FinMap.init

variable (hband : 0 < band) (hband' : band < 2 ^ 32) (hcap : 0 < cap) (hcap' : cap < 2 ^ 32)

include hband hband' hcap hcap'

/-- Every run of a fresh book succeeds, and its result represents the ladder's. -/
theorem run_fresh (ops : List Op) : ∃ c, (fresh band cap).run ops = some c ∧
    Rep finLaws c ((Ladder.new band cap).run ops) ∧ ((Ladder.new band cap).run ops).Wf := by
  have hw := new_wf hband hband' hcap'
  obtain ⟨c, hc, hr⟩ := Rep.run ops _ _ (rep_new hcap (L := finLaws) (m := FinMap.init) rfl) hw trivial
  exact ⟨c, hc, hr, hw.run ops⟩

end Finite

end Nanomatch
