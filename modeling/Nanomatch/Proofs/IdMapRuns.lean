import Mathlib.Data.Nat.Size
import Nanomatch.Proofs.IdMap

/-!
# Runs of calls on the id map

`Sound n t calls` says that the table `t` holds what the calls put there and that every search in
it is good. A fresh table is sound, `insert` keeps soundness while there is room, `erase` keeps it
exactly when it is safe; an erase that is not safe makes a live key unfindable at once.
-/

namespace Nanomatch

open LinearProbing

namespace IdMap

section Sizing

/-- A further shift by `d` doubles how far down the bits of `v` have been copied. -/
theorem testBit_smear (v : ℕ) {d w : ℕ}
    (h : ∀ i, w.testBit i = true ↔ ∃ j < d, v.testBit (i + j) = true) (i : ℕ) :
    (w ||| (w >>> d)).testBit i = true ↔ ∃ j < 2 * d, v.testBit (i + j) = true := by
  rw [Nat.testBit_or, Nat.testBit_shiftRight, Bool.or_eq_true, h, h]
  constructor
  · rintro (⟨j, hj, hv⟩ | ⟨j, hj, hv⟩)
    · exact ⟨j, by omega, hv⟩
    · exact ⟨d + j, by omega, by rwa [show i + (d + j) = d + i + j by omega]⟩
  · rintro ⟨j, hj, hv⟩
    rcases Nat.lt_or_ge j d with hlt | hge
    · exact .inl ⟨j, hlt, hv⟩
    · exact .inr ⟨j - d, by omega, by rwa [show d + i + (j - d) = i + j by omega]⟩

/-- The smeared value has every bit up to the highest one of `v`. -/
theorem smear_eq {v w : ℕ} (hv : v < 2 ^ 32)
    (h : ∀ i, w.testBit i = true ↔ ∃ j < 32, v.testBit (i + j) = true) : w = 2 ^ v.size - 1 := by
  refine Nat.eq_of_testBit_eq fun i => ?_
  rw [Nat.testBit_two_pow_sub_one, Bool.eq_iff_iff, h, decide_eq_true_iff]
  have hsize : v.size ≤ 32 := Nat.size_le.2 hv
  constructor
  · rintro ⟨j, -, hj⟩
    by_contra hge
    rw [Nat.testBit_lt_two_pow (lt_of_lt_of_le (Nat.lt_size_self v)
      (Nat.pow_le_pow_right (by decide) (by omega)))] at hj
    exact absurd hj (by decide)
  · intro hi
    refine ⟨v.size - 1 - i, by omega, ?_⟩
    rw [show i + (v.size - 1 - i) = v.size - 1 by omega, Nat.testBit_eq_decide_div_mod_eq]
    have hlow : 2 ^ (v.size - 1) ≤ v := Nat.lt_size.1 (by omega)
    have hhigh : v < 2 ^ (v.size - 1) * 2 := by
      rw [← pow_succ, Nat.sub_add_cancel (by omega)]
      exact Nat.lt_size_self v
    have hdiv : v / 2 ^ (v.size - 1) = 1 :=
      Nat.div_eq_of_lt_le (by omega) (by omega)
    rw [hdiv]
    rfl

/-- Above 1 and up to `2 ^ 31`, rounding up gives the next power of two. -/
theorem roundUpPow2_eq {v : ℕ} (h1 : 1 < v) (h31 : v ≤ 2 ^ 31) :
    roundUpPow2 v = 2 ^ (v - 1).size := by
  have h0 : ∀ i, (v - 1).testBit i = true ↔ ∃ j < 1, (v - 1).testBit (i + j) = true := by
    intro i
    constructor
    · exact fun h => ⟨0, by omega, h⟩
    · rintro ⟨j, hj, h⟩
      rwa [show i + j = i by omega] at h
  have h5 := testBit_smear _ (testBit_smear _ (testBit_smear _ (testBit_smear _
    (testBit_smear _ h0))))
  have hsize : (v - 1).size ≤ 31 := Nat.size_le.2 (by omega)
  have hpos := Nat.two_pow_pos (v - 1).size
  have hle : 2 ^ (v - 1).size ≤ 2 ^ 31 := Nat.pow_le_pow_right (by decide) hsize
  simp only [roundUpPow2, if_neg (show ¬ v ≤ 1 by omega)]
  rw [smear_eq (v := v - 1) (by omega) h5, add32, Nat.sub_add_cancel hpos,
    Nat.mod_eq_of_lt (by omega)]

theorem roundUpPow2_two_pow {e : ℕ} (he : e ≤ 31) : roundUpPow2 (2 ^ e) = 2 ^ e := by
  rcases Nat.eq_zero_or_pos e with rfl | hpos
  · rfl
  · have h1 : 1 < 2 ^ e := Nat.one_lt_two_pow hpos.ne'
    rw [roundUpPow2_eq h1 (Nat.pow_le_pow_right (by decide) he)]
    congr 1
    refine le_antisymm (Nat.size_le.2 (by omega)) (Nat.le_of_pred_lt (Nat.lt_size.2 ?_))
    obtain ⟨d, rfl⟩ : ∃ d, e = d + 1 := ⟨e - 1, by omega⟩
    rw [pow_succ]
    have := Nat.two_pow_pos d
    simp only [Nat.pred_eq_sub_one, Nat.add_sub_cancel]
    omega

end Sizing

/-- The table `t` holds exactly what the calls, latest first, leave live, and its searches are
good. -/
structure Sound (n : ℕ) (t : IdMap) (calls : List IdCall) : Prop where
  shape : t.Shape n
  reach : (t.table n).Reach (home n)
  content : ∀ key val, (∃ z, t.table n z = some (key, val)) ↔
    lastInsert calls key = val ∧ val ≠ NULL_IDX

section Sound

variable {n : ℕ} {t : IdMap} {calls : List IdCall}

theorem new_sound {e : ℕ} (he : e ≤ 31) : (IdMap.new (2 ^ e)).Sound (2 ^ e) [] := by
  have hpos := Nat.two_pow_pos e
  have hle : 2 ^ e ≤ 2 ^ 31 := Nat.pow_le_pow_right (by decide) he
  have hempty : ∀ z, (IdMap.new (2 ^ e)).table (2 ^ e) z = none := fun z => rfl
  refine ⟨⟨roundUpPow2_two_pow he, ?_, roundUpPow2_two_pow he, e, he, rfl⟩, ⟨?_, ?_⟩, ?_⟩
  · rw [IdMap.new, roundUpPow2_two_pow he]
    simp only [sub32]
    omega
  · intro a b k v w ha
    simp [hempty] at ha
  · intro z k v hz
    simp [hempty] at hz
  · intro key val
    simp only [hempty, reduceCtorEq, exists_false, lastInsert, false_iff, not_and, not_not]
    exact fun h => h.symm

theorem mem_liveKeys {k : OrderId} : k ∈ liveKeys calls ↔ lastInsert calls k ≠ NULL_IDX := by
  simp only [liveKeys, Finset.mem_filter, List.mem_toFinset, List.mem_map, and_iff_right_iff_imp]
  intro hne
  induction calls with
  | nil => exact absurd rfl hne
  | cons c calls ih =>
    by_cases hk : c.key = k
    · exact ⟨c, List.mem_cons_self, hk⟩
    · have hne' : lastInsert calls k ≠ NULL_IDX := by
        cases c <;> simp only [IdCall.key] at hk <;> simpa [lastInsert, hk] using hne
      obtain ⟨c', hc', rfl⟩ := ih hne'
      exact ⟨c', List.mem_cons_of_mem _ hc', rfl⟩

/-- A table with fewer live keys than slots has an empty slot. -/
theorem Sound.exists_empty (h : t.Sound n calls) (hroom : (liveKeys calls).card < n) :
    ∃ e, t.table n e = none := by
  have : NeZero n := ⟨h.shape.pos.ne'⟩
  by_contra hfull
  simp only [not_exists] at hfull
  have hkey : ∀ z, ∃ k v, t.table n z = some (k, v) := by
    intro z
    obtain ⟨⟨k, v⟩, hz⟩ := Option.ne_none_iff_exists'.1 (hfull z)
    exact ⟨k, v, hz⟩
  choose key val hkv using hkey
  have hlive : ∀ z, key z ∈ liveKeys calls := by
    intro z
    obtain ⟨hlast, hne⟩ := (h.content _ _).1 ⟨z, hkv z⟩
    exact mem_liveKeys.2 (hlast ▸ hne)
  have hinj : Function.Injective fun z => (⟨key z, hlive z⟩ : liveKeys calls) := by
    intro a b hab
    have hk : key a = key b := congrArg Subtype.val hab
    exact h.reach.unique (hkv a) (hk ▸ hkv b)
  have := Fintype.card_le_of_injective _ hinj
  rw [ZMod.card, Fintype.card_coe] at this
  omega

/-- Where a search ends, the entry's value is the last one inserted. -/
theorem Sound.val_eq (h : t.Sound n calls) {key : OrderId} {j : ℕ}
    (hj : FirstStop (home n) (t.table n) key j) :
    (t.entries.cell (home n key + (j : ZMod n)).val).val = lastInsert calls key := by
  have : NeZero n := ⟨h.shape.pos.ne'⟩
  rcases hj.1 with hnone | ⟨v, hv⟩
  · have hemp : (t.entries.cell (home n key + (j : ZMod n)).val).val = EMPTY := by
      by_contra hne
      rw [table, tableOf, if_neg hne] at hnone
      simp at hnone
    rw [hemp]
    by_contra hne
    obtain ⟨z, hz⟩ := (h.content key _).2 ⟨rfl, fun h' => hne h'.symm⟩
    rw [hj.holds h.reach hz, hz] at hnone
    simp at hnone
  · obtain ⟨-, -, hval⟩ := table_eq_some.1 hv
    rw [hval]
    exact ((h.content _ _).1 ⟨_, hv⟩).1.symm

theorem Sound.find (h : t.Sound n calls) (hroom : (liveKeys calls).card < n) (key : OrderId) :
    t.find key = some (lastInsert calls key) := by
  have : NeZero n := ⟨h.shape.pos.ne'⟩
  obtain ⟨e, he⟩ := h.exists_empty hroom
  obtain ⟨j, hjn, hj⟩ : ∃ j < n, FirstStop (home n) (t.table n) key j := exists_firstStop he key
  rw [find_spec h.shape hjn hj, h.val_eq hj]

theorem Sound.insert (h : t.Sound n calls) (hroom : (liveKeys calls).card < n) (key : OrderId)
    {val : ℕ} (hval : val ≠ NULL_IDX) :
    ∃ t', t.insert key val = some t' ∧ t'.Sound n (.insert key val :: calls) := by
  have : NeZero n := ⟨h.shape.pos.ne'⟩
  obtain ⟨e, he⟩ := h.exists_empty hroom
  obtain ⟨j, hjn, hj⟩ : ∃ j < n, FirstStop (home n) (t.table n) key j := exists_firstStop he key
  obtain ⟨t', ht', hs, hT⟩ := insert_spec h.shape hjn hj hval
  refine ⟨t', ht', hs, ?_, fun k v => ?_⟩
  · rw [hT]
    exact insertAt_reach h.reach hj hjn val
  simp only [lastInsert]
  by_cases hk : key = k
  · subst hk
    rw [if_pos rfl]
    constructor
    · rintro ⟨z, hz⟩
      by_cases hzj : z = home n key + (j : ZMod n)
      · rw [hT, hzj, insertAt_self] at hz
        simp only [Option.some.injEq, Prod.mk.injEq, true_and] at hz
        exact ⟨hz, hz ▸ hval⟩
      · rw [hT, insertAt_of_ne hzj] at hz
        exact absurd (hj.holds h.reach hz).symm hzj
    · rintro ⟨rfl, -⟩
      exact ⟨_, by rw [hT, insertAt_self]⟩
  · rw [if_neg hk, ← h.content]
    refine exists_congr fun z => ?_
    by_cases hzj : z = home n key + (j : ZMod n)
    · rw [hT, hzj, insertAt_self]
      constructor
      · intro hz
        simp only [Option.some.injEq, Prod.mk.injEq] at hz
        exact absurd hz.1 hk
      · intro hz
        rcases hj.1 with hnone | ⟨w, hw⟩
        · rw [hnone] at hz
          simp at hz
        · rw [hw] at hz
          simp only [Option.some.injEq, Prod.mk.injEq] at hz
          exact absurd hz.1 hk
    · rw [hT, insertAt_of_ne hzj]

/-- Erasing a key that is held leaves the table shifted, and all other keys in it. -/
theorem Sound.erase_held [NeZero n] (h : t.Sound n calls) {e cur : ZMod n}
    (he : t.table n e = none) {key : OrderId} {val m : ℕ}
    (hcur : t.table n cur = some (key, val)) (hrun : ShiftRun (home n) (t.table n) cur m) :
    ∃ t', t.erase key = some t' ∧ t'.Shape n ∧ t'.table n = shifted (t.table n) cur m
      ∧ ∀ k v, (∃ z, t'.table n z = some (k, v)) ↔
        lastInsert (.erase key :: calls) k = v ∧ v ≠ NULL_IDX := by
  obtain ⟨t', ht', hs, hT⟩ := erase_present h.shape h.reach he hcur hrun
  refine ⟨t', ht', hs, hT, fun k v => ?_⟩
  rw [hT]
  simp only [lastInsert]
  by_cases hk : key = k
  · subst hk
    rw [if_pos rfl]
    constructor
    · rintro ⟨z, hz⟩
      exact absurd rfl (shifted_origin h.reach hrun hcur hz).1
    · rintro ⟨rfl, hne⟩
      exact absurd rfl hne
  · rw [if_neg hk, ← h.content]
    constructor
    · rintro ⟨z, hz⟩
      obtain ⟨-, y, hy, -⟩ := shifted_origin h.reach hrun hcur hz
      exact ⟨y, hy⟩
    · rintro ⟨y, hy⟩
      exact shifted_image hrun hcur hy fun h => hk h.symm

/-- A safe erase keeps the table sound. -/
theorem Sound.erase (h : t.Sound n calls) (hroom : (liveKeys calls).card < n) {key : OrderId}
    (hsafe : t.EraseSafe key) :
    ∃ t', t.erase key = some t' ∧ t'.Sound n (.erase key :: calls) := by
  have : NeZero n := ⟨h.shape.pos.ne'⟩
  obtain ⟨e, he⟩ := h.exists_empty hroom
  obtain ⟨j, hjn, hj⟩ : ∃ j < n, FirstStop (home n) (t.table n) key j := exists_firstStop he key
  rcases hj.1 with hnone | ⟨val, hval⟩
  · -- the key is not in the table
    refine ⟨t, erase_absent h.shape hjn hj hnone, h.shape, h.reach, fun k v => ?_⟩
    rw [h.content]
    simp only [lastInsert]
    split_ifs with hk
    · subst hk
      constructor
      · rintro ⟨hl, hv⟩
        obtain ⟨z, hz⟩ := (h.content _ _).2 ⟨hl, hv⟩
        rw [hj.holds h.reach hz, hz] at hnone
        simp at hnone
      · rintro ⟨rfl, hv⟩
        exact absurd rfl hv
    · rfl
  · obtain ⟨m, hrun⟩ := exists_shiftRun he hval
    obtain ⟨t', ht', hs, hT, hcontent⟩ := h.erase_held he hval hrun
    refine ⟨t', ht', hs, ?_, hcontent⟩
    rw [hT]
    exact shifted_reach h.reach he hrun hval
      ((eraseSafe_iff h.shape h.reach he hval hrun).1 hsafe)

/-- After an erase that is not safe some live key is not found. -/
theorem Sound.erase_unsafe (h : t.Sound n calls) (hroom : (liveKeys calls).card < n)
    {key : OrderId} (hbad : ¬ t.EraseSafe key) :
    ∃ t' k, t.erase key = some t' ∧ t'.find k ≠ some (lastInsert (.erase key :: calls) k) := by
  have : NeZero n := ⟨h.shape.pos.ne'⟩
  obtain ⟨e, he⟩ := h.exists_empty hroom
  obtain ⟨cur, val, hcur⟩ : ∃ cur val, t.table n cur = some (key, val) := by
    by_contra hno
    simp only [not_exists] at hno
    refine hbad fun slot hslot hocc hkey => ?_
    rw [h.shape.cap] at hslot
    have hcv : (slot : ZMod n).val = slot := ZMod.val_natCast_of_lt hslot
    rw [← hcv] at hocc hkey
    exact absurd (table_eq_some.2 ⟨hocc, hkey, rfl⟩) (hno _ _)
  obtain ⟨m, hrun⟩ := exists_shiftRun he hcur
  obtain ⟨t', ht', hs, hT, hcontent⟩ := h.erase_held he hcur hrun
  have hcross := (eraseSafe_iff h.shape h.reach he hcur hrun).not.1 hbad
  obtain ⟨z, k', v', hz, hk', j, hjn, hj, hcut⟩ := shifted_unreachable h.reach hrun hcur hcross
  rw [← hT] at hj hcut
  refine ⟨t', k', ht', ?_⟩
  have hemp : (t'.entries.cell (home n k' + (j : ZMod n)).val).val = NULL_IDX := by
    by_contra hne
    exact occupied_iff.1 hne hcut
  obtain ⟨hlast, hne⟩ := (h.content _ _).1 ⟨z, hz⟩
  rw [find_spec hs hjn hj, hemp]
  simp only [lastInsert, if_neg fun h : key = k' => hk' h.symm, hlast, ne_eq, Option.some.injEq]
  exact fun h => hne h.symm

/-- Every probe loop ends in a sound table with room. -/
theorem Sound.insert_isSome (h : t.Sound n calls) (hroom : (liveKeys calls).card < n)
    (key : OrderId) (val : ℕ) : (t.insert key val).isSome := by
  have : NeZero n := ⟨h.shape.pos.ne'⟩
  obtain ⟨e, he⟩ := h.exists_empty hroom
  obtain ⟨j, hjn, hj⟩ : ∃ j < n, FirstStop (home n) (t.table n) key j := exists_firstStop he key
  simp [IdMap.insert, probe_start h.shape hjn hj, h.shape.modify]

theorem Sound.erase_isSome (h : t.Sound n calls) (hroom : (liveKeys calls).card < n)
    (key : OrderId) : (t.erase key).isSome := by
  have : NeZero n := ⟨h.shape.pos.ne'⟩
  obtain ⟨e, he⟩ := h.exists_empty hroom
  obtain ⟨j, hjn, hj⟩ : ∃ j < n, FirstStop (home n) (t.table n) key j := exists_firstStop he key
  rcases hj.1 with hnone | ⟨val, hval⟩
  · rw [erase_absent h.shape hjn hj hnone]
    rfl
  · obtain ⟨m, hrun⟩ := exists_shiftRun he hval
    obtain ⟨t', ht', -⟩ := h.erase_held he hval hrun
    rw [ht']
    rfl

end Sound

end IdMap

/-- No call inserts the empty mark. -/
def ValidCalls (calls : List IdCall) : Prop := ∀ key val, .insert key val ∈ calls → val ≠ NULL_IDX

/-- There are never as many distinct live keys as slots. -/
def HasRoom (cap : ℕ) (calls : List IdCall) : Prop :=
  ∀ earlier, earlier <:+ calls → (liveKeys earlier).card < cap

/-- Every erase among the calls, latest first, is safe in the table it is made on. -/
def SafeCalls (t : IdMap) (calls : List IdCall) : Prop :=
  ∀ key earlier s, .erase key :: earlier <:+ calls → runCalls t earlier = some s → s.EraseSafe key

section Runs

variable {cap : ℕ} {t : IdMap} {c : IdCall} {calls : List IdCall}

theorem ValidCalls.of_cons (h : ValidCalls (c :: calls)) : ValidCalls calls :=
  fun key val hm => h key val (List.mem_cons_of_mem _ hm)

theorem HasRoom.of_cons (h : HasRoom cap (c :: calls)) : HasRoom cap calls :=
  fun earlier he => h earlier (he.trans (List.suffix_cons c calls))

theorem hasRoom_of_length (h : calls.length < cap) : HasRoom cap calls := fun earlier he => by
  have hcard : (liveKeys earlier).card ≤ earlier.length := by
    refine (Finset.card_filter_le _ _).trans ((List.toFinset_card_le _).trans ?_)
    rw [List.length_map]
  exact hcard.trans_lt (he.length_le.trans_lt h)

theorem SafeCalls.of_cons (h : SafeCalls t (c :: calls)) : SafeCalls t calls :=
  fun key earlier s he => h key earlier s (he.trans (List.suffix_cons c calls))

theorem safeCalls_nil : SafeCalls t [] := fun key earlier s he => by simp at he

theorem safeCalls_cons : SafeCalls t (c :: calls) ↔ SafeCalls t calls ∧
    ∀ key, c = .erase key → ∀ s, runCalls t calls = some s → s.EraseSafe key := by
  refine ⟨fun h => ⟨h.of_cons, fun key hc s hs => h key calls s (hc ▸ List.suffix_rfl) hs⟩, ?_⟩
  rintro ⟨h, hlast⟩ key earlier s he hs
  rcases List.suffix_cons_iff.1 he with heq | hsuf
  · obtain ⟨rfl, rfl⟩ := List.cons.inj heq
    exact hlast key rfl s hs
  · exact h key earlier s hsuf hs

instance decidableSafeCalls (t : IdMap) : ∀ calls, Decidable (SafeCalls t calls)
  | [] => .isTrue safeCalls_nil
  | .insert _ _ :: calls =>
    have := decidableSafeCalls t calls
    decidable_of_iff (SafeCalls t calls) (by simp [safeCalls_cons])
  | .erase key :: calls =>
    have := decidableSafeCalls t calls
    decidable_of_iff (SafeCalls t calls ∧ ∀ s ∈ runCalls t calls, s.EraseSafe key)
      (by simp [safeCalls_cons])

theorem runCalls_cons {M : Type} [IdMapOps M] {m s : M} (h : runCalls m calls = some s) :
    runCalls m (c :: calls) = c.apply s := by
  simp [runCalls, h]

theorem runCalls_append {M : Type} [IdMapOps M] {m s : M} (h : runCalls m calls = some s) :
    ∀ l : List IdCall, runCalls m (l ++ calls) = runCalls s l
  | [] => h
  | call :: l => congrArg (fun m' => m'.bind fun m' => call.apply m') (runCalls_append h l)

theorem safeCalls_append {s : IdMap} (h : SafeCalls t calls) (hs : runCalls t calls = some s) :
    ∀ l : List IdCall, SafeCalls s l → SafeCalls t (l ++ calls)
  | [], _ => h
  | call :: l, hl => by
    obtain ⟨hl, hlast⟩ := safeCalls_cons.1 hl
    refine safeCalls_cons.2 ⟨safeCalls_append h hs l hl, fun key hc s' hs' => hlast key hc s' ?_⟩
    exact (runCalls_append hs l).symm.trans hs'

/-- Erases leave no fewer slots free. -/
theorem HasRoom.erases (h : HasRoom cap calls) : ∀ l : List IdCall,
    (∀ call ∈ l, ∃ key, call = .erase key) → HasRoom cap (l ++ calls)
  | [], _ => h
  | call :: l, hl => by
    have ih := h.erases l fun call hc => hl call (List.mem_cons_of_mem _ hc)
    obtain ⟨key, rfl⟩ := hl call List.mem_cons_self
    intro earlier he
    rcases List.suffix_cons_iff.1 he with rfl | hsuf
    · refine lt_of_le_of_lt (Finset.card_le_card fun k hk => ?_) (ih _ List.suffix_rfl)
      rw [IdMap.mem_liveKeys] at hk ⊢
      intro hnull
      refine hk ?_
      change (if key = k then NULL_IDX else lastInsert (l ++ calls) k) = NULL_IDX
      rw [hnull, ite_self]
    · exact ih earlier hsuf

theorem HasRoom.cons (h : HasRoom cap calls) (hc : (liveKeys (c :: calls)).card < cap) :
    HasRoom cap (c :: calls) := by
  intro earlier he
  rcases List.suffix_cons_iff.1 he with rfl | hsuf
  · exact hc
  · exact h earlier hsuf

/-- A call made safely on a sound table leaves it sound. -/
theorem IdMap.Sound.step {s : IdMap} (hs : s.Sound cap calls) (hval : ValidCalls (c :: calls))
    (hroom : HasRoom cap (c :: calls)) (hsafe : ∀ key, c = .erase key → s.EraseSafe key) :
    ∃ s', c.apply s = some s' ∧ s'.Sound cap (c :: calls) := by
  have hcard := hroom.of_cons calls List.suffix_rfl
  cases c with
  | insert key val => exact hs.insert hcard key (hval key val List.mem_cons_self)
  | erase key => exact hs.erase hcard (hsafe key rfl)

/-- A run whose erases are all safe returns a sound table. -/
theorem runCalls_sound (h0 : t.Sound cap []) : ∀ calls : List IdCall, ValidCalls calls →
    HasRoom cap calls → SafeCalls t calls → ∃ s, runCalls t calls = some s ∧ s.Sound cap calls
  | [], _, _, _ => ⟨t, rfl, h0⟩
  | c :: calls, hval, hroom, hsafe => by
    obtain ⟨s, hrun, hs⟩ := runCalls_sound h0 calls hval.of_cons hroom.of_cons hsafe.of_cons
    obtain ⟨s', hc, hs'⟩ := hs.step hval hroom fun key hck =>
      hsafe key calls s (hck ▸ List.suffix_rfl) hrun
    exact ⟨s', by rw [runCalls_cons hrun, hc], hs'⟩

/-- A run after whose every call all searches are right has made safe erases only. -/
theorem safeCalls_of_finds (h0 : t.Sound cap []) : ∀ calls : List IdCall, ValidCalls calls →
    HasRoom cap calls →
    (∀ earlier, earlier <:+ calls →
      ∃ s, runCalls t earlier = some s ∧ ∀ k, s.find k = some (lastInsert earlier k)) →
    SafeCalls t calls
  | [], _, _, _ => fun key earlier s he => by simp at he
  | c :: calls, hval, hroom, hfind => by
    have ih := safeCalls_of_finds h0 calls hval.of_cons hroom.of_cons fun earlier he =>
      hfind earlier (he.trans (List.suffix_cons c calls))
    obtain ⟨s, hrun, hs⟩ := runCalls_sound h0 calls hval.of_cons hroom.of_cons ih
    refine safeCalls_cons.2 ⟨ih, fun key hck s₁ hs₁ => ?_⟩
    -- had the last call been unsafe, a search would fail now
    subst hck
    rw [hrun, Option.some.injEq] at hs₁
    subst hs₁
    by_contra hbad
    obtain ⟨s', k, hs', hk⟩ := hs.erase_unsafe (hroom.of_cons _ List.suffix_rfl) hbad
    obtain ⟨s₂, hr₂, hf₂⟩ := hfind _ List.suffix_rfl
    rw [runCalls_cons hrun, IdCall.apply, show IdMapOps.erase s key = s.erase key from rfl, hs',
      Option.some.injEq] at hr₂
    subst hr₂
    exact hk (hf₂ k)

end Runs

/-- For a run that never has as many live keys as slots: after every call every search returns
the value last inserted under its key and not erased since, if and only if every erase of the run
is safe in the table it is made on. -/
theorem runCalls_finds_iff {e : ℕ} (he : e ≤ 31) (calls : List IdCall) (hval : ValidCalls calls)
    (hroom : HasRoom (2 ^ e) calls) :
    (∀ earlier, earlier <:+ calls → ∃ s, runCalls (IdMap.new (2 ^ e)) earlier = some s
        ∧ ∀ k, s.find k = some (lastInsert earlier k))
      ↔ SafeCalls (IdMap.new (2 ^ e)) calls := by
  have h0 := IdMap.new_sound he
  refine ⟨safeCalls_of_finds h0 calls hval hroom, fun hsafe earlier hsuf => ?_⟩
  have hval' : ValidCalls earlier := fun key val hm => hval key val (hsuf.subset hm)
  have hroom' : HasRoom (2 ^ e) earlier := fun l hl => hroom l (hl.trans hsuf)
  have hsafe' : SafeCalls (IdMap.new (2 ^ e)) earlier :=
    fun key l s hl => hsafe key l s (hl.trans hsuf)
  obtain ⟨s, hrun, hs⟩ := runCalls_sound h0 earlier hval' hroom' hsafe'
  exact ⟨s, hrun, hs.find (hroom earlier hsuf)⟩

/-- Latest first: 15, 6 and 7 are inserted and 15 erased. In a table of eight slots 15 and 7 hash
to slot 0 and 6 to slot 1, so the shift stops at 6 and leaves 7 behind the hole. -/
def collidingCalls : List IdCall := [.erase 15, .insert 7 2, .insert 6 1, .insert 15 0]

theorem collidingCalls_valid : ValidCalls collidingCalls := by
  intro key val hm
  simp only [collidingCalls, List.mem_cons, reduceCtorEq, IdCall.insert.injEq, List.not_mem_nil,
    or_false, false_or] at hm
  rcases hm with ⟨-, rfl⟩ | ⟨-, rfl⟩ | ⟨-, rfl⟩ <;> decide

theorem collidingCalls_room : HasRoom (2 ^ 3) collidingCalls := hasRoom_of_length (by decide)

/-- The erase of 6 moves 7 next to 15, and the erase of 15 moves it home. -/
def shiftingCalls : List IdCall := [.erase 15, .erase 6, .insert 7 2, .insert 6 1, .insert 15 0]

theorem shiftingCalls_valid : ValidCalls shiftingCalls := fun key val hm =>
  collidingCalls_valid key val (by simpa [shiftingCalls, collidingCalls] using hm)

theorem runCalls_finds_iff_colliding :
    (∀ earlier, earlier <:+ shiftingCalls → ∃ s, runCalls (IdMap.new (2 ^ 3)) earlier = some s
        ∧ ∀ k, s.find k = some (lastInsert earlier k)) ∧
      ¬ ∀ earlier, earlier <:+ collidingCalls → ∃ s, runCalls (IdMap.new (2 ^ 3)) earlier = some s
        ∧ ∀ k, s.find k = some (lastInsert earlier k) := by
  constructor
  · exact (runCalls_finds_iff (by decide) _ shiftingCalls_valid (hasRoom_of_length (by decide))).2
      (by decide +kernel)
  · exact fun h => absurd ((runCalls_finds_iff (by decide) _ collidingCalls_valid
      collidingCalls_room).1 h) (by decide +kernel)

theorem not_forall_runCalls_find : ¬ ∀ e ≤ 31, ∀ calls, ValidCalls calls → HasRoom (2 ^ e) calls →
    ∃ s, runCalls (IdMap.new (2 ^ e)) calls = some s
      ∧ ∀ k, s.find k = some (lastInsert calls k) := by
  intro h
  obtain ⟨s, hrun, hfind⟩ := h 3 (by decide) _ collidingCalls_valid collidingCalls_room
  have h7 : ((runCalls (IdMap.new (2 ^ 3)) collidingCalls).bind fun s => s.find 7)
      = some NULL_IDX := by decide
  rw [hrun, Option.bind_some, hfind 7] at h7
  exact absurd h7 (by decide)

end Nanomatch
