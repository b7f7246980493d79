import Nanomatch.IdTable
import Nanomatch.Proofs.LadderIds
import Nanomatch.Proofs.MatchFrame
import Nanomatch.Proofs.View

/-!
# The hash table of a book

As long as no call inserts the id of a resting order and every erase is safe, the table of a book
holds exactly the ids of its resting orders, has room for them twice over, and answers every call.
An erase that is not safe loses an entry, which then outlives its order.
-/

namespace Nanomatch

open OrderBook Ladder LinearProbing

variable {a a' : Ladder} {sd : Side} {i s e : ℕ} {id : OrderId} {out : List ℕ}

section Named

namespace Ladder

/-- The id map finds every resting order under its id. -/
def Named (a : Ladder) : Prop := ∀ s, a.Rests s → a.find (a.info s).id = s

theorem new_named (band cap : ℕ) : (new band cap).Named := fun _ hs => absurd hs List.not_mem_nil

theorem Leaves.find (h : Leaves out a a') (k : OrderId) :
    a'.find k = if k ∈ out.map (fun s => (a.info s).id) then NULL_IDX else a.find k := by
  have hids : (out.map fun s => IdCall.erase (a.info s).id).reverse =
      ((out.map fun s => (a.info s).id).reverse).map IdCall.erase := by
    simp [List.map_reverse, Function.comp_def]
  unfold Ladder.find
  rw [h.calls, hids, lastInsert_erases]
  simp

theorem Enters.find (h : Enters id s a a') (k : OrderId) :
    a'.find k = if id = k then s else a.find k := by
  unfold Ladder.find
  rw [h.calls]
  rfl

/-- The ids of the orders that leave are not those of the others. -/
theorem Named.leaves (h : a.Named) (hl : Leaves out a a') : a'.Named := by
  intro s hs
  obtain ⟨hr, hout⟩ := (hl.rests s).1 hs
  rw [hl.id, hl.find, if_neg, h s hr]
  intro hmem
  obtain ⟨x, hx, hid⟩ := List.mem_map.1 hmem
  have hxs : x = s := by rw [← h x (hl.out_rests x hx), hid, h s hr]
  exact hout (hxs ▸ hx)

theorem Named.enters (h : a.Named) (he : Enters id s a a')
    (hnew : ∀ x, a.Rests x → (a.info x).id ≠ id) : a'.Named := by
  intro x hx
  rw [he.find]
  rcases (he.rests x).1 hx with hr | rfl
  · have hxs : x ≠ s := fun hxs => he.new (hxs ▸ hr)
    rw [he.id_old x hxs, if_neg fun hid => hnew x hr hid.symm]
    exact h x hr
  · rw [he.id_new, if_pos rfl]

theorem Wf.named_step (hw : a.Wf) (h : a.Named) (op : OrderBook.Op)
    (hnew : ∀ id sd price qty, op = .insertLimitOrder id sd price qty →
      ∀ x, a.Rests x → (a.info x).id ≠ id) : (a.step op).1.Named := by
  rcases hw.step_ids op with hl | ⟨a1, id, sd, price, qty, s, hop, -, hl, he⟩
  · exact h.leaves hl
  · refine (h.leaves hl).enters he fun x hx => ?_
    rw [hl.id]
    exact hnew id sd price qty hop x ((hl.rests x).1 hx).1

/-- There are no more ids in the map than slots. -/
theorem Core.card_liveKeys (h : a.Core) : (liveKeys a.calls).card ≤ a.cap := by
  rw [← Finset.card_range a.cap]
  have hlive : ∀ k ∈ liveKeys a.calls, a.find k ≠ NULL_IDX := fun k hk => IdMap.mem_liveKeys.1 hk
  refine Finset.card_le_card_of_injOn a.find (fun k hk => ?_) fun k hk k' hk' he => ?_
  · exact Finset.mem_coe.2 (Finset.mem_range.2 (h.slot_lt (h.ids k (hlive k hk)).1))
  · rw [← (h.ids k (hlive k hk)).2, ← (h.ids k' (hlive k' hk')).2, he]

/-- A step leaves the calls fit for a table with more entries than the book has slots. -/
theorem Wf.step_room (hw : a.Wf) {n : ℕ} (hcap : a.cap < n) (op : OrderBook.Op)
    (hval : ValidCalls a.calls) (hroom : HasRoom n a.calls) :
    ValidCalls (a.step op).1.calls ∧ HasRoom n (a.step op).1.calls := by
  have hw' := hw.step op
  have hcard : (liveKeys (a.step op).1.calls).card < n :=
    lt_of_le_of_lt hw'.toCore.card_liveKeys ((hw.step_sizes op).2 ▸ hcap)
  have herases : ∀ l : List ℕ, ∀ call ∈ (l.map fun s => IdCall.erase (a.info s).id).reverse,
      ∃ key, call = .erase key := by
    intro l call hc
    obtain ⟨s, -, rfl⟩ := List.mem_map.1 (List.mem_reverse.1 hc)
    exact ⟨_, rfl⟩
  have hleaves : ∀ {a1}, Leaves (a.outOf op) a a1 → ValidCalls a1.calls ∧ HasRoom n a1.calls := by
    intro a1 hl
    rw [hl.calls]
    refine ⟨fun key val hm => ?_, hroom.erases _ (herases _)⟩
    rcases List.mem_append.1 hm with hm | hm
    · obtain ⟨key', hk⟩ := herases _ _ hm
      exact IdCall.noConfusion hk
    · exact hval key val hm
  rcases hw.step_ids op with hl | ⟨a1, id, sd, price, qty, s, -, -, hl, he⟩
  · exact hleaves hl
  · obtain ⟨hval1, hroom1⟩ := hleaves hl
    have hs : s ≠ NULL_IDX := hw'.toSep.ne_null (hw'.slot_lt ((he.rests s).2 (.inr rfl)))
    rw [he.calls] at hcard ⊢
    refine ⟨fun key val hm => ?_, hroom1.cons hcard⟩
    rcases List.mem_cons.1 hm with hm | hm
    · obtain ⟨-, rfl⟩ := IdCall.insert.inj hm
      exact hs
    · exact hval1 key val hm

end Ladder

end Named

section Table

/-- The hash table of `2 ^ e` entries answers as the finite map does while its erases are safe. -/
def tableLaws (e : ℕ) : IdMapLaws IdMap where
  Sync t calls := runCalls (IdMap.new (2 ^ e)) calls = some t ∧ t.Sound (2 ^ e) calls
  Good calls := ValidCalls calls ∧ HasRoom (2 ^ e) calls ∧ SafeCalls (IdMap.new (2 ^ e)) calls
  good_of_suffix := by
    rintro calls calls' hs ⟨hval, hroom, hsafe⟩
    exact ⟨fun key val hm => hval key val (hs.subset hm), fun l hl => hroom l (hl.trans hs),
      fun key l s hl => hsafe key l s (hl.trans hs)⟩
  find hs hg id := hs.2.find (hg.2.1 _ List.suffix_rfl) id
  insert := by
    rintro t calls id s ⟨hrun, hs⟩ ⟨hval, hroom, -⟩
    obtain ⟨t', ht', hs'⟩ := hs.step hval hroom fun key hk => IdCall.noConfusion hk
    exact ⟨t', ht', (runCalls_cons hrun).trans ht', hs'⟩
  erase := by
    rintro t calls id ⟨hrun, hs⟩ ⟨hval, hroom, hsafe⟩
    obtain ⟨t', ht', hs'⟩ := hs.step hval hroom fun key hk =>
      hsafe key calls t (hk ▸ List.suffix_rfl) hrun
    exact ⟨t', ht', (runCalls_cons hrun).trans ht', hs'⟩

/-- A book stands for the same ladder over another id map that is in step with it. -/
theorem Rep.logged {M : Type} [IdMapOps M] {L : IdMapLaws M} {c : OrderBook M} (h : Rep L c a)
    (hfind : ∀ id, IdMapOps.find c.idMap id = some (lastInsert a.calls id)) :
    Rep (logLaws c.idMap a.calls hfind) c.logged a where
  tob := h.tob
  base := h.base
  baseSet := h.baseSet
  live := h.live
  logger := h.logger
  pool := h.pool
  levels := h.levels
  bitmap := h.bitmap
  level := h.level
  price := h.price
  data := h.data
  bit := h.bit
  chain := h.chain
  sync := ⟨rfl, rfl⟩

/-- The calls that a book makes on its id map are those of the ladder. -/
theorem Rep.callsOf {M : Type} [IdMapOps M] {L : IdMapLaws M} {c : OrderBook M} (h : Rep L c a)
    (hw : a.Wf) (hg : L.Good a.calls) (op : Op) :
    ∃ calls, c.callsOf op = some calls ∧ (a.step op).1.calls = calls ++ a.calls := by
  obtain ⟨d, hd, hrep⟩ := (h.logged fun id => L.find h.sync hg id).step hw op trivial
  refine ⟨d.idMap.calls, ?_, hrep.sync.2⟩
  unfold OrderBook.callsOf
  rw [hd]
  rfl

/-- What holds of a book and its table in every state of a run. -/
structure Tabled (e : ℕ) (c : OrderBook IdMap) (a : Ladder) : Prop where
  rep : Rep (tableLaws e) c a
  wf : a.Wf
  named : a.Named
  good : (tableLaws e).Good a.calls
  cap : 2 * a.cap ≤ 2 ^ e
  cap_pos : 0 < a.cap

variable {c : OrderBook IdMap}

theorem Tabled.newId (h : Tabled e c a) {op : Op} (hnew : c.NewId op) (id : OrderId) (sd : Side)
    (price qty : UInt32) (hop : op = .insertLimitOrder id sd price qty) (x : ℕ) (hx : a.Rests x) :
    (a.info x).id ≠ id := by
  subst hop
  have hxq : x ∈ a.queue (a.info x).side (a.info x).price := hx
  have hi := h.wf.level_lt hxq
  have hid := congrArg Resting.id (h.rep.data _ _ x hxq)
  rw [← hid]
  refine hnew _ (List.mem_append.2 ?_)
  have hmem : c.pool.pool.cell x ∈ c.resting (a.info x).side := by
    refine List.mem_flatMap.2 ⟨_, List.mem_range.2 (h.rep.level_lt hi), ?_⟩
    exact List.mem_map_of_mem ((h.rep.slots_eq h.wf.toSep _ hi).symm ▸ hxq)
  rcases hsd : (a.info x).side <;> rw [hsd] at hmem
  · exact .inl hmem
  · exact .inr hmem

/-- One call with a new id and safe erases. -/
theorem Tabled.step (h : Tabled e c a) (op : Op) (hnew : c.NewId op) (hsafe : c.SafeErases op) :
    ∃ c', c.step op = some (c', (a.step op).2) ∧ Tabled e c' (a.step op).1 := by
  have hcap : a.cap < 2 ^ e := by
    have := h.cap
    have := h.cap_pos
    omega
  obtain ⟨calls, hcalls, heq⟩ := h.rep.callsOf h.wf h.good op
  obtain ⟨hval, hroom⟩ := h.wf.step_room hcap op h.good.1 h.good.2.1
  have hgood : (tableLaws e).Good (a.step op).1.calls :=
    ⟨hval, hroom, heq ▸ safeCalls_append h.good.2.2 h.rep.sync.1 calls (hsafe calls hcalls)⟩
  obtain ⟨c', hc', hrep⟩ := h.rep.step h.wf op hgood
  have hsizes := (h.wf.step_sizes op).2
  exact ⟨c', hc', hrep, h.wf.step op, h.wf.named_step h.named op (h.newId hnew), hgood,
    hsizes.symm ▸ h.cap, hsizes.symm ▸ h.cap_pos⟩

theorem Tabled.run : ∀ (ops : List Op) {c : OrderBook IdMap} {a : Ladder}, Tabled e c a →
    c.AlongRun (fun c op => c.NewId op ∧ c.SafeErases op) ops →
    ∃ c', c.run ops = some c' ∧ Tabled e c' (a.run ops)
  | [], c, _, h, _ => ⟨c, rfl, h⟩
  | op :: ops, c, a, h, ⟨⟨hnew, hsafe⟩, hrest⟩ => by
    obtain ⟨c1, h1, ht1⟩ := h.step op hnew hsafe
    rw [h1] at hrest
    obtain ⟨c2, h2, ht2⟩ := Tabled.run ops ht1 hrest
    exact ⟨c2, bind_some h1 h2, ht2⟩

/-- An entry of the table is the id and the slot of a resting order. -/
theorem Tabled.entry (h : Tabled e c a) {z : ℕ} (hz : z < c.idMap.cap) (hocc : c.idMap.Occupied z) :
    c.idMap.table (2 ^ e) (z : ZMod (2 ^ e)) =
        some ((c.idMap.entries.cell z).key, (c.idMap.entries.cell z).val) ∧
      a.Rests (c.idMap.entries.cell z).val ∧
      (c.pool.pool.cell (c.idMap.entries.cell z).val).id = (c.idMap.entries.cell z).key := by
  have hs := h.rep.sync.2
  rw [hs.shape.cap] at hz
  have hzv : (z : ZMod (2 ^ e)).val = z := ZMod.val_natCast_of_lt hz
  have htable : c.idMap.table (2 ^ e) (z : ZMod (2 ^ e)) =
      some ((c.idMap.entries.cell z).key, (c.idMap.entries.cell z).val) :=
    IdMap.table_eq_some.2 ⟨hzv.symm ▸ hocc, by rw [hzv], by rw [hzv]⟩
  obtain ⟨hlast, hne⟩ := (hs.content _ _).1 ⟨_, htable⟩
  have hfind : a.find (c.idMap.entries.cell z).key = (c.idMap.entries.cell z).val := hlast
  obtain ⟨hr, hid⟩ := h.wf.ids _ (hfind.symm ▸ hne)
  rw [hfind] at hr hid
  exact ⟨htable, hr, (congrArg Resting.id (h.rep.data _ _ _ hr)).trans hid⟩

/-- The entry of a resting order. -/
theorem Tabled.entry_of (h : Tabled e c a) (hr : a.Rests s) : ∃ z, z < c.idMap.cap ∧
    c.idMap.Occupied z ∧ c.idMap.entries.cell z = ⟨(c.pool.pool.cell s).id, s⟩ := by
  have hs := h.rep.sync.2
  have : NeZero (2 ^ e) := ⟨hs.shape.pos.ne'⟩
  have hnull := h.wf.toSep.ne_null (h.wf.slot_lt hr)
  have hid : (c.pool.pool.cell s).id = (a.info s).id := congrArg Resting.id (h.rep.data _ _ s hr)
  obtain ⟨z, hz⟩ := (hs.content (a.info s).id s).2 ⟨h.named s hr, hnull⟩
  obtain ⟨hocc, hkey, hval⟩ := IdMap.table_eq_some.1 hz
  refine ⟨z.val, by rw [hs.shape.cap]; exact ZMod.val_lt z, hocc, ?_⟩
  rw [hid, ← hkey, ← hval]

/-- Two entries with one key are one. -/
theorem Tabled.entry_unique (h : Tabled e c a) {z z' : ℕ} (hz : z < c.idMap.cap)
    (hocc : c.idMap.Occupied z) (hz' : z' < c.idMap.cap) (hocc' : c.idMap.Occupied z')
    (hkey : (c.idMap.entries.cell z).key = (c.idMap.entries.cell z').key) : z = z' := by
  have hs := h.rep.sync.2
  have h1 := (h.entry hz hocc).1
  have h2 := (h.entry hz' hocc').1
  rw [hkey] at h1
  have he := hs.reach.unique h1 h2
  rw [hs.shape.cap] at hz hz'
  rw [← ZMod.val_natCast_of_lt hz, ← ZMod.val_natCast_of_lt hz', he]

theorem Tabled.inStep (h : Tabled e c a) : c.InStep a.cap where
  held z hz hocc := by
    obtain ⟨-, hr, hid⟩ := h.entry hz hocc
    have hi := h.wf.level_lt hr
    refine ⟨(a.info (c.idMap.entries.cell z).val).side, _, h.rep.level_lt hi, ?_, hid⟩
    rw [h.rep.slots_eq h.wf.toSep _ hi]
    exact hr
  once sd i hi s hs := by
    rw [h.rep.levels] at hi
    rw [h.rep.slots_eq h.wf.toSep sd hi] at hs
    obtain ⟨z, hz, hocc, he⟩ := h.entry_of (h.wf.toSep.rests hs)
    refine ⟨z, ⟨hz, hocc, he⟩, ?_⟩
    rintro z' ⟨hz', hocc', he'⟩
    exact h.entry_unique hz' hocc' hz hocc (by rw [he, he'])
  freed z hz hocc := by
    obtain ⟨-, hr, -⟩ := h.entry hz hocc
    rw [h.rep.freeSlots_eq h.wf.toSep]
    exact h.wf.not_free hr
  cap := h.rep.sync.2.shape.cap.symm ▸ h.cap
  room := by
    rw [← Finset.card_range a.cap]
    refine Finset.card_le_card_of_injOn (fun z => (c.idMap.entries.cell z).val) (fun z hz => ?_)
      fun z hz z' hz' he => ?_
    · obtain ⟨hz, hocc⟩ := Finset.mem_filter.1 hz
      obtain ⟨-, hr, -⟩ := h.entry (Finset.mem_range.1 hz) hocc
      exact Finset.mem_coe.2 (Finset.mem_range.2 (h.wf.slot_lt hr))
    · obtain ⟨hz, hocc⟩ := Finset.mem_filter.1 hz
      obtain ⟨hz', hocc'⟩ := Finset.mem_filter.1 hz'
      have hk := (h.entry (Finset.mem_range.1 hz) hocc).2.2
      have hk' := (h.entry (Finset.mem_range.1 hz') hocc').2.2
      have hval : (c.idMap.entries.cell z).val = (c.idMap.entries.cell z').val := he
      exact h.entry_unique (Finset.mem_range.1 hz) hocc (Finset.mem_range.1 hz') hocc'
        (by rw [← hk, ← hk', hval])
  find id := by
    rw [h.rep.sync.2.find (h.good.2.1 _ List.suffix_rfl) id]
    rfl
  insert := h.rep.sync.2.insert_isSome (h.good.2.1 _ List.suffix_rfl)
  erase := h.rep.sync.2.erase_isSome (h.good.2.1 _ List.suffix_rfl)

end Table

section Runs

/-- The constructor's table has a power of two of entries, at least twice the slots. -/
theorem roundUpPow2_double {m : ℕ} (h1 : 1 ≤ m) (h30 : m ≤ 2 ^ 30) :
    ∃ e ≤ 31, OrderBook.roundUpPow2 (m % 2 ^ 32 * 2 % 2 ^ 32) = 2 ^ e ∧ 2 * m ≤ 2 ^ e := by
  have hm : m % 2 ^ 32 * 2 % 2 ^ 32 = m * 2 := by omega
  have hsame : OrderBook.roundUpPow2 (m * 2) = IdMap.roundUpPow2 (m * 2) := by
    unfold OrderBook.roundUpPow2 IdMap.roundUpPow2
    rw [if_neg (by omega), if_neg (by omega)]
  refine ⟨(m * 2 - 1).size, Nat.size_le.2 (by omega), ?_, ?_⟩
  · rw [hm, hsame, IdMap.roundUpPow2_eq (by omega) (by omega)]
  · have := Nat.lt_size_self (m * 2 - 1)
    omega

/-- In a run of a book that inserts new ids only and whose erases are all safe, the table is in
step with the book in every state. -/
theorem run_inStep {band maxOrders : ℕ} (hband : 0 < band) (hband' : band < 2 ^ 32)
    (h1 : 1 ≤ maxOrders) (h30 : maxOrders ≤ 2 ^ 30) (ops : List Op)
    (hrun : (create band maxOrders).AlongRun (fun c op => c.NewId op ∧ c.SafeErases op) ops) :
    ∃ c, (create band maxOrders).run ops = some c ∧ c.InStep maxOrders := by
  obtain ⟨e, he, hsize, hle⟩ := roundUpPow2_double h1 h30
  have hm : maxOrders % 2 ^ 32 = maxOrders := by omega
  have hcreate : create band maxOrders = OrderBook.new band maxOrders (IdMap.new (2 ^ e)) := by
    unfold create
    rw [hsize, hm]
  have hw : (Ladder.new band maxOrders).Wf := new_wf hband hband' (by omega)
  have h0 : Tabled e (create band maxOrders) (Ladder.new band maxOrders) := by
    rw [hcreate]
    refine ⟨rep_new (by omega) ⟨rfl, IdMap.new_sound he⟩, hw, new_named _ _, ⟨?_, ?_, safeCalls_nil⟩,
      hle, h1⟩
    · exact fun key val hm => absurd hm List.not_mem_nil
    · intro l hl
      obtain rfl := List.suffix_nil.1 hl
      exact Nat.two_pow_pos e
  obtain ⟨c, hc, ht⟩ := h0.run ops hrun
  refine ⟨c, hc, ?_⟩
  have hcap : ((Ladder.new band maxOrders).run ops).cap = maxOrders := (hw.run_sizes ops).2
  rw [← hcap]
  exact ht.inStep

/-- Bids 15, 6 and 7 in a table of eight entries, where 15 and 7 hash to entry 0 and 6 to entry 1.
Cancelling 15 moves nothing back, so the fill of 7 does not find its entry. -/
def staleEntry : List Op := [.insertLimitOrder 15 .BUY 100 1, .insertLimitOrder 6 .BUY 100 1,
  .insertLimitOrder 7 .BUY 100 1, .cancelOrder 15, .processMarketOrder .SELL 2]

theorem run_inStep_cancelled : ∃ c, (create 16 2).run
    [.insertLimitOrder 1 .BUY 100 5, .insertLimitOrder 2 .SELL 103 7, .cancelOrder 1] = some c ∧
      c.InStep 2 :=
  run_inStep (by decide) (by decide) (by decide) (by decide) _ (by decide +kernel)

theorem not_forall_run_inStep : ¬ ∀ band maxOrders, 0 < band → band < 2 ^ 32 → 1 ≤ maxOrders →
    maxOrders ≤ 2 ^ 30 → ∀ ops, (create band maxOrders).AlongRun OrderBook.NewId ops →
    ∃ c, (create band maxOrders).run ops = some c ∧ c.InStep maxOrders := by
  intro h
  obtain ⟨c, hrun, hstep⟩ := h 16 4 (by decide) (by decide) (by decide) (by decide) staleEntry
    (by decide +kernel)
  have hval : ((create 16 4).run staleEntry).map (fun c => (c.idMap.cap,
      (c.idMap.entries.cell 1).val, (c.resting .BUY).length, (c.resting .SELL).length)) =
      some (8, 2, 0, 0) := by
    decide +kernel
  rw [hrun, Option.map_some, Option.some.injEq, Prod.mk.injEq, Prod.mk.injEq, Prod.mk.injEq] at hval
  obtain ⟨hcap, hentry, hbids, hasks⟩ := hval
  have hocc : c.idMap.Occupied 1 := by
    unfold IdMap.Occupied
    rw [hentry]
    decide
  obtain ⟨sd, i, hi, hs, -⟩ := hstep.held 1 (by omega) hocc
  have hmem : c.pool.pool.cell (c.idMap.entries.cell 1).val ∈ c.resting sd :=
    List.mem_flatMap.2 ⟨i, List.mem_range.2 hi, List.mem_map_of_mem hs⟩
  have hlen := List.length_pos_of_mem hmem
  cases sd <;> omega

end Runs

end Nanomatch
