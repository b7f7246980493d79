import Nanomatch.Proofs.BaselineSize
import Nanomatch.Proofs.EngineRuns
import Nanomatch.Proofs.MockData

/-!
# The engine on the mock feed

The prices of the mock feed lie in the window that its first order anchors, and it places fewer
orders than the pool has slots. So whatever numbers `random` gives, the feed packs, and the engine's
book agrees with the plain book and its report is whole.
-/

namespace Nanomatch

open StlOrderBook Engine MmapParser

namespace MockRecord

variable {r : MockRecord} {records : List MockRecord}

section Calls

/-- The record that the tuple is packed as. -/
def record (r : MockRecord) : OrderRecord := OrderRecord.ofValues r.value

def bookSide (r : MockRecord) : Side := if r.side = 0 then .BUY else .SELL

/-- The call that the tuple stands for. -/
def call (r : MockRecord) : Call :=
  if r.type = 'L'.toUInt8 then .insertLimitOrder (UInt64.ofNat r.orderId) r.bookSide
    (UInt32.ofNat r.price) (UInt32.ofNat r.qty)
  else if r.type = 'M'.toUInt8 then .processMarketOrder r.bookSide (UInt32.ofNat r.qty)
  else .cancelOrder (UInt64.ofNat r.orderId)

theorem side_record (h : r.side < 2) : Engine.side r.record = r.bookSide := by
  obtain ⟨orderId, price, qty, side, type⟩ := r
  obtain rfl | rfl : side = 0 ∨ side = 1 := by
    simp only at h
    omega
  · rfl
  · rfl

theorem Small.op (h : r.Small) : r.record.op = some r.call.op := by
  have hside : Engine.side r.record = r.bookSide := by
    cases h with
    | limit _ _ hside => exact side_record hside
    | market _ hside => exact side_record hside
    | cancel hside => exact side_record hside
  have htype : r.record.type = r.type := UInt8.ofNat_toNat
  unfold OrderRecord.op call
  rw [hside, htype]
  cases h with
  | limit => rfl
  | market => rfl
  | cancel => rfl

theorem Small.value_lt (h : r.Small) (hid : r.orderId < 2 ^ 64) :
    ∀ f, r.value f < 256 ^ OrderRecord.layout.width f := by
  have htype : r.type.toNat < 256 := r.type.toNat_lt
  have hrest : r.price < 2 ^ 32 ∧ r.qty < 2 ^ 32 ∧ r.side < 256 := by
    cases h with
    | limit => exact ⟨by simp only; omega, by simp only; omega, by simp only; omega⟩
    | market => exact ⟨by simp only; omega, by simp only; omega, by simp only; omega⟩
    | cancel => exact ⟨by simp only; omega, by simp only; omega, by simp only; omega⟩
  obtain ⟨hprice, hqty, hside⟩ := hrest
  rintro (_ | _ | _ | _ | _)
  · exact hid
  · exact hprice
  · exact hqty
  · exact hside
  · exact htype

/-- A tuple whose numbers fit their fields packs as its record. -/
theorem pack_record (h : ∀ f, r.value f < 256 ^ OrderRecord.layout.width f) :
    r.pack = some r.record.pack := by
  have hall : ∀ f ∈ OrderRecord.layout.fields, r.value f < 256 ^ f.width := fun f _ => h f
  unfold MockRecord.pack
  rw [if_pos hall, OrderRecord.pack, record, OrderRecord.value_ofValues h]

theorem packAll_records : ∀ {records : List MockRecord},
    (∀ r ∈ records, ∀ f, r.value f < 256 ^ OrderRecord.layout.width f) →
    packAll records = some ((records.map record).flatMap OrderRecord.pack)
  | [], _ => rfl
  | r :: records, h => by
    obtain ⟨hr, hrecords⟩ := List.forall_mem_cons.1 h
    have ih := packAll_records hrecords
    unfold packAll at ih ⊢
    obtain ⟨blocks, hblocks, hflat⟩ := Option.map_eq_some_iff.1 ih
    rw [List.mapM_cons, pack_record hr, hblocks]
    simp [hflat]

end Calls

end MockRecord

namespace MockFeed

open MockRecord

variable {records : List MockRecord} {seeds : ℕ}

section Runs

/-- No id is larger than the feed is long. -/
theorem WellFormed.orderId_le (h : WellFormed seeds records) {r : MockRecord} (hr : r ∈ records) :
    r.orderId ≤ records.length := by
  have hlen : (insertedIds records).length ≤ records.length := List.length_filterMap_le _ _
  have hinserted : ∀ id ∈ insertedIds records, id ≤ records.length := by
    intro id hid
    rw [h.inserted, List.mem_range'_1] at hid
    omega
  have hsmall := h.drawn.small r hr
  cases hsmall with
  | limit => exact hinserted _ (List.mem_filterMap.2 ⟨_, hr, rfl⟩)
  | market => exact Nat.zero_le _
  | cancel =>
    obtain ⟨before, after, hsplit⟩ := List.append_of_mem hr
    obtain ⟨r', hr', hid'⟩ := List.mem_filterMap.1 (h.earlier before _ after hsplit _ rfl)
    exact hinserted _ (List.mem_filterMap.2 ⟨r', hsplit ▸ List.mem_append_left _ hr', hid'⟩)

/-- The calls of a feed. -/
def calls (records : List MockRecord) : List Call := records.map call

theorem WellFormed.ops (h : WellFormed seeds records) :
    OrderRecord.ops (records.map record) = (calls records).map Call.op := by
  have hop : ∀ r ∈ records, r.record.op = some r.call.op := fun r hr => (h.drawn.small r hr).op
  rw [OrderRecord.ops, List.filterMap_map, calls, List.map_map, ← List.filterMap_eq_map]
  exact List.filterMap_congr hop

theorem WellFormed.price_le (h : WellFormed seeds records) {price : ℕ}
    (hp : price ∈ (calls records).filterMap Call.insertedPrice) : price ≤ 5000 := by
  obtain ⟨call, hcall, hprice⟩ := List.mem_filterMap.1 hp
  obtain ⟨r, hr, rfl⟩ := List.mem_map.1 hcall
  have hsmall := h.drawn.small r hr
  cases hsmall with
  | limit hle =>
    obtain rfl := Option.some.inj hprice
    exact (Nat.mod_le _ _).trans hle
  | market => exact absurd hprice.symm (Option.some_ne_none price)
  | cancel => exact absurd hprice.symm (Option.some_ne_none price)

theorem WellFormed.inWindow (h : WellFormed seeds records) : InWindow priceBand (calls records) := by
  have hbase : windowBase priceBand (calls records) = 0 := by
    unfold windowBase
    rcases hf : (calls records).filterMap Call.insertedPrice with _ | ⟨price, prices⟩
    · rfl
    · have hle := h.price_le (hf ▸ List.mem_cons_self)
      exact if_pos (lt_of_le_of_lt hle (by decide))
  intro price hp
  have hlt : price < priceBand := lt_of_le_of_lt (h.price_le hp) (by decide)
  rw [hbase]
  exact ⟨Nat.zero_le _, by rwa [Nat.zero_add]⟩

/-- Both books are empty at first. -/
theorem same_new (band cap : ℕ) : Same (Ladder.new band cap) {} fun n => n := by
  have hlevel : ∀ sd p, ({} : StlOrderBook).level sd p = [] := by
    intro sd p
    cases sd <;> exact Std.TreeMap.getD_emptyc
  have hmem : ∀ sd p, p ∉ ({} : StlOrderBook).levels sd := by
    intro sd p
    cases sd <;> exact Std.TreeMap.not_mem_emptyc
  exact {
    level := fun sd i _ => by rw [hlevel]; rfl
    tidy := fun sd p hp => absurd hp (hmem sd p)
    within := fun sd p hp => absurd hp (hmem sd p)
    index := fun _ => rfl
    entry := fun _ _ he => absurd he (by simp)
    it_lt := fun sd p n hn => by rw [hlevel] at hn; exact absurd hn List.not_mem_nil }

/-- Whatever `random` gives, the feed packs; and where it is the input, `main` finishes without the
warning, its book agrees with the plain book after the same calls, and however the logger's thread is
interleaved with it, the report is all its trades. -/
theorem generate_main (random : ℕ → ℕ) : ∃ bytes, packAll (generate random) = some bytes ∧
    ∀ (k : Kernel) (h : Held) (argv : List String), k.Serves (inputFile argv) bytes →
      ∃ (e : Engine FinMap) (b : StlOrderBook) (rs : List Bool),
        main k h FinMap.init argv = some (h, .finished e false) ∧
        ({} : StlOrderBook).run (calls (generate random)) = some (b, rs) ∧ Agree e.book b ∧
        ∀ {T : Type} (trade : T → Trade) (buffer) (tr) (l : AsyncLogger T),
          Trace AsyncLogger.Step (AsyncLogger.new buffer) tr l →
          (SPSCQueue.called tr).map trade = e.book.logger → l.caller = .stopped →
          l.out = .header :: (SPSCQueue.called tr).map .trade ∧ l.droppedCount = 0 := by
  have hgen : generate random = recordsAfter random 10000 980000 := rfl
  rw [hgen]
  obtain ⟨hwell, hge, hle⟩ := recordsAfter_spec random 10000 980000
  generalize recordsAfter random 10000 980000 = records at hwell hge hle ⊢
  have hvalue : ∀ r ∈ records, ∀ f, r.value f < 256 ^ OrderRecord.layout.width f := fun r hr =>
    (hwell.drawn.small r hr).value_lt (by have := hwell.orderId_le hr; omega)
  refine ⟨_, packAll_records hvalue, fun k h argv hs => ?_⟩
  have hne : records.map record ≠ [] := by
    rw [← List.length_pos_iff, List.length_map]
    omega
  have hfits : Fits MAX_ORDERS {} (calls records) := by
    refine fits_fresh _ ((List.length_filterMap_le _ _).trans ?_)
    rw [calls, List.length_map]
    exact hle.trans (by decide)
  obtain ⟨c, b, rs, a, ρ, hc, hb, hrep, hw, hsound, hsame⟩ := Same.run (calls records)
    (rep_new (by decide) (L := finLaws) (m := FinMap.init) rfl) new_wf
    (Ladder.new_sound priceBand MAX_ORDERS) (same_new priceBand MAX_ORDERS)
    ⟨hwell.inWindow, fun hset => Bool.noConfusion hset, fun _ => rfl⟩ hfits
  have hrun := run_of_runResults hc
  rw [← hwell.ops] at hrun
  obtain ⟨p, hmain⟩ := main_run h hne hs
  have hmain := hmain FinMap.init hrun
  have hcalls : OrderRecord.ops (records.map record) ≠ [] := fun hnil => hne <| by
    rw [hwell.ops, calls, List.map_map, List.map_eq_nil_iff] at hnil
    rw [hnil]
    rfl
  rw [decide_eq_false hcalls] at hmain
  obtain ⟨c', hc', hrep'⟩ := run_ladder (OrderRecord.ops (records.map record))
  obtain rfl : c = c' := Option.some.inj (hrun.symm.trans hc')
  have htrades := hrep'.trades_le new_wf
  have hcount := ops_trading (records.map record)
  rw [List.length_map] at hcount
  have hslots : 1000000 ≤ 2 ^ (kCapacity : ℕ) := by decide
  refine ⟨⟨c, p⟩, b, rs, hmain, hb, hrep.agree hw hsound hsame, fun trade buffer tr l => ?_⟩
  have htotal : c.logger.length ≤ 2 ^ (kCapacity : ℕ) := by omega
  exact report_trades htotal trade

theorem generate_main_zeros : ∃ bytes, packAll (generate fun _ => 0) = some bytes ∧
    ∃ (e : Engine FinMap) (b : StlOrderBook) (rs : List Bool),
      main (oneFile bytes) {} FinMap.init [] = some ({}, .finished e false) ∧
      ({} : StlOrderBook).run (calls (generate fun _ => 0)) = some (b, rs) ∧ Agree e.book b := by
  obtain ⟨bytes, hbytes, hall⟩ := generate_main fun _ => 0
  obtain ⟨e, b, rs, hmain, hb, hagree, -⟩ := hall (oneFile bytes) {} [] (oneFile_serves _ _)
  exact ⟨bytes, hbytes, e, b, rs, hmain, hb, hagree⟩

end Runs

end MockFeed

end Nanomatch
