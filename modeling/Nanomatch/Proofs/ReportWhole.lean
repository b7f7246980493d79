import Nanomatch.Proofs.AsyncLogger

/-!
# The report of no more records than the queue has slots

`emplace` refuses a record only if a capacity of them is accepted that it has not seen popped. So as
long as no more records are enqueued than the queue has slots, none is dropped however the threads
are interleaved: the report is a beginning of what was enqueued at any time, and all of it when
`stop` has returned.
-/

namespace Nanomatch

open SPSCQueue

namespace AsyncLogger

variable {T : Type} {l l' : AsyncLogger T} {e : Event T} {tr : List (Event T)} {own : ℕ}
  {d d' : Drain T}

section Invariant

/-- The record of the call of `emplace` that is under way. -/
def item : Emplace T → List T
  | .idle => []
  | .called t => [t]
  | .load t _ => [t]
  | .write t _ => [t]
  | .writing t _ => [t]
  | .store t _ => [t]

/-- No record was dropped, and none will be before the next call. -/
structure Whole (l : AsyncLogger T) (tr : List (Event T)) : Prop where
  items : called tr = accepted tr ++ item (producer l.caller)
  dropped : l.dropped = 0
  caller : l.caller ≠ .dropping

theorem whole_new (buffer : Fin (2 ^ (kCapacity : ℕ)) → T) : Whole (new buffer) [] where
  items := rfl
  dropped := rfl
  caller := by rintro ⟨⟩

/-- A step of anything but `emplace`. -/
theorem Whole.other (h : Whole l tr) (hd : l'.dropped = l.dropped) (ha : accepted [e] = [])
    (hcl : called [e] ++ item (producer l.caller) = item (producer l'.caller))
    (hc : l'.caller ≠ .dropping) (hidle : called [e] ≠ [] → item (producer l.caller) = []) :
    Whole l' (tr ++ [e]) := by
  refine ⟨?_, hd.trans h.dropped, hc⟩
  rw [called_append, accepted_append, ha, List.append_nil, h.items, ← hcl, List.append_assoc]
  by_cases hempty : called [e] = []
  · rw [hempty, List.append_nil, List.nil_append]
  · rw [hidle hempty, List.nil_append, List.append_nil]

/-- `emplace` goes on with its record or has put it into the queue, unless it has found that full. -/
theorem emplaceStep_item {q q' : SPSCQueue T kCapacity} {p p' : Emplace T}
    (hs : EmplaceStep q p e q' p') :
    (item p = accepted [e] ++ item p' ∧ afterEmplace e p' ≠ .dropping) ∨
      ∃ loaded, e = .refused loaded := by
  rcases hs with _ | _ | _ | _ | _ | _ | _
  · exact .inl ⟨rfl, by rintro ⟨⟩⟩
  · exact .inl ⟨rfl, by rintro ⟨⟩⟩
  · exact .inl ⟨rfl, by rintro ⟨⟩⟩
  · exact .inr ⟨_, rfl⟩
  · exact .inl ⟨rfl, by rintro ⟨⟩⟩
  · exact .inl ⟨rfl, by rintro ⟨⟩⟩
  · exact .inl ⟨rfl, by rintro ⟨⟩⟩

theorem drainStep_spec (hs : DrainStep own l d e l' d') :
    l'.dropped = l.dropped ∧ l'.caller = l.caller ∧ accepted [e] = [] ∧ called [e] = [] := by
  rcases hs with ⟨hs⟩ | _
  · obtain ⟨-, -, ha, hcl⟩ := @afterPop_spec _ _ _ _ _ _ _ true hs
    exact ⟨rfl, rfl, ha, hcl⟩
  · exact ⟨rfl, rfl, rfl, rfl⟩

theorem Whole.step (h : Whole l tr) (hi : Inv l tr) (hs : Step l e l')
    (hle : (called (tr ++ [e])).length ≤ 2 ^ (kCapacity : ℕ)) : Whole l' (tr ++ [e]) := by
  have hsilent : ∀ {l'' : AsyncLogger T}, l''.dropped = l.dropped →
      item (producer l''.caller) = item (producer l.caller) → l''.caller ≠ .dropping →
      Whole l'' (tr ++ [.silent]) := fun hd hp hc =>
    h.other hd rfl hp.symm hc fun hne => absurd rfl hne
  cases hs with
  | start hc =>
    refine hsilent rfl (by rw [hc]; split <;> rfl) ?_
    simp only
    split <;> rintro ⟨⟩
  | openFile hc => exact hsilent rfl (by rw [hc]; rfl) (by rintro ⟨⟩)
  | spawn hc => exact hsilent rfl (by rw [hc]; rfl) (by rintro ⟨⟩)
  | enqueue t hc =>
    exact h.other rfl rfl (by rw [hc]; rfl) (by rintro ⟨⟩) fun _ => by rw [hc]; rfl
  | @emplace p e q p' hc hs =>
    have hcalled : called (tr ++ [e]) = accepted tr ++ item p := by
      obtain ⟨-, -, -, hcl, -⟩ := afterEmplace_spec hs
      rw [called_append, hcl, List.append_nil, h.items, hc]
      rfl
    rcases emplaceStep_item hs with ⟨hitem, hready⟩ | ⟨loaded, rfl⟩
    · obtain ⟨hp, -⟩ := afterEmplace_spec hs
      refine ⟨?_, h.dropped, hready⟩
      simp only [hp]
      rw [hcalled, accepted_append, hitem, List.append_assoc]
    · -- a capacity of records is accepted, and the refused one is called with
      exfalso
      have hq := hi.queue
      rw [hc] at hq
      obtain ⟨n, -, -, hlen⟩ := hq.refused hs
      rw [hcalled, List.length_append] at hle
      have hone : (item p).length = 1 := by
        rcases hs with _ | _ | _ | _
        rfl
      omega
  | drop hc => exact absurd hc h.caller
  | stop hc =>
    refine hsilent rfl (by rw [hc]; split <;> rfl) ?_
    simp only
    split <;> rintro ⟨⟩
  | join hc => exact hsilent rfl (by rw [hc]; rfl) (by rintro ⟨⟩)
  | @drain d e l' d' hc hs =>
    obtain ⟨hd, -, ha, hcl⟩ := drainStep_spec hs
    exact h.other hd ha (by rw [hcl, hc]; rfl) (by rintro ⟨⟩) fun hne => absurd hcl hne
  | close hc => exact hsilent rfl (by rw [hc]; rfl) (by rintro ⟨⟩)
  | check => exact hsilent rfl rfl h.caller
  | @work d e l' d' hw hs =>
    obtain ⟨hd, hc, ha, hcl⟩ := drainStep_spec hs
    exact h.other hd ha (by rw [hcl, hc]; rfl) (hc ▸ h.caller) fun hne => absurd hcl hne
  | drained => exact hsilent rfl rfl h.caller
  | wake => exact hsilent rfl rfl h.caller

end Invariant

section Report

variable {buffer : Fin (2 ^ (kCapacity : ℕ)) → T}

theorem trace_whole (h : Trace Step (new buffer) tr l)
    (hle : (called tr).length ≤ 2 ^ (kCapacity : ℕ)) : Whole l tr := by
  refine (h.invariant (I := fun tr l => Inv l tr ∧
    ((called tr).length ≤ 2 ^ (kCapacity : ℕ) → Whole l tr)) ⟨inv_new buffer, fun _ =>
      whole_new buffer⟩ ?_).2 hle
  rintro tr l e l' ⟨hi, hw⟩ hs
  refine ⟨hi.step hs, fun hle' => (hw ?_).step hi hs hle'⟩
  rw [called_append, List.length_append] at hle'
  omega

/-- What is in the file comes from the header and the accepted records. -/
theorem Inv.out_isPrefix (h : Inv l tr) : l.out <+: .header :: (accepted tr).map .trade := by
  obtain ⟨hq, ⟨rows, hout, hrows⟩, -, hph⟩ := h
  have hpre : rows <+: accepted tr :=
    (List.prefix_append rows (pending l.drainer)).trans (hrows ▸ hq.holds.isPrefix)
  have hfull : Row.header :: rows.map .trade <+: .header :: (accepted tr).map .trade :=
    List.cons_prefix_cons.2 ⟨rfl, hpre.map _⟩
  have hempty : popped tr = [] → rows = [] := fun hp =>
    (List.append_eq_nil_iff.1 (hrows.trans hp)).1
  rw [hout]
  rcases hc : l.caller with _ | _ | _ | _ | _ | _ | _ | _ | _ <;> rw [hc] at hph
  · rw [hempty hph.2.2]
    exact List.nil_prefix
  · rw [hempty hph.2.2]
    exact List.nil_prefix
  all_goals exact hfull

/-- When `stop` has returned, the file holds the header and the accepted records. -/
theorem Inv.out_stopped (h : Inv l tr) (hstop : l.caller = .stopped) :
    l.out = .header :: (accepted tr).map .trade := by
  obtain ⟨-, ⟨rows, hout, hrows⟩, -, hph⟩ := h
  rw [hstop] at hout hph
  have hdrain : pending l.drainer = [] := by
    unfold drainer
    rw [hstop]
    rcases hph.1 with hw | hw <;> rw [hw] <;> rfl
  rw [hdrain, List.append_nil, hph.2] at hrows
  rw [hout, hrows]
  rfl

/-- A report that lost nothing. -/
theorem Whole.report (hw : Whole l tr) (h : Inv l tr) (hstop : l.caller = .stopped) :
    l.out = .header :: (called tr).map .trade ∧ l.droppedCount = 0 := by
  have hitems := hw.items
  rw [hstop] at hitems
  have hcalled : called tr = accepted tr := hitems.trans (List.append_nil _)
  exact ⟨hcalled ▸ h.out_stopped hstop, by rw [droppedCount, hw.dropped]; rfl⟩

/-- However the two threads are interleaved, a report of no more records than the queue has slots
loses none of them. -/
theorem report_whole (h : Trace Step (new buffer) tr l)
    (hle : (called tr).length ≤ 2 ^ (kCapacity : ℕ)) :
    l.droppedCount = 0 ∧ l.out <+: .header :: (called tr).map .trade ∧
      (l.caller = .stopped → l.out = .header :: (called tr).map .trade) := by
  have hw := trace_whole h hle
  refine ⟨by rw [droppedCount, hw.dropped]; rfl, ?_, fun hstop =>
    (hw.report (trace_inv h) hstop).1⟩
  have haccepted : accepted tr <+: called tr := hw.items ▸ List.prefix_append _ _
  exact (trace_inv h).out_isPrefix.trans (List.cons_prefix_cons.2 ⟨rfl, haccepted.map _⟩)

theorem report_whole_two : ∃ tr, ∃ l : AsyncLogger ℕ, Trace Step (new fun _ => 0) tr l ∧
    l.caller = .stopped ∧ called tr = [7, 8] ∧ l.droppedCount = 0 ∧
      l.out = [.header, .trade 7, .trade 8] := by
  obtain ⟨tr, l, h, hs, hcalled, -⟩ := exists_report (fun _ => 0) [7, 8]
  obtain ⟨hzero, -, hout⟩ := report_whole h (by rw [hcalled]; decide)
  rw [hcalled] at hout
  exact ⟨tr, l, h, hs, hcalled, hzero, hout hs⟩

end Report

end AsyncLogger

end Nanomatch
