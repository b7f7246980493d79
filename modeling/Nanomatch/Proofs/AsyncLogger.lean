import Nanomatch.AsyncLogger
import Nanomatch.Proofs.SPSCQueue

/-!
# The report is complete

At any time one thread at most consumes from the queue: the worker, or the matching thread once it
has joined the worker. The rows are what was popped, but for the one that is being written, and the
last drain ends at the latest index.
-/

namespace Nanomatch

open SPSCQueue

namespace AsyncLogger

variable {T : Type} {l l' : AsyncLogger T} {d d' : Drain T} {e : Event T} {tr : List (Event T)}
  {p : Emplace T} {acc tk pop rows : List T} {own : ℕ}

section Invariant

/-- Where the matching thread is in `emplace`. -/
def producer : Caller T → Emplace T
  | .emplace p => p
  | _ => .idle

/-- Where a thread that drains is in `pop`. -/
def consumer : Drain T → Pop T
  | .pop c _ => c
  | _ => .idle

/-- The item that is popped and not written yet. -/
def pending : Drain T → List T
  | .row t => [t]
  | _ => []

/-- The worker's drain. -/
def working : Worker T → Drain T
  | .drain d => d
  | _ => .done false

/-- The drain that is under way, if any is. -/
def drainer (l : AsyncLogger T) : Drain T :=
  match l.caller with
  | .draining d => d
  | _ => working l.worker

/-- What the report starts with. -/
def top : Caller T → List (Row T)
  | .fresh => []
  | .opening => []
  | _ => [.header]

/-- The calls that have neither put their record into the queue nor counted it as dropped. -/
def underway : Caller T → ℕ
  | .emplace _ => 1
  | .dropping => 1
  | _ => 0

/-- What the flag and the worker are while the matching thread is somewhere. -/
def Phase (l : AsyncLogger T) (acc pop : List T) : Caller T → Prop
  | .fresh => l.running = false ∧ l.worker = .unstarted ∧ pop = []
  | .opening => l.running = true ∧ l.worker = .unstarted ∧ pop = []
  | .spawning => l.running = true ∧ l.worker = .unstarted ∧ pop = []
  | .ready => l.running = true
  | .emplace _ => l.running = true
  | .dropping => l.running = true
  | .joining => True
  | .draining d => (l.worker = .unstarted ∨ l.worker = .done) ∧ ∀ any, d = .done any → pop = acc
  | .stopped => (l.worker = .unstarted ∨ l.worker = .done) ∧ pop = acc

/-- The logger after the events `tr`. -/
structure Inv (l : AsyncLogger T) (tr : List (Event T)) : Prop where
  queue : SPSCQueue.Inv l.queue (producer l.caller) (consumer l.drainer) (accepted tr) (took tr)
    (popped tr)
  out : ∃ rows, l.out = top l.caller ++ rows.map .trade ∧ rows ++ pending l.drainer = popped tr
  count : ∃ n, l.dropped = BitVec.ofNat 64 n ∧
    (accepted tr).length + underway l.caller + n = (called tr).length
  phase : l.Phase (accepted tr) (popped tr) l.caller

end Invariant

section Steps

theorem called_append (tr tr' : List (Event T)) : called (tr ++ tr') = called tr ++ called tr' :=
  List.filterMap_append

/-- What a step of `pop` shows goes into the drain. -/
theorem afterPop_spec {q q' : SPSCQueue T kCapacity} {c c' : Pop T} {any : Bool}
    (hs : PopStep own q c e q' c') : consumer (afterPop any e c') = c' ∧
      pending (afterPop any e c') = popped [e] ∧ accepted [e] = [] ∧ called [e] = [] := by
  rcases hs with _ | _ | _ | _ | _ | _ <;> exact ⟨rfl, rfl, rfl, rfl⟩

/-- What a step of `emplace` shows goes into the count of the calls. -/
theorem afterEmplace_spec {q q' : SPSCQueue T kCapacity} {p' : Emplace T}
    (hs : EmplaceStep q p e q' p') : producer (afterEmplace e p') = p' ∧
      (accepted [e]).length + underway (afterEmplace e p') = 1 ∧ popped [e] = [] ∧
      called [e] = [] ∧ (afterEmplace e p' = .ready ∨ afterEmplace e p' = .dropping ∨
        afterEmplace e p' = .emplace p') := by
  rcases hs with _ | _ | _ | _ | _ | _ | _ <;> exact ⟨rfl, rfl, rfl, rfl, by simp [afterEmplace]⟩

/-- While the worker works, the matching thread is between `start` and the end of its `join`. -/
theorem Phase.busy (h : l.Phase acc pop l.caller) (hw : l.worker ≠ .unstarted)
    (hw' : l.worker ≠ .done) :
    top l.caller = [.header] ∧ l.drainer = working l.worker ∧
      ∀ l' : AsyncLogger T, l'.caller = l.caller → l'.running = l.running →
        l'.drainer = working l'.worker ∧ ∀ acc' pop', l'.Phase acc' pop' l.caller := by
  obtain ⟨q, out, dropped, running, worker, caller⟩ := l
  rcases caller with _ | _ | _ | _ | _ | _ | _ | d | _
  · exact absurd h.2.1 hw
  · exact absurd h.2.1 hw
  · exact absurd h.2.1 hw
  · exact ⟨rfl, rfl, fun l' hc hr => ⟨by simp [drainer, hc], fun _ _ => hr.trans h⟩⟩
  · exact ⟨rfl, rfl, fun l' hc hr => ⟨by simp [drainer, hc], fun _ _ => hr.trans h⟩⟩
  · exact ⟨rfl, rfl, fun l' hc hr => ⟨by simp [drainer, hc], fun _ _ => hr.trans h⟩⟩
  · exact ⟨rfl, rfl, fun l' hc hr => ⟨by simp [drainer, hc], fun _ _ => trivial⟩⟩
  · exact h.1.elim (fun h => absurd h hw) fun h => absurd h hw'
  · exact h.1.elim (fun h => absurd h hw) fun h => absurd h hw'

/-- A step of a drain, by either thread. -/
theorem DrainStep.spec (hs : DrainStep own l d e l' d')
    (hi : SPSCQueue.Inv l.queue p (consumer d) acc tk pop) (hrows : rows ++ pending d = pop) :
    SPSCQueue.Inv l'.queue p (consumer d') (acc ++ accepted [e]) (tk ++ took [e])
      (pop ++ popped [e]) ∧
    (∃ rows', l'.out = l.out ++ rows'.map .trade ∧
      (rows ++ rows') ++ pending d' = pop ++ popped [e]) ∧
    accepted [e] = [] ∧ called [e] = [] ∧
    (∀ any, d' = .done any → popped [e] = [] ∧ own ≤ pop.length) ∧
    l' = { l with queue := l'.queue, out := l'.out } := by
  rcases hs with ⟨hs⟩ | _
  · rename_i c any q c'
    obtain ⟨hc, hp, ha, hcl⟩ : _ ∧ pending (afterPop any _ c') = _ ∧ _ := afterPop_spec hs
    have hi' := hi.popStep hs
    refine ⟨hc.symm ▸ hi', ⟨[], by simp, ?_⟩, ha, hcl, ?_, rfl⟩
    · rw [hp, ← hrows]
      simp [pending]
    · intro b hb
      rcases hs with _ | _ | _ | ⟨i, h1, h2, h3⟩ | _ | _ <;> simp only [afterPop] at hb <;>
        try contradiction
      obtain ⟨-, n, -, hown, -, hlen⟩ := hi.nothing (.loadEmpty i h1 h2 h3)
      exact ⟨rfl, hlen ▸ hown⟩
  · rename_i t
    refine ⟨hi.silent rfl rfl rfl, ⟨[t], rfl, ?_⟩, rfl, rfl, ?_, rfl⟩
    · rw [← hrows]
      simp [pending, popped]
    · rintro any ⟨⟩

theorem inv_new (buffer : Fin (2 ^ (kCapacity : ℕ)) → T) : Inv (new buffer) [] where
  queue := SPSCQueue.inv_new buffer
  out := ⟨[], rfl, rfl⟩
  count := ⟨0, rfl, rfl⟩
  phase := ⟨rfl, rfl, rfl⟩

/-- The invariant after one more event. -/
theorem Inv.snoc (hq : SPSCQueue.Inv l.queue (producer l.caller) (consumer l.drainer)
      (accepted tr ++ accepted [e]) (took tr ++ took [e]) (popped tr ++ popped [e]))
    (hout : ∃ rows, l.out = top l.caller ++ rows.map .trade ∧
      rows ++ pending l.drainer = popped tr ++ popped [e])
    (hcount : ∃ n, l.dropped = BitVec.ofNat 64 n ∧ ((accepted tr).length + (accepted [e]).length) +
      underway l.caller + n = (called tr).length + (called [e]).length)
    (hph : l.Phase (accepted tr ++ accepted [e]) (popped tr ++ popped [e]) l.caller) :
    Inv l (tr ++ [e]) := by
  constructor <;> simpa only [accepted_append, took_append, popped_append, called_append,
    List.length_append]

/-- A step that shows nothing leaves the events as they were. -/
theorem Inv.silent (h : Inv l tr) : Inv l (tr ++ [.silent]) := by
  obtain ⟨h1, h2, h3, h4⟩ := h
  refine Inv.snoc ?_ ?_ h3 ?_ <;> simpa [accepted, took, popped]

/-- The worker goes on without the queue. -/
theorem Inv.setWorker (h : Inv l tr) (hw : l.worker ≠ .unstarted) (hw' : l.worker ≠ .done)
    {w : Worker T} (hc : consumer (working w) = consumer (working l.worker))
    (hp : pending (working w) = pending (working l.worker)) :
    Inv { l with worker := w } (tr ++ [.silent]) := by
  obtain ⟨hq, ⟨rows, hout, hrows⟩, hcount, hph⟩ := h
  obtain ⟨htop, hdrain, hbusy⟩ := hph.busy hw hw'
  obtain ⟨hdrain', hph'⟩ := hbusy { l with worker := w } rfl rfl
  rw [hdrain] at hq hrows
  refine Inv.silent ⟨?_, ⟨rows, hout, ?_⟩, hcount, hph' _ _⟩
  · rw [hdrain', hc]
    exact hq
  · rw [hdrain', hp]
    exact hrows

/-- A thread that does not drain. -/
theorem working_joined {w : Worker T} (hw : w = .unstarted ∨ w = .done) : working w = .done false := by
  rcases hw with rfl | rfl <;> rfl

end Steps

section Caller

theorem Inv.start (h : Inv l tr) (hc : l.caller = .fresh) :
    Inv { l with running := true, caller := if l.running then .ready else .opening }
      (tr ++ [.silent]) := by
  obtain ⟨q, out, dropped, running, worker, caller⟩ := l
  obtain rfl : caller = .fresh := hc
  obtain ⟨rfl, rfl, hpop⟩ : running = false ∧ worker = .unstarted ∧ _ := h.phase
  exact Inv.silent ⟨h.queue, h.out, h.count, rfl, rfl, hpop⟩

theorem Inv.openFile (h : Inv l tr) (hc : l.caller = .opening) :
    Inv { l with out := [.header], caller := .spawning } (tr ++ [.silent]) := by
  obtain ⟨q, out, dropped, running, worker, caller⟩ := l
  obtain rfl : caller = .opening := hc
  obtain ⟨rfl, rfl, hpop⟩ : running = true ∧ worker = .unstarted ∧ _ := h.phase
  obtain ⟨rows, -, hrows⟩ := h.out
  have hnil : rows = [] := (List.append_eq_nil_iff.1 (hrows.trans hpop)).1
  exact Inv.silent ⟨h.queue, ⟨rows, by rw [hnil]; rfl, hrows⟩, h.count, rfl, rfl, hpop⟩

theorem Inv.spawn (h : Inv l tr) (hc : l.caller = .spawning) :
    Inv { l with worker := .check, caller := .ready } (tr ++ [.silent]) := by
  obtain ⟨q, out, dropped, running, worker, caller⟩ := l
  obtain rfl : caller = .spawning := hc
  obtain ⟨rfl, rfl, -⟩ : running = true ∧ worker = .unstarted ∧ _ := h.phase
  exact Inv.silent ⟨h.queue, h.out, h.count, rfl⟩

theorem Inv.enqueue (h : Inv l tr) (hc : l.caller = .ready) (t : T) :
    Inv { l with caller := .emplace (.called t) } (tr ++ [.called t]) := by
  obtain ⟨q, out, dropped, running, worker, caller⟩ := l
  obtain rfl : caller = .ready := hc
  obtain ⟨hq, ⟨rows, hout, hrows⟩, ⟨n, hn, hcount⟩, hph⟩ := h
  have hq' : SPSCQueue.Inv q (.called t) (consumer (working worker)) _ _ _ :=
    ⟨hq.holds, trivial, hq.pop⟩
  refine Inv.snoc (hq'.silent rfl rfl rfl) ⟨rows, hout, ?_⟩ ⟨n, hn, ?_⟩ hph
  · exact hrows.trans (List.append_nil _).symm
  · change (accepted tr).length + 0 + 1 + n = (called tr).length + 1
    rw [← hcount]
    exact Nat.add_right_comm _ _ _

theorem Inv.emplace (h : Inv l tr) {p' : Emplace T} {q' : SPSCQueue T kCapacity}
    (hc : l.caller = .emplace p) (hs : EmplaceStep l.queue p e q' p') :
    Inv { l with queue := q', caller := afterEmplace e p' } (tr ++ [e]) := by
  obtain ⟨q, out, dropped, running, worker, caller⟩ := l
  obtain rfl : caller = .emplace p := hc
  obtain ⟨hq, ⟨rows, hout, hrows⟩, ⟨n, hn, hcount⟩, hph⟩ := h
  obtain ⟨hp, hu, hpop, hcl, hcases⟩ := afterEmplace_spec hs
  have hq' := hq.emplaceStep hs
  have hdrain : drainer { queue := q', out, dropped, running, worker, caller := afterEmplace e p' } =
      working worker := by
    rcases hcases with h | h | h <;> rw [h] <;> rfl
  have htop : top (afterEmplace e p') = [.header] := by
    rcases hcases with h | h | h <;> rw [h] <;> rfl
  refine Inv.snoc ?_ ⟨rows, ?_, ?_⟩ ⟨n, hn, ?_⟩ ?_
  · simp only [hp, hdrain]
    exact hq'
  · simp only [htop]
    exact hout
  · rw [hdrain, hpop, List.append_nil]
    exact hrows
  · rw [hcl, ← hcount]
    simp only [underway, List.length_nil] at hu ⊢
    omega
  · rcases hcases with h | h | h <;> simp only [h] <;> exact hph

theorem Inv.drop (h : Inv l tr) (hc : l.caller = .dropping) :
    Inv { l with dropped := l.dropped + 1, caller := .ready } (tr ++ [.silent]) := by
  obtain ⟨q, out, dropped, running, worker, caller⟩ := l
  obtain rfl : caller = .dropping := hc
  obtain ⟨n, hn, hcount⟩ := h.count
  refine Inv.silent ⟨h.queue, h.out, ⟨n + 1, ?_, ?_⟩, h.phase⟩
  · rw [← ofNat_succ, ← hn]
  · rw [← hcount]
    simp only [underway]
    omega

theorem Inv.stop (h : Inv l tr) (hc : l.caller = .ready) :
    Inv { l with running := false, caller := if l.running then .joining else .stopped }
      (tr ++ [.silent]) := by
  obtain ⟨q, out, dropped, running, worker, caller⟩ := l
  obtain rfl : caller = .ready := hc
  obtain rfl : running = true := h.phase
  exact Inv.silent ⟨h.queue, h.out, h.count, trivial⟩

theorem Inv.join (h : Inv l tr) (hc : l.caller = .joining)
    (hw : l.worker = .unstarted ∨ l.worker = .done) :
    Inv { l with caller := .draining (.pop .idle false) } (tr ++ [.silent]) := by
  obtain ⟨q, out, dropped, running, worker, caller⟩ := l
  obtain rfl : caller = .joining := hc
  obtain ⟨hq, ⟨rows, hout, hrows⟩, hcount, -⟩ := h
  have hdrain : drainer { queue := q, out, dropped, running, worker, caller := .joining } =
      .done false := working_joined hw
  rw [hdrain] at hq hrows
  exact Inv.silent ⟨hq, ⟨rows, hout, hrows⟩, hcount, hw, by rintro any ⟨⟩⟩

/-- What the drain of the matching thread took last is what was accepted last. -/
theorem Inv.drain (h : Inv l tr) (hc : l.caller = .draining d)
    (hs : DrainStep l.queue.tail.last l d e l' d') :
    Inv { l' with caller := .draining d' } (tr ++ [e]) := by
  obtain ⟨q, out, dropped, running, worker, caller⟩ := l
  obtain rfl : caller = .draining d := hc
  obtain ⟨hq, ⟨rows, hout, hrows⟩, ⟨n, hn, hcount⟩, hph⟩ := h
  obtain ⟨hq', ⟨rows', hout', hrows'⟩, ha, hcl, hdone, hl'⟩ := hs.spec hq hrows
  obtain ⟨q', out', dropped', running', worker', caller'⟩ := l'
  obtain ⟨-, -, rfl, rfl, rfl, rfl⟩ := (mk.injEq ..).mp hl'
  refine Inv.snoc hq' ⟨rows ++ rows', ?_, hrows'⟩ ⟨n, hn, ?_⟩ ⟨hph.1, fun any hd => ?_⟩
  · rw [hout', hout]
    simp [top]
  · rw [ha, hcl]
    exact hcount
  · obtain ⟨hpop, hle⟩ := hdone any hd
    rw [hpop, ha, List.append_nil, List.append_nil]
    rw [hq.holds.tail_last] at hle
    exact hq.holds.isPrefix.eq_of_length_le hle

theorem Inv.close (h : Inv l tr) {any : Bool} (hc : l.caller = .draining (.done any)) :
    Inv { l with caller := .stopped } (tr ++ [.silent]) := by
  obtain ⟨q, out, dropped, running, worker, caller⟩ := l
  obtain rfl : caller = .draining (.done any) := hc
  obtain ⟨hq, ⟨rows, hout, hrows⟩, hcount, hw, hdone⟩ := h
  have hdrain : drainer { queue := q, out, dropped, running, worker, caller := .stopped } =
      .done false := working_joined hw
  refine Inv.silent ⟨?_, ⟨rows, hout, ?_⟩, hcount, hw, hdone any rfl⟩
  · rw [hdrain]
    exact hq
  · rw [hdrain]
    exact hrows

end Caller

section Worker

theorem Inv.check (h : Inv l tr) (hw : l.worker = .check) :
    Inv { l with worker := if l.running then .drain (.pop .idle false) else .done }
      (tr ++ [.silent]) := by
  refine h.setWorker (by rw [hw]; rintro ⟨⟩) (by rw [hw]; rintro ⟨⟩) ?_ ?_ <;> rw [hw] <;>
    cases l.running <;> rfl

/-- The worker drains while the matching thread is between `start` and the end of its `join`. -/
theorem Inv.work (h : Inv l tr) (hw : l.worker = .drain d) (hs : DrainStep 0 l d e l' d') :
    Inv { l' with worker := .drain d' } (tr ++ [e]) := by
  obtain ⟨q, out, dropped, running, worker, caller⟩ := l
  obtain rfl : worker = .drain d := hw
  obtain ⟨hq, ⟨rows, hout, hrows⟩, ⟨n, hn, hcount⟩, hph⟩ := h
  obtain ⟨-, hdrain, hbusy⟩ := Phase.busy hph (by rintro ⟨⟩) (by rintro ⟨⟩)
  rw [hdrain] at hq hrows
  obtain ⟨hq', ⟨rows', hout', hrows'⟩, ha, hcl, -, hl'⟩ := hs.spec hq hrows
  obtain ⟨q', out', dropped', running', worker', caller'⟩ := l'
  obtain ⟨-, -, rfl, rfl, rfl, rfl⟩ := (mk.injEq ..).mp hl'
  obtain ⟨hdrain', hph'⟩ := hbusy ⟨q', out', dropped', running', .drain d', caller'⟩ rfl rfl
  refine Inv.snoc ?_ ⟨rows ++ rows', ?_, ?_⟩ ⟨n, hn, ?_⟩ (hph' _ _)
  · rw [hdrain']
    exact hq'
  · rw [hout', hout]
    simp
  · rw [hdrain']
    exact hrows'
  · rw [ha, hcl]
    exact hcount

theorem Inv.drained (h : Inv l tr) {any : Bool} (hw : l.worker = .drain (.done any)) :
    Inv { l with worker := if any then .check else .sleep } (tr ++ [.silent]) := by
  refine h.setWorker (by rw [hw]; rintro ⟨⟩) (by rw [hw]; rintro ⟨⟩) ?_ ?_ <;> rw [hw] <;>
    cases any <;> rfl

theorem Inv.wake (h : Inv l tr) (hw : l.worker = .sleep) :
    Inv { l with worker := .check } (tr ++ [.silent]) :=
  h.setWorker (by rw [hw]; rintro ⟨⟩) (by rw [hw]; rintro ⟨⟩) (by rw [hw]; rfl) (by rw [hw]; rfl)

end Worker

section Runs

theorem Inv.step (h : Inv l tr) (hs : Step l e l') : Inv l' (tr ++ [e]) := by
  cases hs with
  | start hc => exact h.start hc
  | openFile hc => exact h.openFile hc
  | spawn hc => exact h.spawn hc
  | enqueue t hc => exact h.enqueue hc t
  | emplace hc hs => exact h.emplace hc hs
  | drop hc => exact h.drop hc
  | stop hc => exact h.stop hc
  | join hc hw => exact h.join hc hw
  | drain hc hs => exact h.drain hc hs
  | close hc => exact h.close hc
  | check hw => exact h.check hw
  | work hw hs => exact h.work hw hs
  | drained hw => exact h.drained hw
  | wake hw => exact h.wake hw

theorem trace_inv {buffer : Fin (2 ^ (kCapacity : ℕ)) → T} (h : Trace Step (new buffer) tr l) :
    Inv l tr :=
  h.invariant (I := fun tr l => Inv l tr) (inv_new buffer) Inv.step

end Runs

section Report

variable {buffer : Fin (2 ^ (kCapacity : ℕ)) → T}

/-- When `stop` returns, the rows after the header are the accepted records, in order, nothing is
left in the queue, and the calls without a row are counted, in 64 bits. -/
theorem report_complete (h : Trace Step (new buffer) tr l) (hstop : l.caller = .stopped) :
    l.out = .header :: (accepted tr).map .trade ∧ popped tr = accepted tr ∧
      l.queue.head.value l.queue.head.last = l.queue.tail.value l.queue.tail.last ∧
      ∃ n, (accepted tr).length + n = (called tr).length ∧ l.droppedCount = n % 2 ^ 64 := by
  obtain ⟨hq, ⟨rows, hout, hrows⟩, ⟨n, hn, hcount⟩, hph⟩ := trace_inv h
  have hempty : popped tr = accepted tr := by
    rw [hstop] at hph
    exact hph.2
  have hdrain : pending l.drainer = [] := by
    rw [hstop] at hph
    unfold drainer
    rw [hstop]
    rcases hph.1 with hw | hw <;> rw [hw] <;> rfl
  rw [hdrain, List.append_nil, hempty] at hrows
  rw [hstop, hrows] at hout
  refine ⟨hout, hempty, ?_, n, ?_, ?_⟩
  · rw [hq.holds.head_last, hq.holds.tail_last, hq.holds.head_value _ le_rfl,
      hq.holds.tail_value _ le_rfl, hempty]
  · rw [hstop] at hcount
    exact hcount
  · rw [droppedCount, hn, BitVec.toNat_ofNat]

end Report

section Progress

variable {buffer : Fin (2 ^ (kCapacity : ℕ)) → T}

/-- The matching thread is back at work, and the worker has done nothing. -/
structure Returns (l : AsyncLogger T) (items : List T) (tr : List (Event T)) (l' : AsyncLogger T) :
    Prop where
  trace : Trace Step l tr l'
  caller : l'.caller = .ready
  worker : l'.worker = l.worker
  called : called tr = items
  popped : popped tr = []

/-- The matching thread writes the slot and publishes it. -/
theorem write_returns {l₀ : AsyncLogger T} {items : List T} {item : T} {tail : BitVec 64}
    (h : Trace Step l₀ tr l) (hc : l.caller = .emplace (.write item tail))
    (hw : l.worker = l₀.worker) (hcalled : called tr = items) (hpopped : popped tr = []) :
    ∃ tr' l', Returns l₀ items tr' l' := by
  have h1 := h.step (Step.emplace hc (.write item))
  have h2 := h1.step (Step.emplace (p := .writing item tail) rfl .writing)
  have h3 := h2.step (Step.emplace (p := .store item tail) rfl .store)
  refine ⟨_, _, h3, rfl, hw, ?_, ?_⟩
  · simpa [called_append, called] using hcalled
  · simpa [popped_append, popped] using hpopped

/-- A call of `enqueue_trade` can return without the worker. -/
theorem enqueue_returns (h : Inv l tr) (hc : l.caller = .ready) (t : T) :
    ∃ tr' l', Returns l [t] tr' l' := by
  have hcall := Trace.start.step (Step.enqueue t hc)
  by_cases hfull : l.queue.Full l.queue.tailCached
  · have hload := hcall.step (.emplace (p := .called t) rfl (.calledFull hfull))
    have hseen : l.queue.head.Loads l.queue.headSeen l.queue.head.last :=
      ⟨h.queue.holds.head_last ▸ h.queue.holds.headSeen_le, le_rfl⟩
    by_cases hfull' : (l.queue.loadHead l.queue.head.last).Full l.queue.tailCached
    · have hdrop := hload.step (.emplace (p := .load t _) rfl (.loadFull _ hseen hfull'))
      exact ⟨_, _, hdrop.step (.drop rfl), rfl, rfl, rfl, rfl⟩
    · have hwrite := hload.step (.emplace (p := .load t _) rfl (.load _ hseen hfull'))
      exact write_returns hwrite rfl rfl rfl rfl
  · have hwrite := hcall.step (.emplace (p := .called t) rfl (.called hfull))
    exact write_returns hwrite rfl rfl rfl rfl

/-- So can any number of calls. -/
theorem enqueues_return : ∀ (items : List T) {l : AsyncLogger T} {tr : List (Event T)},
    Trace Step (new buffer) tr l → l.caller = .ready → ∃ tr' l', Returns l items tr' l'
  | [], l, tr, _, hc => ⟨[], l, .start, hc, rfl, rfl, rfl⟩
  | t :: items, l, tr, h, hc => by
    obtain ⟨tr1, l1, h1⟩ := enqueue_returns (trace_inv h) hc t
    obtain ⟨tr2, l2, h2⟩ := enqueues_return items (h.trans h1.trace) h1.caller
    refine ⟨tr1 ++ tr2, l2, h1.trace.trans h2.trace, h2.caller, h2.worker.trans h1.worker, ?_, ?_⟩
    · rw [called_append, h1.called, h2.called, List.singleton_append]
    · rw [popped_append, h1.popped, h2.popped, List.append_nil]

/-- A drain of the matching thread reads an item and writes its row. -/
theorem read_returns {l₀ : AsyncLogger T} {head : BitVec 64} {any : Bool} (h : Trace Step l₀ tr l)
    (hc : l.caller = .draining (.pop (.read head) any)) : ∃ item l',
      Trace Step l₀ (tr ++ [.took item] ++ [.popped item] ++ [.silent]) l' ∧
        l'.caller = .draining (.pop .idle true) := by
  have h1 := h.step (.drain hc (.pop .read))
  have h2 := h1.step (.drain (d := .pop (.store _ _) any) rfl (.pop .store))
  have h3 := h2.step (.drain (d := .row _) rfl .row)
  exact ⟨_, _, h3, rfl⟩

/-- The drain of the matching thread ends, and `stop` returns. -/
theorem drain_returns : ∀ (n : ℕ) {tr : List (Event T)} {l : AsyncLogger T} {any : Bool},
    Trace Step (new buffer) tr l → l.caller = .draining (.pop .idle any) →
    (accepted tr).length < (popped tr).length + n → ∃ tr' l', Trace Step (new buffer) tr' l' ∧
      l'.caller = .stopped ∧ called tr' = called tr ∧ accepted tr' = accepted tr
  | 0, tr, l, any, h, _, hn => absurd (trace_inv h).queue.holds.isPrefix.length_le (by omega)
  | n + 1, tr, l, any, h, hc, hn => by
    -- an item that is read leaves fewer of them
    have hround : ∀ {tr₁ l₁ head}, Trace Step (new buffer) tr₁ l₁ →
        l₁.caller = .draining (.pop (.read head) any) → called tr₁ = called tr →
        accepted tr₁ = accepted tr → popped tr₁ = popped tr → ∃ tr' l',
          Trace Step (new buffer) tr' l' ∧ l'.caller = .stopped ∧ called tr' = called tr ∧
            accepted tr' = accepted tr := by
      intro tr₁ l₁ head h₁ hc₁ hcalled hacc hpop
      obtain ⟨item, l₂, h₂, hc₂⟩ := read_returns h₁ hc₁
      have hcalled₂ : called (tr₁ ++ [.took item] ++ [.popped item] ++ [.silent]) = called tr := by
        simpa [called_append, called] using hcalled
      have hacc₂ : accepted (tr₁ ++ [.took item] ++ [.popped item] ++ [.silent]) = accepted tr := by
        simpa [accepted_append, accepted] using hacc
      have hpop₂ : (popped (tr₁ ++ [.took item] ++ [.popped item] ++ [.silent])).length =
          (popped tr).length + 1 := by
        rw [popped_append, popped_append, popped_append, hpop]
        simp [popped]
      obtain ⟨tr', l', h', hs, hcl, ha⟩ := drain_returns n h₂ hc₂ (by rw [hacc₂, hpop₂]; omega)
      exact ⟨tr', l', h', hs, hcl.trans hcalled₂, ha.trans hacc₂⟩
    by_cases heq : l.queue.headCachedConsumer = l.queue.tailCachedConsumer
    · have h1 := h.step (.drain hc (.pop (.calledEmpty heq)))
      have hq := (trace_inv h).queue.holds
      have hseen : l.queue.tail.Loads l.queue.tailSeen l.queue.tail.last :=
        ⟨hq.tail_last ▸ hq.tailSeen_le, le_rfl⟩
      by_cases hlast : l.queue.headCachedConsumer = l.queue.tail.value l.queue.tail.last
      · have h2 := h1.step (.drain (d := .pop (.load _) any) rfl
          (.pop (.loadEmpty _ hseen le_rfl hlast)))
        have h3 := h2.step (.close rfl)
        refine ⟨_, _, h3, rfl, ?_, ?_⟩
        · simp [called]
        · simp [accepted]
      · have h2 := h1.step (.drain (d := .pop (.load _) any) rfl
          (.pop (.load _ hseen le_rfl hlast)))
        exact hround h2 rfl (by simp [called]) (by simp [accepted]) (by simp [popped])
    · have h1 := h.step (.drain hc (.pop (.called heq)))
      exact hround h1 rfl (by simp [called]) (by simp [accepted]) (by simp [popped])

/-- There is a run that makes the calls and does not let the worker drain. -/
theorem exists_report (buffer : Fin (2 ^ (kCapacity : ℕ)) → T) (items : List T) :
    ∃ tr l, Trace Step (new buffer) tr l ∧ l.caller = .stopped ∧ called tr = items ∧
      (accepted tr).length ≤ 2 ^ (kCapacity : ℕ) := by
  have h0 : Trace Step (new buffer) [.silent, .silent, .silent]
      { new buffer with running := true, out := [.header], worker := .check, caller := .ready } :=
    Trace.start.step (.start rfl) |>.step (.openFile rfl) |>.step (.spawn rfl)
  obtain ⟨tr, l, hl⟩ := enqueues_return items h0 rfl
  have h := h0.trans hl.trace
  have hcalled : called ([.silent, .silent, .silent] ++ tr) = items := hl.called
  have hpopped : popped ([.silent, .silent, .silent] ++ tr) = [] := hl.popped
  generalize [.silent, .silent, .silent] ++ tr = tr₁ at h hcalled hpopped
  have hq := (trace_inv h).queue.holds
  have hroom : (accepted tr₁).length ≤ 2 ^ (kCapacity : ℕ) := by
    have hseen := hq.headSeen_le
    rw [hpopped, List.length_nil] at hseen
    have := hq.room
    omega
  have hrun : l.running = true := by
    have hph := (trace_inv h).phase
    rw [hl.caller] at hph
    exact hph
  have h1 := h.step (.stop hl.caller)
  rw [hrun] at h1
  have h2 := h1.step (.check hl.worker)
  have h3 := h2.step (.join rfl (.inr rfl))
  obtain ⟨tr', l', h', hs, hc, ha⟩ := drain_returns ((accepted tr₁).length + 1) h3 rfl
    (by simp [accepted, popped]; omega)
  refine ⟨tr', l', h', hs, ?_, ?_⟩
  · rw [hc, ← hcalled]
    simp [called]
  · rw [ha]
    simpa [accepted] using hroom

end Progress

section Examples

/-- The matching thread enqueues two records and stops before the worker looks. -/
theorem report_complete_two : ∃ tr, ∃ l : AsyncLogger ℕ, Trace Step (new fun _ => 0) tr l ∧
    l.caller = .stopped ∧ called tr = [7, 8] ∧ l.out = .header :: (accepted tr).map .trade ∧
      ∃ n, (accepted tr).length + n = 2 ∧ l.droppedCount = n % 2 ^ 64 := by
  obtain ⟨tr, l, h, hs, hcalled, -⟩ := exists_report (fun _ => 0) [7, 8]
  obtain ⟨hout, -, -, hcount⟩ := report_complete h hs
  rw [hcalled] at hcount
  exact ⟨tr, l, h, hs, hcalled, hout, hcount⟩

/-- The count of the dropped records wraps: after a full queue has dropped 2^64 of them it is zero
again. -/
theorem not_forall_report_counted : ¬ ∀ (buffer : Fin (2 ^ (kCapacity : ℕ)) → ℕ)
    (tr : List (Event ℕ)) (l : AsyncLogger ℕ), Trace Step (new buffer) tr l → l.caller = .stopped →
      l.out = .header :: (accepted tr).map .trade ∧ popped tr = accepted tr ∧
        (accepted tr).length + l.droppedCount = (called tr).length := by
  intro hall
  obtain ⟨tr, l, h, hs, hcalled, hroom⟩ :=
    exists_report (fun _ => 0) (List.replicate (2 ^ 64 + 2 ^ (kCapacity : ℕ)) 0)
  obtain ⟨-, -, hcount⟩ := hall _ tr l h hs
  have hlt : l.droppedCount < 2 ^ 64 := l.dropped.isLt
  rw [hcalled, List.length_replicate] at hcount
  omega

end Examples

end AsyncLogger

end Nanomatch
