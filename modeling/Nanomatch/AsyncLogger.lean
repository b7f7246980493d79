import Nanomatch.SPSCQueue

/-!
# The trade report

`AsyncLogger.hpp`, as the two threads that run it. The matching thread calls `start`, then
`enqueue_trade` any number of times, then `stop`; the worker thread executes `run` from `start` on.
After `stop` has joined the worker it drains the queue itself, so it consumes what it has produced
and sees its own latest index.

The flag is one shared variable, files are written at once, and a record is anything.
-/

namespace Nanomatch

open SPSCQueue

variable {T : Type}

/-- `kCapacity = 1u << 22` -/
def kCapacity : Fin 64 := 22

/-- A line of the report. -/
inductive Row (T : Type)
  | header
  | trade (t : T)

/-- Where a thread is in `drain`, with the local variable `any`. -/
inductive Drain (T : Type)
  | pop (c : Pop T) (any : Bool)
  | row (t : T)
  | done (any : Bool)

/-- Where the worker is in `run`. -/
inductive Worker (T : Type)
  | unstarted
  | check
  | drain (d : Drain T)
  | sleep
  | done

/-- Where the matching thread is: before, in or between its calls, or after them. -/
inductive Caller (T : Type)
  | fresh
  | opening
  | spawning
  | ready
  | emplace (p : Emplace T)
  | dropping
  | joining
  | draining (d : Drain T)
  | stopped

structure AsyncLogger (T : Type) where
  queue : SPSCQueue T kCapacity
  out : List (Row T) := []
  dropped : BitVec 64 := 0
  running : Bool := false
  worker : Worker T := .unstarted
  caller : Caller T := .fresh

namespace AsyncLogger

/-- A new logger, whose queue's slots hold `buffer`. -/
def new (buffer : Fin (2 ^ (kCapacity : ℕ)) → T) : AsyncLogger T where
  queue := { buffer }

/-- `drain` goes on after a step of `pop`. -/
def afterPop (any : Bool) : Event T → Pop T → Drain T
  | .popped t, _ => .row t
  | .nothing _, _ => .done any
  | _, c => .pop c any

/-- `enqueue_trade` goes on after a step of `emplace`. -/
def afterEmplace : Event T → Emplace T → Caller T
  | .accepted _, _ => .ready
  | .refused _, _ => .dropping
  | _, p => .emplace p

/-- `while (queue_.pop(t)) { out_ << t; any = true; }` in a thread that has itself seen the value of
the queue's `tail` at `own`. -/
inductive DrainStep (own : ℕ) : AsyncLogger T → Drain T → Event T → AsyncLogger T → Drain T → Prop
  | pop {l c any e q c'} : PopStep own l.queue c e q c' →
      DrainStep own l (.pop c any) e { l with queue := q } (afterPop any e c')
  | row {l t} :
      DrainStep own l (.row t) .silent { l with out := l.out ++ [.trade t] } (.pop .idle true)

inductive Step : AsyncLogger T → Event T → AsyncLogger T → Prop
  /-- `start`: `if (running_.exchange(true)) return` -/
  | start {l} : l.caller = .fresh → Step l .silent
      { l with running := true, caller := if l.running then .ready else .opening }
  | openFile {l} : l.caller = .opening → Step l .silent
      { l with out := [.header], caller := .spawning }
  | spawn {l} : l.caller = .spawning → Step l .silent
      { l with worker := .check, caller := .ready }
  | enqueue {l} (t : T) : l.caller = .ready → Step l (.called t)
      { l with caller := .emplace (.called t) }
  | emplace {l p e q p'} : l.caller = .emplace p → EmplaceStep l.queue p e q p' → Step l e
      { l with queue := q, caller := afterEmplace e p' }
  | drop {l} : l.caller = .dropping → Step l .silent
      { l with dropped := l.dropped + 1, caller := .ready }
  /-- `stop`: `if (!running_.exchange(false)) return` -/
  | stop {l} : l.caller = .ready → Step l .silent
      { l with running := false, caller := if l.running then .joining else .stopped }
  /-- `if (worker_.joinable()) worker_.join()` -/
  | join {l} : l.caller = .joining → l.worker = .unstarted ∨ l.worker = .done → Step l .silent
      { l with caller := .draining (.pop .idle false) }
  | drain {l d e l' d'} : l.caller = .draining d → DrainStep l.queue.tail.last l d e l' d' →
      Step l e { l' with caller := .draining d' }
  | close {l any} : l.caller = .draining (.done any) → Step l .silent { l with caller := .stopped }
  /-- The worker's loop: `while (running_.load())` -/
  | check {l} : l.worker = .check → Step l .silent
      { l with worker := if l.running then .drain (.pop .idle false) else .done }
  | work {l d e l' d'} : l.worker = .drain d → DrainStep 0 l d e l' d' →
      Step l e { l' with worker := .drain d' }
  | drained {l any} : l.worker = .drain (.done any) → Step l .silent
      { l with worker := if any then .check else .sleep }
  | wake {l} : l.worker = .sleep → Step l .silent { l with worker := .check }

/-- `dropped_count()` -/
def droppedCount (l : AsyncLogger T) : ℕ := l.dropped.toNat

end AsyncLogger

end Nanomatch
