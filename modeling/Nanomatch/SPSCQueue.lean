import Mathlib.Algebra.Order.Ring.Nat
import Nanomatch.Lib.Interleaving

/-!
# The single-producer single-consumer queue

`SPSCQueue.hpp`, as two threads: the one that calls `emplace` and the one that calls `pop`. A call
goes on by the reads and writes of what both threads share, and what a thread does with its own
variables belongs to the step before or after. Writing a slot takes two steps, and in between the
slot may hold anything.

The capacity is `2 ^ k`; the indices are 64 bits wide, run freely and wrap.
-/

namespace Nanomatch

variable {T : Type} {k : Fin 64}

def Capacity (k : Fin 64) : BitVec 64 := BitVec.twoPow 64 k

theorem mask_lt (k : Fin 64) (i : BitVec 64) : (i &&& (Capacity k - 1)).toNat < 2 ^ (k : ℕ) := by
  have hpos : 0 < 2 ^ (k : ℕ) := Nat.two_pow_pos k
  have hlt : 2 ^ (k : ℕ) < 2 ^ 64 := Nat.pow_lt_pow_right (by omega) k.2
  have hmask : (Capacity k - 1).toNat = 2 ^ (k : ℕ) - 1 := by
    have hcap : (Capacity k).toNat = 2 ^ (k : ℕ) := by
      rw [Capacity, BitVec.toNat_twoPow, Nat.mod_eq_of_lt hlt]
    rw [BitVec.toNat_sub_of_le (by rw [BitVec.le_def, hcap]; exact hpos), hcap]
    rfl
  have hle : (i &&& (Capacity k - 1)).toNat ≤ (Capacity k - 1).toNat := by
    rw [BitVec.toNat_and]
    exact Nat.and_le_right
  omega

/-- `i & (Capacity - 1)` -/
def slot (k : Fin 64) (i : BitVec 64) : Fin (2 ^ (k : ℕ)) :=
  ⟨(i &&& (Capacity k - 1)).toNat, mask_lt k i⟩

structure SPSCQueue (T : Type) (k : Fin 64) where
  head : Atomic (BitVec 64) := .init 0
  tail : Atomic (BitVec 64) := .init 0
  headCached : BitVec 64 := 0
  tailCached : BitVec 64 := 0
  tailCachedConsumer : BitVec 64 := 0
  headCachedConsumer : BitVec 64 := 0
  buffer : Fin (2 ^ (k : ℕ)) → T
  /-- The value of `head` that the producer has seen. -/
  headSeen : ℕ := 0
  /-- The value of `tail` that the consumer has seen. -/
  tailSeen : ℕ := 0

/-- Where the producer is in `emplace(item)`, with the local variable `tail`. -/
inductive Emplace (T : Type)
  | idle
  | called (item : T)
  | load (item : T) (tail : BitVec 64)
  | write (item : T) (tail : BitVec 64)
  | writing (item : T) (tail : BitVec 64)
  | store (item : T) (tail : BitVec 64)

/-- Where the consumer is in `pop`, with the local variable `head` and the item that it has read. -/
inductive Pop (T : Type)
  | idle
  | load (head : BitVec 64)
  | read (head : BitVec 64)
  | store (item : T) (head : BitVec 64)

namespace SPSCQueue

/-- What a step shows. The calls that return false show the index that they loaded. -/
inductive Event (T : Type)
  | silent
  | called (item : T)
  | accepted (item : T)
  | refused (loaded : BitVec 64)
  | took (item : T)
  | popped (item : T)
  | nothing (loaded : BitVec 64)

/-- `(tail - head_cached_) >= Capacity` -/
def Full (q : SPSCQueue T k) (tail : BitVec 64) : Prop := Capacity k ≤ tail - q.headCached

instance (q : SPSCQueue T k) (tail : BitVec 64) : Decidable (q.Full tail) :=
  inferInstanceAs (Decidable (_ ≤ _))

def loadHead (q : SPSCQueue T k) (i : ℕ) : SPSCQueue T k :=
  { q with headCached := q.head.value i, headSeen := i }

def loadTail (q : SPSCQueue T k) (i : ℕ) : SPSCQueue T k :=
  { q with tailCachedConsumer := q.tail.value i, tailSeen := i }

def writeSlot (q : SPSCQueue T k) (i : BitVec 64) (item : T) : SPSCQueue T k :=
  { q with buffer := Function.update q.buffer (slot k i) item }

def storeTail (q : SPSCQueue T k) (tail : BitVec 64) : SPSCQueue T k :=
  { q with tail := q.tail.store tail, tailCached := tail }

def storeHead (q : SPSCQueue T k) (head : BitVec 64) : SPSCQueue T k :=
  { q with head := q.head.store head, headCachedConsumer := head }

inductive EmplaceStep : SPSCQueue T k → Emplace T → Event T → SPSCQueue T k → Emplace T → Prop
  | called {q item} : ¬ q.Full q.tailCached →
      EmplaceStep q (.called item) .silent q (.write item q.tailCached)
  | calledFull {q item} : q.Full q.tailCached →
      EmplaceStep q (.called item) .silent q (.load item q.tailCached)
  | load {q item tail} (i : ℕ) : q.head.Loads q.headSeen i → ¬ (q.loadHead i).Full tail →
      EmplaceStep q (.load item tail) .silent (q.loadHead i) (.write item tail)
  | loadFull {q item tail} (i : ℕ) : q.head.Loads q.headSeen i → (q.loadHead i).Full tail →
      EmplaceStep q (.load item tail) (.refused (q.head.value i)) (q.loadHead i) .idle
  | write {q item tail} (junk : T) :
      EmplaceStep q (.write item tail) .silent (q.writeSlot tail junk) (.writing item tail)
  | writing {q item tail} :
      EmplaceStep q (.writing item tail) .silent (q.writeSlot tail item) (.store item tail)
  | store {q item tail} :
      EmplaceStep q (.store item tail) (.accepted item) (q.storeTail (tail + 1)) .idle

/-- The consumer's thread has itself seen the value of `tail` at `own`. -/
inductive PopStep (own : ℕ) : SPSCQueue T k → Pop T → Event T → SPSCQueue T k → Pop T → Prop
  | called {q} : q.headCachedConsumer ≠ q.tailCachedConsumer →
      PopStep own q .idle .silent q (.read q.headCachedConsumer)
  | calledEmpty {q} : q.headCachedConsumer = q.tailCachedConsumer →
      PopStep own q .idle .silent q (.load q.headCachedConsumer)
  | load {q head} (i : ℕ) : q.tail.Loads q.tailSeen i → own ≤ i → head ≠ q.tail.value i →
      PopStep own q (.load head) .silent (q.loadTail i) (.read head)
  | loadEmpty {q head} (i : ℕ) : q.tail.Loads q.tailSeen i → own ≤ i → head = q.tail.value i →
      PopStep own q (.load head) (.nothing (q.tail.value i)) (q.loadTail i) .idle
  | read {q head} : PopStep own q (.read head) (.took (q.buffer (slot k head))) q
      (.store (q.buffer (slot k head)) head)
  | store {q item head} :
      PopStep own q (.store item head) (.popped item) (q.storeHead (head + 1)) .idle

/-- The queue and its two threads. -/
structure Threads (T : Type) (k : Fin 64) where
  queue : SPSCQueue T k
  producer : Emplace T := .idle
  consumer : Pop T := .idle

/-- A new queue, whose slots hold `buffer`. -/
def Threads.new (buffer : Fin (2 ^ (k : ℕ)) → T) : Threads T k where
  queue := { buffer }

/-- Either thread takes its next step, and the producer may call with any item. -/
inductive Threads.Step : Threads T k → Event T → Threads T k → Prop
  | call {s} (item : T) : s.producer = .idle →
      Step s (.called item) { s with producer := .called item }
  | producer {s e q p} : EmplaceStep s.queue s.producer e q p →
      Step s e { s with queue := q, producer := p }
  | consumer {s e q p} : PopStep 0 s.queue s.consumer e q p →
      Step s e { s with queue := q, consumer := p }

section Events

/-- The items that `emplace` was called with, first to last. -/
def called (tr : List (Event T)) : List T :=
  tr.filterMap fun | .called item => some item | _ => none

/-- The items whose `emplace` returned true. -/
def accepted (tr : List (Event T)) : List T :=
  tr.filterMap fun | .accepted item => some item | _ => none

/-- The items that `pop` has read from the buffer. -/
def took (tr : List (Event T)) : List T :=
  tr.filterMap fun | .took item => some item | _ => none

/-- The items that `pop` has returned. -/
def popped (tr : List (Event T)) : List T :=
  tr.filterMap fun | .popped item => some item | _ => none

end Events

section Accesses

/-- The slot that the producer is about to write or is writing. -/
def writes (k : Fin 64) : Emplace T → Option (Fin (2 ^ (k : ℕ)))
  | .write _ tail => some (slot k tail)
  | .writing _ tail => some (slot k tail)
  | _ => none

/-- The slot that the consumer is about to read. -/
def reads (k : Fin 64) : Pop T → Option (Fin (2 ^ (k : ℕ)))
  | .read head => some (slot k head)
  | _ => none

end Accesses

end SPSCQueue

end Nanomatch
