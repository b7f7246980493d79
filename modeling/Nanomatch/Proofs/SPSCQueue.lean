import Mathlib.Data.Nat.ModEq
import Nanomatch.SPSCQueue

/-!
# The queue loses and overwrites nothing

An index of the queue counts the items that passed it, modulo `2^64`. No side's view of the other's
index is ahead of it, so the producer sees at least the items that are outstanding and the consumer
at most those, and a slot holds its item until the consumer has read it.
-/

namespace Nanomatch

namespace SPSCQueue

variable {T : Type} {k : Fin 64} {q q' : SPSCQueue T k} {m n i : ℕ} {e : Event T} {p p' : Emplace T}
  {c c' : Pop T} {acc tk pop : List T} {own : ℕ}

section Indices

theorem capacity_lt (k : Fin 64) : 2 ^ (k : ℕ) < 2 ^ 64 := Nat.pow_lt_pow_right (by omega) k.2

theorem toNat_capacity (k : Fin 64) : (Capacity k).toNat = 2 ^ (k : ℕ) := by
  rw [Capacity, BitVec.toNat_twoPow, Nat.mod_eq_of_lt (capacity_lt k)]

theorem ofNat_succ (n : ℕ) : BitVec.ofNat 64 n + 1 = BitVec.ofNat 64 (n + 1) :=
  (BitVec.ofNat_add n 1).symm

/-- Two counts that are less than `2^64` apart are told apart by their indices. -/
theorem ofNat_inj (h : m ≤ n) (hlt : n < m + 2 ^ 64) :
    BitVec.ofNat 64 m = BitVec.ofNat 64 n ↔ m = n := by
  rw [← BitVec.toNat_inj, BitVec.toNat_ofNat, BitVec.toNat_ofNat]
  constructor
  · intro he
    omega
  · rintro rfl
    rfl

theorem toNat_sub_ofNat (h : m ≤ n) (hlt : n < m + 2 ^ 64) :
    (BitVec.ofNat 64 n - BitVec.ofNat 64 m).toNat = n - m := by
  rw [BitVec.toNat_sub, BitVec.toNat_ofNat, BitVec.toNat_ofNat]
  omega

theorem slot_ofNat (k : Fin 64) (n : ℕ) : (slot k (BitVec.ofNat 64 n) : ℕ) = n % 2 ^ (k : ℕ) := by
  have hmask : (Capacity k - 1).toNat = 2 ^ (k : ℕ) - 1 := by
    have hpos := Nat.two_pow_pos (k : ℕ)
    rw [BitVec.toNat_sub_of_le (by rw [BitVec.le_def, toNat_capacity]; exact hpos), toNat_capacity]
    rfl
  have hdvd : 2 ^ (k : ℕ) ∣ 2 ^ 64 := Nat.pow_dvd_pow 2 (Nat.le_of_lt k.2)
  simp only [slot]
  rw [BitVec.toNat_and, hmask, Nat.and_two_pow_sub_one_eq_mod, BitVec.toNat_ofNat,
    Nat.mod_mod_of_dvd n hdvd]

/-- Items less than a capacity apart are in different slots. -/
theorem slot_ne (h : m < n) (hlt : n < m + 2 ^ (k : ℕ)) :
    slot k (BitVec.ofNat 64 n) ≠ slot k (BitVec.ofNat 64 m) := by
  intro he
  have hmod := congrArg Fin.val he
  rw [slot_ofNat, slot_ofNat] at hmod
  obtain ⟨d, hd⟩ : 2 ^ (k : ℕ) ∣ n - m := (Nat.modEq_iff_dvd' h.le).1 hmod.symm
  rcases d with _ | d
  · omega
  · rw [Nat.mul_succ] at hd
    omega

end Indices

section Invariant

/-- The queue after the items `acc` were accepted and the first of them, `pop`, returned. -/
structure Holds (q : SPSCQueue T k) (acc pop : List T) : Prop where
  tail_last : q.tail.last = acc.length
  tail_value : ∀ n ≤ acc.length, q.tail.value n = BitVec.ofNat 64 n
  tailCached : q.tailCached = BitVec.ofNat 64 acc.length
  head_last : q.head.last = pop.length
  head_value : ∀ n ≤ pop.length, q.head.value n = BitVec.ofNat 64 n
  headCachedConsumer : q.headCachedConsumer = BitVec.ofNat 64 pop.length
  headCached : q.headCached = BitVec.ofNat 64 q.headSeen
  tailCachedConsumer : q.tailCachedConsumer = BitVec.ofNat 64 q.tailSeen
  headSeen_le : q.headSeen ≤ pop.length
  room : acc.length ≤ q.headSeen + 2 ^ (k : ℕ)
  le_tailSeen : pop.length ≤ q.tailSeen
  tailSeen_le : q.tailSeen ≤ acc.length
  isPrefix : pop <+: acc
  /-- A slot holds its item until the consumer has moved on. -/
  kept : ∀ n item, pop.length ≤ n → acc[n]? = some item →
    q.buffer (slot k (BitVec.ofNat 64 n)) = item

/-- The producer's local variables. -/
def EmplaceOk (q : SPSCQueue T k) (acc : List T) : Emplace T → Prop
  | .idle => True
  | .called _ => True
  | .load _ tail => tail = BitVec.ofNat 64 acc.length
  | .write _ tail => tail = BitVec.ofNat 64 acc.length ∧ acc.length < q.headSeen + 2 ^ (k : ℕ)
  | .writing _ tail => tail = BitVec.ofNat 64 acc.length ∧ acc.length < q.headSeen + 2 ^ (k : ℕ)
  | .store item tail => tail = BitVec.ofNat 64 acc.length ∧
    acc.length < q.headSeen + 2 ^ (k : ℕ) ∧ q.buffer (slot k tail) = item

/-- The consumer's local variables, with the items `tk` that it has read. -/
def PopOk (q : SPSCQueue T k) (acc tk pop : List T) : Pop T → Prop
  | .idle => tk = pop
  | .load head => head = BitVec.ofNat 64 pop.length ∧ tk = pop
  | .read head => head = BitVec.ofNat 64 pop.length ∧ pop.length < q.tailSeen ∧ tk = pop
  | .store item head => head = BitVec.ofNat 64 pop.length ∧ acc[pop.length]? = some item ∧
    pop.length < q.tailSeen ∧ tk = pop ++ [item]

/-- The queue with both its threads, and what they have done. -/
structure Inv (q : SPSCQueue T k) (p : Emplace T) (c : Pop T) (acc tk pop : List T) : Prop where
  holds : q.Holds acc pop
  emplace : q.EmplaceOk acc p
  pop : q.PopOk acc tk pop c

theorem Holds.full_iff (h : q.Holds acc pop) :
    q.Full (BitVec.ofNat 64 acc.length) ↔ acc.length = q.headSeen + 2 ^ (k : ℕ) := by
  have hle := h.headSeen_le
  have hpre := h.isPrefix.length_le
  have hroom := h.room
  have hcap := capacity_lt k
  rw [Full, h.headCached, BitVec.le_def, toNat_capacity, toNat_sub_ofNat (by omega) (by omega)]
  omega

/-- The head index that the producer loads is one it has not seen to be behind. -/
theorem Holds.loadHead (h : q.Holds acc pop) (hi : q.head.Loads q.headSeen i) :
    (q.loadHead i).Holds acc pop :=
  { h with
    headCached := h.head_value i (h.head_last ▸ hi.2)
    headSeen_le := h.head_last ▸ hi.2
    room := h.room.trans (Nat.add_le_add_right hi.1 _) }

theorem Holds.loadTail (h : q.Holds acc pop) (hi : q.tail.Loads q.tailSeen i) :
    (q.loadTail i).Holds acc pop :=
  { h with
    tailCachedConsumer := h.tail_value i (h.tail_last ▸ hi.2)
    le_tailSeen := h.le_tailSeen.trans hi.1
    tailSeen_le := h.tail_last ▸ hi.2 }

/-- The slot of the next item is no other item's. -/
theorem Holds.writeSlot (h : q.Holds acc pop) (hroom : acc.length < q.headSeen + 2 ^ (k : ℕ))
    (item : T) : (q.writeSlot (BitVec.ofNat 64 acc.length) item).Holds acc pop :=
  { h with
    kept := fun n x hn hx => by
      have hlt : n < acc.length := (List.getElem?_eq_some_iff.1 hx).1
      have hle := h.headSeen_le
      have hne := slot_ne (k := k) hlt (by omega)
      simp only [SPSCQueue.writeSlot]
      rw [Function.update_of_ne hne.symm]
      exact h.kept n x hn hx }

theorem Holds.storeTail (h : q.Holds acc pop) (hroom : acc.length < q.headSeen + 2 ^ (k : ℕ))
    {item : T} (hitem : q.buffer (slot k (BitVec.ofNat 64 acc.length)) = item) :
    (q.storeTail (BitVec.ofNat 64 acc.length + 1)).Holds (acc ++ [item]) pop where
  tail_last := by simp [SPSCQueue.storeTail, h.tail_last]
  tail_value n hn := by
    rw [List.length_append, List.length_singleton] at hn
    simp only [SPSCQueue.storeTail]
    rcases Nat.lt_or_eq_of_le hn with hlt | rfl
    · rw [Atomic.store_value_of_le (by rw [h.tail_last]; omega)]
      exact h.tail_value n (by omega)
    · rw [← h.tail_last, Atomic.store_value_last, h.tail_last, ofNat_succ]
  tailCached := by
    rw [List.length_append, List.length_singleton, ← ofNat_succ]
    rfl
  head_last := h.head_last
  head_value := h.head_value
  headCachedConsumer := h.headCachedConsumer
  headCached := h.headCached
  tailCachedConsumer := h.tailCachedConsumer
  headSeen_le := h.headSeen_le
  room := by
    rw [List.length_append, List.length_singleton]
    exact hroom
  le_tailSeen := h.le_tailSeen
  tailSeen_le := by
    rw [List.length_append]
    exact h.tailSeen_le.trans (Nat.le_add_right _ _)
  isPrefix := h.isPrefix.trans (List.prefix_append _ _)
  kept n x hn hx := by
    rcases Nat.lt_or_ge n acc.length with hlt | hge
    · rw [List.getElem?_append_left hlt] at hx
      exact h.kept n x hn hx
    · rw [List.getElem?_append_right hge] at hx
      have hlt : n - acc.length < 1 := (List.getElem?_eq_some_iff.1 hx).1
      obtain rfl : n = acc.length := by omega
      rw [Nat.sub_self, List.getElem?_cons_zero] at hx
      exact hitem.trans (Option.some.inj hx)

theorem Holds.storeHead (h : q.Holds acc pop) (hseen : pop.length < q.tailSeen) {item : T}
    (hitem : acc[pop.length]? = some item) :
    (q.storeHead (BitVec.ofNat 64 pop.length + 1)).Holds acc (pop ++ [item]) where
  tail_last := h.tail_last
  tail_value := h.tail_value
  tailCached := h.tailCached
  head_last := by simp [SPSCQueue.storeHead, h.head_last]
  head_value n hn := by
    rw [List.length_append, List.length_singleton] at hn
    simp only [SPSCQueue.storeHead]
    rcases Nat.lt_or_eq_of_le hn with hlt | rfl
    · rw [Atomic.store_value_of_le (by rw [h.head_last]; omega)]
      exact h.head_value n (by omega)
    · rw [← h.head_last, Atomic.store_value_last, h.head_last, ofNat_succ]
  headCachedConsumer := by
    rw [List.length_append, List.length_singleton, ← ofNat_succ]
    rfl
  headCached := h.headCached
  tailCachedConsumer := h.tailCachedConsumer
  headSeen_le := by
    rw [List.length_append]
    exact h.headSeen_le.trans (Nat.le_add_right _ _)
  room := h.room
  le_tailSeen := by
    rw [List.length_append, List.length_singleton]
    exact hseen
  tailSeen_le := h.tailSeen_le
  isPrefix := by
    obtain ⟨hlt, rfl⟩ := List.getElem?_eq_some_iff.1 hitem
    obtain ⟨l, rfl⟩ := h.isPrefix
    rcases l with _ | ⟨x, l⟩
    · simp at hlt
    · simp
  kept n x hn hx := by
    rw [List.length_append, List.length_singleton] at hn
    exact h.kept n x (by omega) hx

end Invariant

section Steps

theorem PopOk.append (h : q.PopOk acc tk pop c) (l : List T) :
    q.PopOk (acc ++ l) tk pop c := by
  rcases c with _ | _ | _ | ⟨item, head⟩
  · exact h
  · exact h
  · exact h
  · obtain ⟨h1, h2, h3, h4⟩ := h
    obtain ⟨hlt, -⟩ := List.getElem?_eq_some_iff.1 h2
    exact ⟨h1, (List.getElem?_append_left hlt).trans h2, h3, h4⟩

/-- A step that shows nothing. -/
theorem Inv.silent (h : Inv q p c acc tk pop) (ha : accepted [e] = []) (ht : took [e] = [])
    (hp : popped [e] = []) :
    Inv q p c (acc ++ accepted [e]) (tk ++ took [e]) (pop ++ popped [e]) := by
  rwa [ha, ht, hp, List.append_nil, List.append_nil, List.append_nil]

/-- A step of the producer. -/
theorem Inv.emplaceStep (h : Inv q p c acc tk pop) (hs : EmplaceStep q p e q' p') :
    Inv q' p' c (acc ++ accepted [e]) (tk ++ took [e]) (pop ++ popped [e]) := by
  obtain ⟨hq, hp, hc⟩ := h
  rcases hs with hfull | hfull | ⟨i, hi, hfull⟩ | ⟨i, hi, hfull⟩ | junk | _ | _
  · rw [hq.tailCached, hq.full_iff] at hfull
    exact Inv.silent ⟨hq, ⟨hq.tailCached, Nat.lt_of_le_of_ne hq.room hfull⟩, hc⟩ rfl rfl rfl
  · exact Inv.silent ⟨hq, hq.tailCached, hc⟩ rfl rfl rfl
  · obtain rfl := hp
    have hq' := hq.loadHead hi
    rw [hq'.full_iff] at hfull
    exact Inv.silent ⟨hq', ⟨rfl, Nat.lt_of_le_of_ne hq'.room hfull⟩, hc⟩ rfl rfl rfl
  · exact Inv.silent ⟨hq.loadHead hi, trivial, hc⟩ rfl rfl rfl
  · obtain ⟨rfl, hroom⟩ := hp
    exact Inv.silent ⟨hq.writeSlot hroom junk, ⟨rfl, hroom⟩, hc⟩ rfl rfl rfl
  · obtain ⟨rfl, hroom⟩ := hp
    refine Inv.silent ⟨hq.writeSlot hroom _, ⟨rfl, hroom, ?_⟩, hc⟩ rfl rfl rfl
    exact Function.update_self ..
  · obtain ⟨rfl, hroom, hitem⟩ := hp
    change Inv _ _ _ (acc ++ [_]) (tk ++ []) (pop ++ [])
    rw [List.append_nil, List.append_nil]
    exact ⟨hq.storeTail hroom hitem, trivial, hc.append _⟩

/-- A step of the consumer. -/
theorem Inv.popStep (h : Inv q p c acc tk pop) (hs : PopStep own q c e q' c') :
    Inv q' p c' (acc ++ accepted [e]) (tk ++ took [e]) (pop ++ popped [e]) := by
  obtain ⟨hq, hp, hc⟩ := h
  rcases hs with hne | heq | ⟨i, hi, -, hne⟩ | ⟨i, hi, -, heq⟩ | _ | _
  · have hseen : pop.length < q.tailSeen := by
      refine Nat.lt_of_le_of_ne hq.le_tailSeen fun he => hne ?_
      rw [hq.headCachedConsumer, hq.tailCachedConsumer, he]
    exact Inv.silent ⟨hq, hp, hq.headCachedConsumer, hseen, hc⟩ rfl rfl rfl
  · exact Inv.silent ⟨hq, hp, hq.headCachedConsumer, hc⟩ rfl rfl rfl
  · obtain ⟨rfl, rfl⟩ := hc
    have hq' := hq.loadTail hi
    have hseen : tk.length < (q.loadTail i).tailSeen := by
      refine Nat.lt_of_le_of_ne hq'.le_tailSeen fun he => hne ?_
      rw [he]
      exact hq'.tailCachedConsumer.symm
    exact Inv.silent ⟨hq', hp, rfl, hseen, rfl⟩ rfl rfl rfl
  · exact Inv.silent ⟨hq.loadTail hi, hp, hc.2⟩ rfl rfl rfl
  · obtain ⟨rfl, hseen, rfl⟩ := hc
    have hlt : tk.length < acc.length := hseen.trans_le hq.tailSeen_le
    have hitem := hq.kept tk.length acc[tk.length] le_rfl (List.getElem?_eq_getElem hlt)
    change Inv _ _ _ (acc ++ []) (tk ++ [_]) (tk ++ [])
    rw [List.append_nil, List.append_nil]
    exact ⟨hq, hp, rfl, by rw [hitem]; exact List.getElem?_eq_getElem hlt, hseen, rfl⟩
  · obtain ⟨rfl, hitem, hseen, rfl⟩ := hc
    change Inv _ _ _ (acc ++ []) (_ ++ []) (pop ++ [_])
    rw [List.append_nil, List.append_nil]
    exact ⟨hq.storeHead hseen hitem, hp, rfl⟩

end Steps

section Threads

variable {s : Threads T k} {tr : List (Event T)} {buffer : Fin (2 ^ (k : ℕ)) → T}

theorem accepted_append (tr tr' : List (Event T)) :
    accepted (tr ++ tr') = accepted tr ++ accepted tr' := List.filterMap_append

theorem took_append (tr tr' : List (Event T)) : took (tr ++ tr') = took tr ++ took tr' :=
  List.filterMap_append

theorem popped_append (tr tr' : List (Event T)) : popped (tr ++ tr') = popped tr ++ popped tr' :=
  List.filterMap_append

theorem inv_new (buffer : Fin (2 ^ (k : ℕ)) → T) :
    Inv (Threads.new buffer).queue .idle .idle [] [] [] where
  holds :=
    { tail_last := rfl, tail_value := fun n hn => by rw [Nat.le_zero.1 hn]; rfl, tailCached := rfl
      head_last := rfl, head_value := fun n hn => by rw [Nat.le_zero.1 hn]; rfl
      headCachedConsumer := rfl, headCached := rfl, tailCachedConsumer := rfl
      headSeen_le := le_rfl, room := Nat.zero_le _, le_tailSeen := le_rfl, tailSeen_le := le_rfl
      isPrefix := List.prefix_rfl, kept := fun n item _ h => by simp at h }
  emplace := trivial
  pop := rfl

/-- The invariant holds between any two steps. -/
theorem Threads.inv (h : Trace Step (new buffer) tr s) :
    Inv s.queue s.producer s.consumer (accepted tr) (took tr) (popped tr) := by
  refine h.invariant (I := fun tr s =>
    Inv s.queue s.producer s.consumer (accepted tr) (took tr) (popped tr)) (inv_new buffer) ?_
  intro tr s e s' hi hs
  rw [accepted_append, took_append, popped_append]
  rcases hs with ⟨item, hidle⟩ | hs | hs
  · exact Inv.silent ⟨hi.holds, trivial, hi.pop⟩ rfl rfl rfl
  · exact hi.emplaceStep hs
  · exact hi.popStep hs

/-- An item that is not read yet is in its slot, and that is not the slot being written. -/
theorem Inv.unread (h : Inv q p c acc tk pop) {item : T} (hn : tk.length ≤ n)
    (hitem : acc[n]? = some item) : q.buffer (slot k (BitVec.ofNat 64 n)) = item ∧
      writes k p ≠ some (slot k (BitVec.ofNat 64 n)) := by
  obtain ⟨hq, hp, hc⟩ := h
  have hlt : n < acc.length := (List.getElem?_eq_some_iff.1 hitem).1
  have hle : pop.length ≤ tk.length := by
    rcases c with _ | _ | _ | _
    · exact hc ▸ le_rfl
    · exact hc.2 ▸ le_rfl
    · exact hc.2.2 ▸ le_rfl
    · rw [hc.2.2.2, List.length_append]
      exact Nat.le_add_right _ _
  have hseen := hq.headSeen_le
  refine ⟨hq.kept n item (hle.trans hn) hitem, fun hw => ?_⟩
  rcases p with _ | _ | _ | ⟨_, tail⟩ | ⟨_, tail⟩ | _ <;> simp only [writes] at hw <;> try contradiction
  all_goals
    obtain ⟨rfl, hroom⟩ := hp
    exact slot_ne (k := k) hlt (by omega) (Option.some.inj hw)

/-- The slot that the consumer is about to read is that of the next item. -/
theorem Inv.reading (h : Inv q p c acc tk pop) {j : Fin (2 ^ (k : ℕ))} (hr : reads k c = some j) :
    ∃ item, acc[tk.length]? = some item ∧ j = slot k (BitVec.ofNat 64 tk.length) := by
  obtain ⟨hq, -, hc⟩ := h
  rcases c with _ | _ | head | _ <;> simp only [reads] at hr <;> try contradiction
  obtain ⟨rfl, hseen, rfl⟩ := hc
  have hlt : tk.length < acc.length := hseen.trans_le hq.tailSeen_le
  exact ⟨acc[tk.length], List.getElem?_eq_getElem hlt, (Option.some.inj hr).symm⟩

theorem Inv.refused (h : Inv q p c acc tk pop) {loaded : BitVec 64}
    (hs : EmplaceStep q p (.refused loaded) q' p') : ∃ n ≤ pop.length,
      loaded = BitVec.ofNat 64 n ∧ acc.length = n + 2 ^ (k : ℕ) := by
  obtain ⟨hq, hp, -⟩ := h
  rcases hs with _ | _ | _ | ⟨i, hi, hfull⟩
  obtain rfl := hp
  have hq' := hq.loadHead hi
  rw [hq'.full_iff] at hfull
  exact ⟨i, hq'.headSeen_le, hq'.headCached, hfull⟩

theorem Inv.nothing (h : Inv q p c acc tk pop) {loaded : BitVec 64}
    (hs : PopStep own q c (.nothing loaded) q' c') : loaded = q'.headCachedConsumer ∧
      ∃ n ≤ acc.length, own ≤ n ∧ loaded = q'.tail.value n ∧ pop.length = n := by
  obtain ⟨hq, -, hc⟩ := h
  rcases hs with _ | _ | _ | ⟨i, hi, hown, heq⟩
  obtain ⟨rfl, -⟩ := hc
  have hq' := hq.loadTail hi
  have hle := hq'.le_tailSeen
  have hlt := hq'.tailSeen_le
  have hroom := hq'.room
  have hhead := hq'.headSeen_le
  have hcap := capacity_lt k
  have hval : (q.loadTail i).tail.value i = BitVec.ofNat 64 i := hq.tail_value i hlt
  refine ⟨heq.symm.trans hq'.headCachedConsumer.symm, i, hlt, hown, rfl, ?_⟩
  rw [show q.tail.value i = BitVec.ofNat 64 i from hval] at heq
  have hi' : (q.loadTail i).tailSeen = i := rfl
  exact (ofNat_inj (hi' ▸ hle) (by omega)).1 heq

theorem not_refused {loaded : BitVec 64} : ¬ PopStep own q c (.refused loaded) q' c' := by
  rintro ⟨⟩

theorem not_nothing {loaded : BitVec 64} : ¬ EmplaceStep q p (.nothing loaded) q' p' := by
  rintro ⟨⟩

/-- The queue is a FIFO under every interleaving: what was popped is a prefix of what was accepted;
an item that is not read yet is in its slot, and no write is under way there; the slot that is read
is not the one being written; an `emplace` that is refused has loaded an index that is a capacity
behind its own; and a `pop` that gets nothing has loaded its own. -/
theorem threads_fifo (h : Trace Threads.Step (Threads.new buffer) tr s) :
    popped tr <+: accepted tr ∧
    (∀ n item, (took tr).length ≤ n → (accepted tr)[n]? = some item →
      s.queue.buffer (slot k (BitVec.ofNat 64 n)) = item ∧
        writes k s.producer ≠ some (slot k (BitVec.ofNat 64 n))) ∧
    (∀ i, reads k s.consumer = some i → writes k s.producer ≠ some i) ∧
    (∀ tr₀ loaded, tr = tr₀ ++ [.refused loaded] → ∃ n ≤ (popped tr₀).length,
      loaded = BitVec.ofNat 64 n ∧ (accepted tr₀).length = n + 2 ^ (k : ℕ)) ∧
    ∀ tr₀ loaded, tr = tr₀ ++ [.nothing loaded] →
      loaded = s.queue.headCachedConsumer ∧
        ∃ n ≤ (accepted tr₀).length, loaded = s.queue.tail.value n ∧ (popped tr₀).length = n := by
  have hinv := Threads.inv h
  refine ⟨hinv.holds.isPrefix, fun n item => hinv.unread, fun i hr => ?_, ?_, ?_⟩
  · obtain ⟨item, hitem, rfl⟩ := hinv.reading hr
    exact (hinv.unread le_rfl hitem).2
  · rintro tr₀ loaded rfl
    obtain ⟨s₀, h₀, hs⟩ := Trace.snoc_iff.1 h
    rcases hs with _ | hs | hs
    · exact (Threads.inv h₀).refused hs
    · exact absurd hs not_refused
  · rintro tr₀ loaded rfl
    obtain ⟨s₀, h₀, hs⟩ := Trace.snoc_iff.1 h
    rcases hs with _ | hs | hs
    · exact absurd hs not_nothing
    · obtain ⟨hhead, n, hn, -, hval, hlen⟩ := (Threads.inv h₀).nothing hs
      exact ⟨hhead, n, hn, hval, hlen⟩

/-- A queue of one slot: 7 goes in and comes out, but the producer does not see that yet and refuses
the next item. -/
def oneSlot : List (Event ℕ) :=
  [.called 7, .silent, .silent, .silent, .accepted 7, .silent, .silent, .took 7, .popped 7,
    .called 8, .silent, .refused 0]

theorem oneSlot_trace :
    ∃ s : Threads ℕ 0, Trace Threads.Step (Threads.new fun _ => 0) oneSlot s :=
  ⟨_, Trace.start
    |>.step (.call 7 rfl) |>.step (.producer (.called (by decide)))
    |>.step (.producer (.write 0)) |>.step (.producer .writing) |>.step (.producer .store)
    |>.step (.consumer (.calledEmpty rfl))
    |>.step (.consumer (.load 1 (by decide) (by decide) (by decide)))
    |>.step (.consumer .read) |>.step (.consumer .store)
    |>.step (.call 8 rfl) |>.step (.producer (.calledFull (by decide)))
    |>.step (.producer (.loadFull 0 (by decide) (by decide)))⟩

theorem threads_fifo_oneSlot : popped oneSlot <+: accepted oneSlot ∧
    ∃ n ≤ (popped oneSlot.dropLast).length, 0 = BitVec.ofNat 64 n ∧
      (accepted oneSlot.dropLast).length = n + 2 ^ ((0 : Fin 64) : ℕ) := by
  obtain ⟨s, h⟩ := oneSlot_trace
  obtain ⟨hpopped, -, -, hrefused, -⟩ := threads_fifo h
  exact ⟨hpopped, hrefused _ 0 (List.dropLast_append_getLast (l := oneSlot) (by decide)).symm⟩

end Threads

end SPSCQueue

end Nanomatch
