import Mathlib.Data.List.Sort

/-!
# Sorting by a key

Insertion sort keeps the order of the items of one key. So a list that is sorted by a key reads off the
keys in order, and for each of them its items in the order in which they were.
-/

namespace StableSort

variable {α β : Type*} {r : β → β → Prop} {key : α → β} {x : α} {l m : List α} {keys : List β}
  [DecidableRel r]

section Insert

/-- An item goes in front of those that do not go before it. -/
theorem orderedInsert_front (h : ∀ y ∈ l, r (key x) (key y)) :
    l.orderedInsert (fun x y => r (key x) (key y)) x = x :: l := by
  rcases l with _ | ⟨y, l⟩
  · rfl
  · exact List.orderedInsert_cons_of_le _ l (h y List.mem_cons_self)

/-- An item goes behind those that go before it. -/
theorem orderedInsert_behind : ∀ {l : List α}, (∀ y ∈ l, ¬ r (key x) (key y)) →
    (l ++ m).orderedInsert (fun x y => r (key x) (key y)) x =
      l ++ m.orderedInsert (fun x y => r (key x) (key y)) x
  | [], _ => rfl
  | y :: l, h => by
    have hy : ¬ r (key x) (key y) := h y List.mem_cons_self
    rw [List.cons_append, List.orderedInsert_cons, if_neg hy,
      orderedInsert_behind fun z hz => h z (List.mem_cons_of_mem y hz)]
    rfl

end Insert

section Keys

variable [DecidableEq β]

/-- The items of the keys `keys`, key by key. -/
def byKey (key : α → β) (keys : List β) (l : List α) : List α :=
  keys.flatMap fun k => l.filter (key · = k)

theorem byKey_cons_of_notMem (h : key x ∉ keys) : byKey key keys (x :: l) = byKey key keys l := by
  refine congrArg List.flatten (List.map_congr_left fun k hk => ?_)
  exact List.filter_cons_of_neg fun he => h (of_decide_eq_true he ▸ hk)

theorem orderedInsert_byKey (hrefl : ∀ k, r k k) : ∀ {keys : List β},
    keys.Pairwise (fun k k' => r k k' ∧ ¬ r k' k) → key x ∈ keys →
    (byKey key keys l).orderedInsert (fun x y => r (key x) (key y)) x = byKey key keys (x :: l)
  | [], _, h => absurd h List.not_mem_nil
  | k :: keys, hkeys, h => by
    obtain ⟨hk, hkeys⟩ := List.pairwise_cons.1 hkeys
    have hcons : ∀ l : List α, byKey key (k :: keys) l = l.filter (key · = k) ++ byKey key keys l :=
      fun l => rfl
    by_cases he : key x = k
    · -- the item is the first of its key, and the other keys come later
      have hnot : key x ∉ keys := fun hx => (hk _ hx).2 (he ▸ hrefl _)
      rw [hcons, hcons, byKey_cons_of_notMem hnot, List.filter_cons, if_pos (decide_eq_true he),
        List.cons_append]
      refine orderedInsert_front fun y hy => ?_
      rcases List.mem_append.1 hy with hy | hy
      · rw [he, of_decide_eq_true (List.mem_filter.1 hy).2]
        exact hrefl k
      · obtain ⟨k', hk', hy⟩ := List.mem_flatMap.1 hy
        rw [he, of_decide_eq_true (List.mem_filter.1 hy).2]
        exact (hk k' hk').1
    · have hmem : key x ∈ keys := (List.mem_cons.1 h).resolve_left he
      rw [hcons, hcons, List.filter_cons, if_neg fun hc => he (of_decide_eq_true hc),
        ← orderedInsert_byKey hrefl hkeys hmem]
      refine orderedInsert_behind fun y hy => ?_
      rw [of_decide_eq_true (List.mem_filter.1 hy).2]
      exact (hk _ hmem).2

/-- Sorting by a key goes through the keys in order. -/
theorem insertionSort_eq_byKey (hrefl : ∀ k, r k k)
    (hkeys : keys.Pairwise fun k k' => r k k' ∧ ¬ r k' k) : ∀ {l : List α}, (∀ x ∈ l, key x ∈ keys) →
    l.insertionSort (fun x y => r (key x) (key y)) = byKey key keys l
  | [], _ => (List.flatMap_eq_nil_iff.2 fun _ _ => rfl).symm
  | x :: l, h => by
    rw [List.insertionSort_cons,
      insertionSort_eq_byKey hrefl hkeys fun y hy => h y (List.mem_cons_of_mem x hy),
      orderedInsert_byKey hrefl hkeys (h x List.mem_cons_self)]

end Keys

end StableSort
