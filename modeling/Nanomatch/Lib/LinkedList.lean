import Mathlib.Data.List.Nodup
import Mathlib.Data.Nat.Notation

/-!
# Linked lists kept in node fields

Links are functions `next` and `prev` from nodes to nodes, with a node `nil` that ends every list.
`Seg` says that a stretch of nodes is linked both ways; `Dll` is a whole doubly linked list given
by its head and tail, and `Chain` a singly linked one given by its head. The operations of such a
list change the links at its ends or around one node, and each has one rule here.
-/

namespace LinkedList

section Seg

variable {V : Type*} {next prev next' prev' : V → V}

/-- The nodes `l` are linked in this order: `h` is the first of them and `p` what precedes it, `t`
is the last and `e` what follows it. For no nodes at all, `h` is `e` and `t` is `p`. -/
def Seg (next prev : V → V) : V → V → List V → V → V → Prop
  | p, h, [], t, e => h = e ∧ t = p
  | p, h, s :: l, t, e => h = s ∧ prev s = p ∧ Seg next prev s (next s) l t e

theorem Seg.append_iff : ∀ {l m : List V} {p h t e : V}, Seg next prev p h (l ++ m) t e ↔
    ∃ x y, Seg next prev p h l x y ∧ Seg next prev x y m t e
  | [], m, p, h, t, e => by simp [Seg]
  | s :: l, m, p, h, t, e => by
    simp only [List.cons_append, Seg, Seg.append_iff (l := l)]
    constructor
    · rintro ⟨rfl, hp, x, y, hl, hm⟩
      exact ⟨x, y, ⟨rfl, hp, hl⟩, hm⟩
    · rintro ⟨x, y, ⟨rfl, hp, hl⟩, hm⟩
      exact ⟨rfl, hp, x, y, hl, hm⟩

/-- A stretch is kept by a change of links elsewhere. -/
theorem Seg.congr : ∀ {l : List V} {p h t e : V}, (∀ s ∈ l, next' s = next s ∧ prev' s = prev s) →
    Seg next prev p h l t e → Seg next' prev' p h l t e
  | [], _, _, _, _, _, h => h
  | s :: l, p, h, t, e, hc, ⟨hs, hp, hl⟩ => by
    obtain ⟨hn, hv⟩ := hc s List.mem_cons_self
    refine ⟨hs, hv.trans hp, ?_⟩
    rw [hn]
    exact Seg.congr (fun x hx => hc x (List.mem_cons_of_mem s hx)) hl

theorem Seg.first_eq {s : V} {l : List V} {p h t e : V} (hs : Seg next prev p h (s :: l) t e) :
    h = s := hs.1

theorem Seg.last_mem : ∀ {l : List V} {p h t e : V}, Seg next prev p h l t e → l ≠ [] → t ∈ l
  | [s], p, h, t, e, ⟨_, _, _, ht⟩, _ => by simp [ht]
  | s :: s' :: l, p, h, t, e, ⟨_, _, hl⟩, _ =>
    List.mem_cons_of_mem s (hl.last_mem (List.cons_ne_nil _ _))

/-- What follows a stretch is changed at its last node. -/
theorem Seg.setEnd [DecidableEq V] {e' : V} : ∀ {l : List V} {p h t e : V}, l ≠ [] → l.Nodup →
    Seg next prev p h l t e → (∀ s ∈ l, next' s = if s = t then e' else next s) →
    (∀ s ∈ l, prev' s = prev s) → Seg next' prev' p h l t e'
  | [s], p, h, t, e, _, _, ⟨hs, hp, _, ht⟩, hn, hv => by
    refine ⟨hs, (hv s List.mem_cons_self).trans hp, ?_, ht⟩
    rw [hn s List.mem_cons_self, if_pos ht.symm]
  | s :: s' :: l, p, h, t, e, _, hd, ⟨hs, hp, hl⟩, hn, hv => by
    have hne : s ≠ t := fun h => (List.nodup_cons.1 hd).1
      (h ▸ hl.last_mem (List.cons_ne_nil s' l))
    refine ⟨hs, (hv s List.mem_cons_self).trans hp, ?_⟩
    rw [hn s List.mem_cons_self, if_neg hne]
    exact hl.setEnd (List.cons_ne_nil s' l) (List.nodup_cons.1 hd).2
      (fun x hx => hn x (List.mem_cons_of_mem s hx)) (fun x hx => hv x (List.mem_cons_of_mem s hx))

/-- What precedes a stretch is changed at its first node. -/
theorem Seg.setStart [DecidableEq V] {s p p' h t e : V} {l : List V} (hd : (s :: l).Nodup)
    (hs : Seg next prev p h (s :: l) t e) (hv : ∀ x ∈ s :: l, prev' x = if x = s then p' else prev x)
    (hn : ∀ x ∈ s :: l, next' x = next x) : Seg next' prev' p' h (s :: l) t e := by
  obtain ⟨h1, -, hl⟩ := hs
  refine ⟨h1, by rw [hv s List.mem_cons_self, if_pos rfl], ?_⟩
  rw [hn s List.mem_cons_self]
  refine Seg.congr (fun x hx => ⟨hn x (List.mem_cons_of_mem s hx), ?_⟩) hl
  have hne : x ≠ s := fun h => (List.nodup_cons.1 hd).1 (h ▸ hx)
  rw [hv x (List.mem_cons_of_mem s hx), if_neg hne]

/-- The nodes of a stretch determine its links. -/
theorem Seg.links_eq : ∀ {l : List V} {p h h' t t' e : V}, Seg next prev p h l t e →
    Seg next' prev' p h' l t' e → h' = h ∧ t' = t ∧ ∀ s ∈ l, next' s = next s ∧ prev' s = prev s
  | [], _, _, _, _, _, _, ⟨hh, ht⟩, ⟨hh', ht'⟩ =>
    ⟨hh'.trans hh.symm, ht'.trans ht.symm, fun _ hs => absurd hs List.not_mem_nil⟩
  | s :: l, p, h, h', t, t', e, ⟨hs, hp, hl⟩, ⟨hs', hp', hl'⟩ => by
    obtain ⟨hn, ht, hall⟩ := hl.links_eq hl'
    refine ⟨hs'.trans hs.symm, ht, fun x hx => ?_⟩
    rcases List.mem_cons.1 hx with rfl | hx
    · exact ⟨hn, hp'.trans hp.symm⟩
    · exact hall x hx

end Seg

section Dll

variable {V : Type*} {next prev next' prev' : V → V} {nil h t : V} {l m : List V}

/-- `l` is doubly linked from `h` to `t`, and `nil` stands before and after it. -/
structure Dll (next prev : V → V) (nil h : V) (l : List V) (t : V) : Prop where
  seg : Seg next prev nil h l t nil
  nodup : l.Nodup
  nil_not_mem : nil ∉ l

theorem Dll.nil_iff : Dll next prev nil h [] t ↔ h = nil ∧ t = nil :=
  ⟨fun hl => hl.seg, fun hl => ⟨hl, List.nodup_nil, List.not_mem_nil⟩⟩

theorem Dll.head_eq_nil (hl : Dll next prev nil h l t) : h = nil ↔ l = [] := by
  rcases l with _ | ⟨s, l⟩
  · simp [(Dll.nil_iff.1 hl).1]
  · have hs : s ≠ nil := fun h => hl.nil_not_mem (h ▸ List.mem_cons_self)
    simp [hl.seg.first_eq, hs]

theorem Dll.last_mem (hl : Dll next prev nil h l t) (hne : l ≠ []) : t ∈ l := hl.seg.last_mem hne

theorem Dll.congr (hl : Dll next prev nil h l t) (hc : ∀ s ∈ l, next' s = next s ∧ prev' s = prev s) :
    Dll next' prev' nil h l t := ⟨hl.seg.congr hc, hl.nodup, hl.nil_not_mem⟩

/-- The first node of a list that has one. -/
theorem Dll.singleton {s : V} (hs : s ≠ nil) (hn : next s = nil) (hp : prev s = nil) :
    Dll next prev nil s [s] s :=
  ⟨⟨rfl, hp, hn, rfl⟩, List.nodup_singleton s, by simpa using hs.symm⟩

/-- A node is linked in after the last one. -/
theorem Dll.append [DecidableEq V] {s : V} (hl : Dll next prev nil h l t) (hne : l ≠ [])
    (hs : s ≠ nil) (hsl : s ∉ l) (hn : next' s = nil) (hp : prev' s = t)
    (hc : ∀ x ∈ l, next' x = (if x = t then s else next x) ∧ prev' x = prev x) :
    Dll next' prev' nil h (l ++ [s]) s := by
  refine ⟨Seg.append_iff.2 ⟨t, s, ?_, rfl, hp, hn, rfl⟩, ?_, ?_⟩
  · exact hl.seg.setEnd hne hl.nodup (fun x hx => (hc x hx).1) fun x hx => (hc x hx).2
  · refine List.nodup_append.2 ⟨hl.nodup, List.nodup_singleton s, ?_⟩
    rintro a ha b hb rfl
    exact hsl (List.mem_singleton.1 hb ▸ ha)
  · simp [hl.nil_not_mem, hs.symm]

/-- The links around a node: what stands before it is `nil` or another node of the list, and so
is what stands after it. -/
theorem Dll.around {s : V} (hl : Dll next prev nil h (l ++ s :: m) t) :
    Seg next prev nil h l (prev s) s ∧ Seg next prev s (next s) m t nil := by
  obtain ⟨x, y, h1, rfl, rfl, h2⟩ := Seg.append_iff.1 hl.seg
  exact ⟨h1, h2⟩

theorem Dll.prev_eq_nil {s : V} (hl : Dll next prev nil h (l ++ s :: m) t) :
    prev s = nil ↔ l = [] := by
  obtain ⟨h1, -⟩ := hl.around
  refine ⟨fun h => ?_, fun h => ?_⟩
  · by_contra hne
    exact hl.nil_not_mem (List.mem_append_left _ (h ▸ h1.last_mem hne))
  · subst h; exact h1.2

theorem Dll.prev_mem {s : V} (hl : Dll next prev nil h (l ++ s :: m) t) (hne : l ≠ []) :
    prev s ∈ l := hl.around.1.last_mem hne

theorem Dll.next_eq_nil {s : V} (hl : Dll next prev nil h (l ++ s :: m) t) :
    next s = nil ↔ m = [] := by
  obtain ⟨-, h2⟩ := hl.around
  rcases m with _ | ⟨x, m⟩
  · simp [h2.1]
  · have hx : x ≠ nil := fun h => hl.nil_not_mem (by simp [h])
    simp [h2.first_eq, hx]

theorem Dll.next_mem {s : V} (hl : Dll next prev nil h (l ++ s :: m) t) (hne : m ≠ []) :
    next s ∈ m := by
  rcases m with _ | ⟨x, m⟩
  · exact absurd rfl hne
  · simp [hl.around.2.first_eq]

/-- What follows the first node. -/
theorem Dll.next_head {s : V} (hl : Dll next prev nil h (s :: l) t) : next s = l.headD nil := by
  obtain ⟨-, -, hseg⟩ := hl.seg
  rcases l with _ | ⟨x, l⟩
  · exact hseg.1
  · exact hseg.first_eq

theorem Dll.head_eq (hl : Dll next prev nil h l t) : h = l.headD nil := by
  rcases l with _ | ⟨x, l⟩
  · exact (Dll.nil_iff.1 hl).1
  · exact hl.seg.first_eq

/-- A node is unlinked: its neighbours, or the list's ends, are linked to each other. -/
theorem Dll.unlink [DecidableEq V] {s : V} (hl : Dll next prev nil h (l ++ s :: m) t)
    (hn : ∀ x ∈ l ++ m, next' x = if x = prev s then next s else next x)
    (hp : ∀ x ∈ l ++ m, prev' x = if x = next s then prev s else prev x) :
    Dll next' prev' nil (if prev s = nil then next s else h) (l ++ m)
      (if next s = nil then prev s else t) := by
  obtain ⟨h1, h2⟩ := hl.around
  have hd : (l ++ m).Nodup := hl.nodup.sublist (by simp)
  obtain ⟨hdl, hdm, hdis⟩ := List.nodup_append.1 hd
  refine ⟨Seg.append_iff.2 ⟨prev s, next s, ?_, ?_⟩, hd, ?_⟩
  · rcases hle : l with _ | ⟨a, l'⟩
    · subst hle
      rw [if_pos (hl.prev_eq_nil.2 rfl)]
      exact ⟨rfl, hl.prev_eq_nil.2 rfl⟩
    · rw [← hle]
      have hne : l ≠ [] := by simp [hle]
      rw [if_neg (fun h => hne (hl.prev_eq_nil.1 h))]
      refine h1.setEnd hne hdl (fun x hx => hn x (List.mem_append_left m hx)) fun x hx => ?_
      rw [hp x (List.mem_append_left m hx), if_neg]
      rintro rfl
      rcases m with _ | ⟨b, m'⟩
      · exact hl.nil_not_mem (List.mem_append_left _ (hl.next_eq_nil.2 rfl ▸ hx))
      · exact hdis _ hx _ (hl.next_mem (by simp)) rfl
  · rcases m with _ | ⟨b, m'⟩
    · rw [if_pos (hl.next_eq_nil.2 rfl)]
      exact ⟨hl.next_eq_nil.2 rfl, rfl⟩
    · have hb : next s = b := h2.first_eq
      rw [if_neg (fun h => absurd (hl.next_eq_nil.1 h) (by simp))]
      refine h2.setStart hdm (fun x hx => ?_) fun x hx => ?_
      · rw [hp x (List.mem_append_right l hx), hb]
      · rw [hn x (List.mem_append_right l hx), if_neg]
        rintro rfl
        rcases hle : l with _ | ⟨a, l'⟩
        · exact hl.nil_not_mem (List.mem_append_right _
            (List.mem_cons_of_mem s (hl.prev_eq_nil.2 hle ▸ hx)))
        · exact hdis _ (hl.prev_mem (by simp [hle])) _ hx rfl
  · exact fun h => hl.nil_not_mem (by
      rcases List.mem_append.1 h with h | h
      · exact List.mem_append_left _ h
      · exact List.mem_append_right _ (List.mem_cons_of_mem s h))

end Dll

section Chain

variable {V : Type*} {next next' : V → V} {nil : V}

/-- `l` is singly linked from `h` and ends at `nil`. -/
def Chain (next : V → V) (nil : V) : V → List V → Prop
  | h, [] => h = nil
  | h, s :: l => h = s ∧ Chain next nil (next s) l

theorem Chain.congr : ∀ {l : List V} {h : V}, Chain next nil h l → (∀ s ∈ l, next' s = next s) →
    Chain next' nil h l
  | [], _, hl, _ => hl
  | s :: l, h, ⟨hs, hl⟩, hc => by
    refine ⟨hs, ?_⟩
    rw [hc s List.mem_cons_self]
    exact hl.congr fun x hx => hc x (List.mem_cons_of_mem s hx)

theorem Chain.head_eq : ∀ {l : List V} {h : V}, Chain next nil h l → h = l.headD nil
  | [], _, hl => hl
  | _ :: _, _, hl => hl.1

theorem Chain.head_eq_nil {l : List V} {h : V} (hl : Chain next nil h l) (hnil : nil ∉ l) :
    h = nil ↔ l = [] := by
  rcases l with _ | ⟨s, l⟩
  · simpa [Chain] using hl
  · have hs : s ≠ nil := fun h => hnil (h ▸ List.mem_cons_self)
    simp [hl.1, hs]

theorem Seg.chain : ∀ {l : List V} {prev : V → V} {p h t : V}, Seg next prev p h l t nil →
    Chain next nil h l
  | [], _, _, _, _, hl => hl.1
  | _ :: _, _, _, _, _, ⟨hs, _, hl⟩ => ⟨hs, hl.chain⟩

/-- The nodes met in at most `fuel` steps along `next`. -/
def follow [DecidableEq V] (next : V → V) (nil : V) : ℕ → V → List V
  | 0, _ => []
  | fuel + 1, s => if s = nil then [] else s :: follow next nil fuel (next s)

/-- A walk along a list meets its nodes in order. -/
theorem Chain.follow_eq [DecidableEq V] : ∀ {l : List V} {h : V} {fuel : ℕ},
    Chain next nil h l → nil ∉ l → l.length ≤ fuel → follow next nil fuel h = l
  | [], h, 0, _, _, _ => rfl
  | [], h, fuel + 1, hl, _, _ => by
    exact if_pos hl
  | s :: l, h, 0, _, _, hf => by simp at hf
  | s :: l, h, fuel + 1, ⟨hs, hl⟩, hnil, hf => by
    subst hs
    obtain ⟨h1, h2⟩ := List.ne_and_not_mem_of_not_mem_cons hnil
    rw [follow, if_neg h1.symm, hl.follow_eq h2 (Nat.le_of_succ_le_succ hf)]

end Chain

end LinkedList
