import Nanomatch.Proofs.EngineRuns
import Nanomatch.Proofs.ItchMain
import Nanomatch.Proofs.TableRuns

/-!
# A replay over hash tables is the replay over finite maps

The parser calls its books over their hash tables as it calls books over finite maps, as long as the
erases that it makes in each of them are safe, and so does the engine. So what is known of every
replay and of every run of the engine over finite maps is known of these runs of the code.
-/

namespace Nanomatch

open Framing ItchParser OrderBook

section Along

variable {M : Type} [IdMapOps M] {P : OrderBook M → Op → Prop} {ops' : List Op}

theorem OrderBook.AlongRun.of_append : ∀ {ops : List Op} {c : OrderBook M},
    c.AlongRun P (ops ++ ops') → c.AlongRun P ops
  | [], _, _ => trivial
  | op :: ops, c, ⟨hop, hrest⟩ => by
    refine ⟨hop, ?_⟩
    rcases h : c.step op with _ | ⟨c', r⟩
    · trivial
    · rw [h] at hrest
      exact hrest.of_append

theorem OrderBook.AlongRun.drop : ∀ {ops : List Op} {c c' : OrderBook M},
    c.AlongRun P (ops ++ ops') → c.run ops = some c' → c'.AlongRun P ops'
  | [], _, _, h, hrun => Option.some.inj hrun ▸ h
  | op :: ops, c, c', ⟨_, hrest⟩, hrun => by
    rcases h : c.step op with _ | ⟨c1, r⟩
    · simp [OrderBook.run, h] at hrun
    · rw [h] at hrest
      refine hrest.drop ?_
      simpa [OrderBook.run, h] using hrun

end Along

variable {e : ℕ} {c0 c : OrderBook IdMap} {d0 d : OrderBook FinMap} {a : Ladder}
  {m : Market (OrderBook IdMap)} {m' : Market (OrderBook FinMap)} {allowedLocates : Finset UInt16}
  {locate : ℕ} {id oldId newId : OrderId} {price shares : UInt32} {side : Side}

section Books

theorem Backed.cancel (h : Backed e c d a) (hsafe : c.SafeErases (.cancelOrder id)) : ∃ c' d' a',
    c.cancelOrder id = some c' ∧ d.cancelOrder id = some d' ∧ Backed e c' d' a' := by
  obtain ⟨c', d', hc, hd, h'⟩ := h.step (.cancelOrder id) hsafe
  obtain ⟨c1, hc1, he⟩ := Option.map_eq_some_iff.1 hc
  obtain ⟨d1, hd1, he'⟩ := Option.map_eq_some_iff.1 hd
  obtain ⟨rfl, -⟩ := Prod.mk.inj he
  obtain ⟨rfl, -⟩ := Prod.mk.inj he'
  exact ⟨c1, d1, _, hc1, hd1, h'⟩

/-- Both books find an order in the same slot, with the same side. -/
theorem Backed.find (h : Backed e c d a) (id : OrderId) : ∃ idx, c.findId id = some idx ∧
    d.findId id = some idx ∧ (idx ≠ NULL_IDX → ∃ side, OrderBookOps.sideOf c idx = some side ∧
      OrderBookOps.sideOf d idx = some side) := by
  refine ⟨a.find id, h.table.findId h.good id, h.finite.findId trivial id, fun hne => ?_⟩
  obtain ⟨o, ho, -, -, -, hside⟩ := h.table.readOrder_eq h.wf (h.wf.ids id hne).1
  obtain ⟨o', ho', -, -, -, hside'⟩ := h.finite.readOrder_eq h.wf (h.wf.ids id hne).1
  have hc : OrderBookOps.sideOf c (a.find id) = (c.readOrder (a.find id)).map Order.side := rfl
  have hd : OrderBookOps.sideOf d (a.find id) = (d.readOrder (a.find id)).map Order.side := rfl
  exact ⟨_, by rw [hc, ho, Option.map_some, hside], by rw [hd, ho', Option.map_some, hside']⟩

end Books

namespace Market

section Twins

/-- The markets know the same owners, and their books stand for the same ladders. -/
structure Twin (e : ℕ) (c0 : OrderBook IdMap) (d0 : OrderBook FinMap)
    (m : Market (OrderBook IdMap)) (m' : Market (OrderBook FinMap)) : Prop where
  refOwner : m'.refOwner = m.refOwner
  backed : ∀ i, ∃ a, Backed e ((m.marketBooks.cell i).getD c0) ((m'.marketBooks.cell i).getD d0) a
  empty : ∀ i, m.marketBooks.cell i = none ↔ m'.marketBooks.cell i = none
  ok : m.Ok fun _ => True
  ok' : m'.Ok fun _ => True

theorem Twin.put (h : Twin e c0 d0 m m') (locate : ℕ) (hb : Backed e c d a) :
    Twin e c0 d0 (m.put locate c) (m'.put locate d) where
  refOwner := h.refOwner
  backed i := by
    rw [put_cell, put_cell]
    split_ifs
    · exact ⟨a, hb⟩
    · exact h.backed i
  empty i := by
    rw [put_cell, put_cell]
    split_ifs
    · simp
    · exact h.empty i
  ok := h.ok.put locate trivial
  ok' := h.ok'.put locate trivial

theorem Twin.setOwner (h : Twin e c0 d0 m m') (id : OrderId) (hlt : locate < kMaxStockLocate)
    (hc : m.marketBooks.cell locate = some c) (hd : m'.marketBooks.cell locate = some d) :
    Twin e c0 d0 (m.setOwner id locate) (m'.setOwner id locate) where
  refOwner := congrArg (fun owner : OrderId → Option ℕ => Function.update owner id (some locate))
    h.refOwner
  backed := h.backed
  empty := h.empty
  ok := h.ok.setOwner id hlt hc
  ok' := h.ok'.setOwner id hlt hd

theorem Twin.eraseOwner (h : Twin e c0 d0 m m') (id : OrderId) :
    Twin e c0 d0 (m.eraseOwner id) (m'.eraseOwner id) where
  refOwner := congrArg (fun owner : OrderId → Option ℕ => Function.update owner id none) h.refOwner
  backed := h.backed
  empty := h.empty
  ok := h.ok.eraseOwner id
  ok' := h.ok'.eraseOwner id

theorem Twin.added (h : Twin e c0 d0 m m') (hlt : locate < kMaxStockLocate) (id : OrderId)
    (hb : Backed e c d a) (inserted : Bool) :
    Twin e c0 d0 (m.added locate id (c, inserted)) (m'.added locate id (d, inserted)) := by
  unfold Market.added
  split_ifs
  · exact (h.put locate hb).setOwner id hlt (if_pos rfl) (if_pos rfl)
  · exact h.put locate hb

theorem Twin.worked (h : Twin e c0 d0 m m') (locate : ℕ) (id : OrderId) (hb : Backed e c d a)
    (gone : Bool) :
    Twin e c0 d0 (m.worked locate id (c, gone)) (m'.worked locate id (d, gone)) := by
  unfold Market.worked
  split_ifs
  · exact (h.put locate hb).eraseOwner id
  · exact h.put locate hb

theorem Twin.replaced (h : Twin e c0 d0 m m') (hlt : locate < kMaxStockLocate)
    (oldId newId : OrderId) (hb : Backed e c d a) (inserted : Bool) :
    Twin e c0 d0 (m.replaced locate oldId newId (c, inserted))
      (m'.replaced locate oldId newId (d, inserted)) := by
  unfold Market.replaced
  split_ifs
  · exact ((h.put locate hb).eraseOwner oldId).setOwner newId hlt (if_pos rfl) (if_pos rfl)
  · exact (h.put locate hb).eraseOwner oldId

/-- The books of an owner. -/
theorem Twin.books (h : Twin e c0 d0 m m') (hid : m.refOwner id = some locate) :
    locate < kMaxStockLocate ∧ ∃ c d a, m.marketBooks.cell locate = some c ∧
      m'.marketBooks.cell locate = some d ∧ Backed e c d a := by
  obtain ⟨hlt, c, hc⟩ := h.ok.owner id locate hid
  obtain ⟨-, d, hd⟩ := h.ok'.owner id locate (h.refOwner ▸ hid)
  obtain ⟨a, hb⟩ := h.backed locate
  rw [hc, hd] at hb
  exact ⟨hlt, c, d, a, hc, hd, hb⟩

end Twins

section Messages

theorem Twin.addOrder (h : Twin e c0 d0 m m') {locate : UInt16}
    (hsafe : locate.toNat < kMaxStockLocate ∧ isTracked allowedLocates locate →
      ((m.marketBooks.cell locate.toNat).getD c0).SafeErases
        (.insertLimitOrder id side price shares)) :
    ∃ m1 m1', m.addOrder c0 allowedLocates locate id side price shares = some m1 ∧
      m'.addOrder d0 allowedLocates locate id side price shares = some m1' ∧
      Twin e c0 d0 m1 m1' := by
  by_cases ht : locate.toNat < kMaxStockLocate ∧ isTracked allowedLocates locate
  · obtain ⟨a, hb⟩ := h.backed locate.toNat
    obtain ⟨c', d', hc, hd, hb'⟩ := hb.step _ (hsafe ht)
    rw [addOrder_tracked side price shares ht h.ok.size,
      addOrder_tracked side price shares ht h.ok'.size]
    refine ⟨_, _, congrArg (Option.map _) hc, congrArg (Option.map _) hd, ?_⟩
    exact h.added ht.1 id hb' _
  · exact ⟨m, m', addOrder_untracked side price shares ht, addOrder_untracked side price shares ht, h⟩

theorem Twin.onOwner (h : Twin e c0 d0 m m') (op : Op)
    {f : OrderBook IdMap → Option (OrderBook IdMap × Bool)}
    {f' : OrderBook FinMap → Option (OrderBook FinMap × Bool)}
    (hf : ∀ {c d a}, Backed e c d a → c.SafeErases op → ∃ c' d' a' gone, f c = some (c', gone) ∧
      f' d = some (d', gone) ∧ Backed e c' d' a')
    (hsafe : ∀ locate, m.refOwner id = some locate →
      ((m.marketBooks.cell locate).getD c0).SafeErases op) :
    ∃ m1 m1', m.onOwner id f = some m1 ∧ m'.onOwner id f' = some m1' ∧ Twin e c0 d0 m1 m1' := by
  rcases hid : m.refOwner id with _ | locate
  · exact ⟨m, m', onOwner_none hid f, onOwner_none (h.refOwner ▸ hid) f', h⟩
  · obtain ⟨hlt, c, d, a, hc, hd, hb⟩ := h.books hid
    have hs := hsafe locate hid
    rw [hc, Option.getD_some] at hs
    obtain ⟨c', d', a', gone, hfc, hfd, hb'⟩ := hf hb hs
    rw [onOwner_some hid (h.ok.size.symm ▸ hlt) hc,
      onOwner_some (h.refOwner ▸ hid) (h.ok'.size.symm ▸ hlt) hd, hfc, hfd]
    exact ⟨_, _, rfl, rfl, h.worked locate id hb' gone⟩

theorem Twin.replaceOrder (h : Twin e c0 d0 m m')
    (hsafe : ∀ locate side, m.refOwner oldId = some locate → m'.sideIn locate oldId = some side →
      ((m.marketBooks.cell locate).getD c0).AlongRun SafeErases
        [.cancelOrder oldId, .insertLimitOrder newId side price shares]) :
    ∃ m1 m1', m.replaceOrder oldId newId price shares = some m1 ∧
      m'.replaceOrder oldId newId price shares = some m1' ∧ Twin e c0 d0 m1 m1' := by
  rcases hid : m.refOwner oldId with _ | locate
  · exact ⟨m, m', replaceOrder_none hid newId price shares,
      replaceOrder_none (h.refOwner ▸ hid) newId price shares, h⟩
  obtain ⟨hlt, c, d, a, hc, hd, hb⟩ := h.books hid
  obtain ⟨idx, hfc, hfd, hside⟩ := hb.find oldId
  have hbook := book_of_cell (h.ok'.size.symm ▸ hlt) hd
  have hfind : OrderBookOps.findId c oldId = some idx := hfc
  have hfind' : OrderBookOps.findId d oldId = some idx := hfd
  rw [replaceOrder_some hid (h.ok.size.symm ▸ hlt) hc,
    replaceOrder_some (h.refOwner ▸ hid) (h.ok'.size.symm ▸ hlt) hd, hfind, hfind', Option.bind_some,
    Option.bind_some]
  by_cases hnull : idx = NULL_IDX
  · rw [if_pos hnull, if_pos hnull]
    exact ⟨m, m', rfl, rfl, h⟩
  · obtain ⟨side, hs, hs'⟩ := hside hnull
    have hin : m'.sideIn locate oldId = some side := by
      simp [sideIn, hbook, hfind', hnull, hs']
    have hrun := hsafe locate side hid hin
    rw [hc, Option.getD_some] at hrun
    obtain ⟨hcancel, hrest⟩ := hrun
    obtain ⟨c1, d1, a1, hc1, hd1, hb1⟩ := hb.cancel hcancel
    have hstep : c.step (.cancelOrder oldId) = some (c1, false) :=
      congrArg (Option.map (·, false)) hc1
    rw [hstep] at hrest
    obtain ⟨c2, d2, hc2, hd2, hb2⟩ := hb1.step _ hrest.1
    generalize (a1.step (.insertLimitOrder newId side price shares)).2 = inserted at hc2 hd2
    have hin1 : replaceIn c oldId newId idx price shares = some (c2, inserted) := by
      have hop : OrderBookOps.cancelOrder c oldId = some c1 := hc1
      simp only [replaceIn, hs, hop, Option.bind_eq_bind, Option.bind_some]
      exact hc2
    have hin2 : replaceIn d oldId newId idx price shares = some (d2, inserted) := by
      have hop : OrderBookOps.cancelOrder d oldId = some d1 := hd1
      simp only [replaceIn, hs', hop, Option.bind_eq_bind, Option.bind_some]
      exact hd2
    rw [if_neg hnull, if_neg hnull, hin1, hin2]
    exact ⟨_, _, rfl, rfl, h.replaced hlt oldId newId hb2 inserted⟩

/-- Both parsers make the same calls. -/
theorem Twin.calls_eq (h : Twin e c0 d0 m m') : ∀ message : Message,
    m.calls allowedLocates message = m'.calls allowedLocates message
  | .add _ _ _ _ _ => rfl
  | .execute _ _ => by simp only [calls, h.refOwner]
  | .cancel _ _ => by simp only [calls, h.refOwner]
  | .delete _ => by simp only [calls, h.refOwner]
  | .replace oldId newId price shares => by
    simp only [calls, h.refOwner]
    rcases hid : m.refOwner oldId with _ | locate
    · rfl
    obtain ⟨hlt, c, d, a, hc, hd, hb⟩ := h.books hid
    obtain ⟨idx, hfc, hfd, hside⟩ := hb.find oldId
    have hfind : OrderBookOps.findId c oldId = some idx := hfc
    have hfind' : OrderBookOps.findId d oldId = some idx := hfd
    have hin : m.sideIn locate oldId = m'.sideIn locate oldId := by
      simp only [sideIn, book_of_cell (h.ok.size.symm ▸ hlt) hc,
        book_of_cell (h.ok'.size.symm ▸ hlt) hd, hfind, hfind', Option.bind_eq_bind,
        Option.bind_some]
      split_ifs with hnull
      · rfl
      · obtain ⟨side, hs, hs'⟩ := hside hnull
        rw [hs, hs']
    simp only [Option.toList_some, List.flatMap_cons, List.flatMap_nil, hin]

/-- A message whose calls are safe. -/
theorem Twin.dispatch (h : Twin e c0 d0 m m') : ∀ {message : Option Message},
    (∀ locate, ((m.marketBooks.cell locate).getD c0).AlongRun SafeErases
      (callsTo locate (message.toList.flatMap (m'.calls allowedLocates)))) →
    ∃ m1 m1', m.dispatch c0 allowedLocates message = some m1 ∧
      m'.dispatch d0 allowedLocates message = some m1' ∧ Twin e c0 d0 m1 m1'
  | none, _ => ⟨m, m', rfl, rfl, h⟩
  | some message, hsafe => by
    have hone : ∀ locate op, m'.calls allowedLocates message = [(locate, op)] →
        ((m.marketBooks.cell locate).getD c0).SafeErases op := fun locate op hcalls => by
      have hs := hsafe locate
      rw [Option.toList_some, List.flatMap_singleton, hcalls] at hs
      have hto : callsTo locate [(locate, op)] = [op] := callsTo_same locate [op]
      rw [hto] at hs
      exact hs.1
    have howner : ∀ id op, (∀ locate, m.refOwner id = some locate →
        m'.calls allowedLocates message = [(locate, op)]) → ∀ locate, m.refOwner id = some locate →
        ((m.marketBooks.cell locate).getD c0).SafeErases op := fun id op hcalls locate hid =>
      hone locate op (hcalls locate hid)
    rcases message with ⟨locate, id, side, price, shares⟩ | ⟨id, shares⟩ | ⟨id, shares⟩ | id |
      ⟨oldId, newId, price, shares⟩
    · exact h.addOrder fun ht => hone _ _ (if_pos ht)
    · refine h.onOwner (.executeOrder id shares) (fun hb hs => ?_) (howner id _ fun locate hid => ?_)
      · obtain ⟨c', d', hc, hd, hb'⟩ := hb.step _ hs
        exact ⟨c', d', _, _, hc, hd, hb'⟩
      · simp [calls, h.refOwner, hid]
    · refine h.onOwner (.reduceOrderQty id shares) (fun hb hs => ?_)
        (howner id _ fun locate hid => ?_)
      · obtain ⟨c', d', hc, hd, hb'⟩ := hb.step _ hs
        exact ⟨c', d', _, _, hc, hd, hb'⟩
      · simp [calls, h.refOwner, hid]
    · refine h.onOwner (.cancelOrder id) (fun hb hs => ?_) (howner id _ fun locate hid => ?_)
      · obtain ⟨c', d', a', hc, hd, hb'⟩ := hb.cancel hs
        exact ⟨c', d', a', true, congrArg (Option.map (·, true)) hc,
          congrArg (Option.map (·, true)) hd, hb'⟩
      · simp [calls, h.refOwner, hid]
    · refine h.replaceOrder fun locate side hid hin => ?_
      have hs := hsafe locate
      have hcalls : m'.calls allowedLocates (.replace oldId newId price shares) =
          [Op.cancelOrder oldId, .insertLimitOrder newId side price shares].map (locate, ·) := by
        simp [calls, h.refOwner, hid, hin]
      rwa [Option.toList_some, List.flatMap_singleton, hcalls, callsTo_same] at hs

theorem Twin.handleAll : ∀ {messages : List (Option Message)} {m : Market (OrderBook IdMap)}
    {m' : Market (OrderBook FinMap)} {log : List (ℕ × Op)}, Twin e c0 d0 m m' →
    Holds c0 allowedLocates m log →
    (∀ locate, c0.AlongRun SafeErases
      (callsTo locate (log ++ m'.log d0 allowedLocates messages))) →
    ∃ m1 m1', m.handleAll c0 allowedLocates messages = some m1 ∧
      m'.handleAll d0 allowedLocates messages = some m1' ∧ Twin e c0 d0 m1 m1'
  | [], m, m', _, h, _, _ => ⟨m, m', rfl, rfl, h⟩
  | message :: messages, m, m', log, h, hholds, hsafe => by
    have hnow : ∀ locate, ((m.marketBooks.cell locate).getD c0).AlongRun SafeErases
        (callsTo locate (message.toList.flatMap (m'.calls allowedLocates))) := fun locate => by
      have hs := hsafe locate
      rw [callsTo_append] at hs
      have hs := hs.drop (hholds.run locate)
      rw [Market.log, callsTo_append] at hs
      exact hs.of_append
    obtain ⟨m1, m1', hm1, hm1', h1⟩ := h.dispatch hnow
    have hholds1 := hholds.dispatch h.ok hm1
    have hcalls : message.toList.flatMap (m.calls allowedLocates) =
        message.toList.flatMap (m'.calls allowedLocates) :=
      List.flatMap_congr fun message _ => h.calls_eq message
    rw [hcalls] at hholds1
    have hsafe1 : ∀ locate, c0.AlongRun SafeErases (callsTo locate
        (log ++ message.toList.flatMap (m'.calls allowedLocates) ++
          m1'.log d0 allowedLocates messages)) := fun locate => by
      have hs := hsafe locate
      rw [Market.log, hm1'] at hs
      simpa using hs
    obtain ⟨m2, m2', hm2, hm2', h2⟩ := h1.handleAll hholds1 hsafe1
    refine ⟨m2, m2', ?_, ?_, h2⟩
    · rw [Market.handleAll, hm1]
      exact hm2
    · rw [Market.handleAll, hm1']
      exact hm2'

end Messages

end Market

theorem Market.Twin.sameBooks (h : Market.Twin e c0 d0 m m') : m.refOwner = m'.refOwner ∧
    ∀ locate, m.book locate = none ∧ m'.book locate = none ∨
      ∃ c d, m.book locate = some c ∧ m'.book locate = some d ∧ c.SameBook d := by
  refine ⟨h.refOwner.symm, fun locate => ?_⟩
  unfold Market.book Cells.read
  rw [h.ok.size, h.ok'.size]
  by_cases hlt : locate < kMaxStockLocate
  · obtain ⟨a, hb⟩ := h.backed locate
    rcases hc : m.marketBooks.cell locate with _ | c
    · simp [hlt, (h.empty locate).1 hc]
    · obtain ⟨d, hd⟩ := Option.ne_none_iff_exists'.1 fun hd =>
        Option.some_ne_none c (hc.symm.trans ((h.empty locate).2 hd))
      rw [hc, hd] at hb
      refine .inr ⟨c, d, ?_, ?_, hb.sameBook⟩ <;> simp [hlt, hd]
  · simp [hlt]

section Replays

theorem parse_twin {band maxOrders : ℕ} (hband : 0 < band) (hband' : band < 2 ^ 32)
    (h1 : 1 ≤ maxOrders) (h30 : maxOrders ≤ 2 ^ 30) {fs : List (List UInt8)} {rest file : List UInt8}
    (hsplit : Splits frames fs rest file) (hend : Stuck frames rest)
    (hsafe : ∀ locate, (create band maxOrders).AlongRun SafeErases (callsTo locate
      (Market.log (fresh band maxOrders) allowedLocates {} (messagesOf fs rest)))) :
    ∃ e m m', parseItchFile (create band maxOrders) allowedLocates file {} = some m ∧
      parseItchFile (fresh band maxOrders) allowedLocates file {} = some m' ∧
      Market.Twin e (create band maxOrders) (fresh band maxOrders) m m' := by
  obtain ⟨e, hnew⟩ := backed_create hband hband' h1 h30
  have h0 : Market.Twin e (create band maxOrders) (fresh band maxOrders) {} {} := {
    refOwner := rfl
    backed := fun _ => ⟨_, hnew⟩
    empty := fun _ => ⟨fun _ => rfl, fun _ => rfl⟩
    ok := Market.ok_init _
    ok' := Market.ok_init _ }
  obtain ⟨m, m', hm, hm', h⟩ := h0.handleAll (Market.holds_init _ allowedLocates) hsafe
  exact ⟨e, m, m', (parseItchFile_eq _ _ hsplit hend _).trans hm,
    (parseItchFile_eq _ _ hsplit hend _).trans hm', h⟩

/-- Where the erases of the calls that go to each place are safe for the book of the constructor there,
the parser over these books does what it does over finite maps: it knows the same owners, and its books
are the same. -/
theorem parse_sameBooks {band maxOrders : ℕ} (hband : 0 < band) (hband' : band < 2 ^ 32)
    (h1 : 1 ≤ maxOrders) (h30 : maxOrders ≤ 2 ^ 30) {fs : List (List UInt8)} {rest file : List UInt8}
    (hsplit : Splits frames fs rest file) (hend : Stuck frames rest)
    (hsafe : ∀ locate, (create band maxOrders).AlongRun SafeErases (callsTo locate
      (Market.log (fresh band maxOrders) allowedLocates {} (messagesOf fs rest)))) :
    ∃ m m', parseItchFile (create band maxOrders) allowedLocates file {} = some m ∧
      parseItchFile (fresh band maxOrders) allowedLocates file {} = some m' ∧
      m.refOwner = m'.refOwner ∧ ∀ locate, m.book locate = none ∧ m'.book locate = none ∨
        ∃ c d, m.book locate = some c ∧ m'.book locate = some d ∧ c.SameBook d := by
  obtain ⟨e, m, m', hm, hm', h⟩ := parse_twin hband hband' h1 h30 hsplit hend hsafe
  exact ⟨m, m', hm, hm', h.sameBooks⟩

theorem splits_twoTickers : Splits frames [addSeven, addEight, deleteSeven] []
    (addSeven ++ addEight ++ deleteSeven) := by
  refine ⟨?_, by simp⟩
  simp only [List.forall_mem_cons]
  exact ⟨isFrame_addSeven, ⟨0, 36, _, rfl, by decide, by decide⟩,
    ⟨0, 19, _, rfl, by decide, by decide⟩, by simp⟩

theorem safe_twoTickers (locate : ℕ) : (create 16 4).AlongRun SafeErases (callsTo locate
    (Market.log (fresh 16 4) ∅ {} (messagesOf [addSeven, addEight, deleteSeven] []))) := by
  have hlog : Market.log (fresh 16 4) ∅ {} (messagesOf [addSeven, addEight, deleteSeven] []) =
      [(1, .insertLimitOrder 7 .SELL 100 5), (2, .insertLimitOrder 8 .BUY 100 5),
        (1, .cancelOrder 7)] := rfl
  rw [hlog]
  by_cases hone : 1 = locate
  · subst hone
    decide +kernel
  · by_cases htwo : 2 = locate
    · subst htwo
      decide +kernel
    · have hnil : callsTo locate [(1, Op.insertLimitOrder 7 .SELL 100 5),
          (2, .insertLimitOrder 8 .BUY 100 5), (1, .cancelOrder 7)] = [] := by
        simp [callsTo, hone, htwo]
      rw [hnil]
      trivial

/-- The calls of two adds for two tickers and a delete, in the real tables. -/
theorem parse_sameBooks_twoTickers : ∃ m m',
    parseItchFile (create 16 4) ∅ (addSeven ++ addEight ++ deleteSeven) {} = some m ∧
      parseItchFile (fresh 16 4) ∅ (addSeven ++ addEight ++ deleteSeven) {} = some m' ∧
      m.refOwner = m'.refOwner ∧ ∀ locate, m.book locate = none ∧ m'.book locate = none ∨
        ∃ c d, m.book locate = some c ∧ m'.book locate = some d ∧ c.SameBook d :=
  parse_sameBooks (by decide) (by decide) (by decide) (by decide) splits_twoTickers stuck_nil
    safe_twoTickers

end Replays

section Mains

theorem new_create {maxOrders : ℕ} (h : maxOrders < 2 ^ 32) (band : ℕ) :
    OrderBook.new band maxOrders (create band maxOrders).idMap = create band maxOrders := by
  unfold create
  rw [Nat.mod_eq_of_lt h]
  rfl

/-- Where the erases of the calls that go to each place are safe, the replay ends over its hash tables
as it ends over finite maps. -/
theorem ItchMain.main_sameBooks {k : Kernel} {argv : List String} {cfg : Config} (h : Held)
    (hargs : parseArgs argv = .ok cfg) (hrange : cfg.InRange) (h30 : cfg.maxOrders.toNat ≤ 2 ^ 30)
    {fs : List (List UInt8)} {rest file : List UInt8} (hseeks : k.Seeks cfg.itchFile file)
    (hsplit : Splits frames fs rest file) (hend : Stuck frames rest)
    (hsafe : ∀ locate, (create cfg.priceBand.toNat cfg.maxOrders.toNat).AlongRun SafeErases
      (callsTo locate (Market.log (fresh cfg.priceBand.toNat cfg.maxOrders.toNat)
        cfg.allowedLocates {} (messagesOf fs rest)))) :
    ∃ (m : Market (OrderBook IdMap)) (m' : Market (OrderBook FinMap)),
      main k h (create cfg.priceBand.toNat cfg.maxOrders.toNat).idMap argv =
        some (h, .replayed m) ∧
      main k h FinMap.init argv = some (h, .replayed m') ∧ m.refOwner = m'.refOwner ∧
      ∀ locate, m.book locate = none ∧ m'.book locate = none ∨
        ∃ c d, m.book locate = some c ∧ m'.book locate = some d ∧ c.SameBook d := by
  obtain ⟨_, m, m', hm, hm', htwin⟩ := parse_twin hrange.band.1 hrange.band.2 hrange.orders.1 h30
    hsplit hend hsafe
  obtain ⟨fd, hmap⟩ := mapFile_seeks h hseeks
  refine ⟨m, m', ?_, ?_, htwin.sameBooks⟩
  · simp only [main, hargs, hmap, new_create hrange.orders.2, hm, Option.bind_eq_bind,
      Option.bind_some, closed_unmapped]
  · have hm' : parseItchFile (OrderBook.new cfg.priceBand.toNat cfg.maxOrders.toNat FinMap.init)
        cfg.allowedLocates file {} = some m' := hm'
    simp only [main, hargs, hmap, hm', Option.bind_eq_bind, Option.bind_some, closed_unmapped]

/-- All tickers, of which the feed has two. -/
def ItchMain.allArgs : List String :=
  "itch_replay" :: "feed.bin" :: "trades.csv" :: "--all-tickers" :: sampleOpts.map Opt.text

theorem ItchMain.main_sameBooks_allTickers :
    ∃ (m : Market (OrderBook IdMap)) (m' : Market (OrderBook FinMap)),
      main (MmapParser.oneFile (addSeven ++ addEight ++ deleteSeven)) {} (create 16 4).idMap
        allArgs = some ({}, .replayed m) ∧
      main (MmapParser.oneFile (addSeven ++ addEight ++ deleteSeven)) {} FinMap.init allArgs =
        some ({}, .replayed m') ∧ m.refOwner = m'.refOwner ∧
      ∀ locate, m.book locate = none ∧ m'.book locate = none ∨
        ∃ c d, m.book locate = some c ∧ m'.book locate = some d ∧ c.SameBook d := by
  have hargs : parseArgs allArgs = .ok sampleConfig := rfl
  have hrange : sampleConfig.InRange := ⟨by decide, by decide⟩
  -- the numbers of the configuration reduce to 16 and 4 only after it is known
  have hmain := main_sameBooks {} hargs hrange (by decide) (oneFile_seeks _ _) splits_twoTickers
    stuck_nil safe_twoTickers
  exact hmain

end Mains

end Nanomatch
