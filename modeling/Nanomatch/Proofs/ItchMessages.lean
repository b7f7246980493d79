import Nanomatch.Proofs.ItchFraming

/-!
# What one message does

A message changes at most one book, the one it is routed to, and the owners of the ids it names. One
equation for each way a message is handled says so; an owner is always the place of a book
(`Market.Ok`), so with books whose operations return no message fails.
-/

namespace Nanomatch

variable {β : Type} {newBook b : β} {Inv : β → Prop} {m m' : Market β}
  {allowedLocates : Finset UInt16} {i locate : ℕ} {id oldId newId : OrderId}

namespace Market

section Put

/-- The market with the book `b` in place `locate`. -/
def put (m : Market β) (locate : ℕ) (b : β) : Market β :=
  { m with marketBooks := m.marketBooks.put locate (some b) }

@[simp] theorem put_refOwner : (m.put locate b).refOwner = m.refOwner := rfl

@[simp] theorem put_cell : (m.put locate b).marketBooks.cell i =
    if i = locate then some b else m.marketBooks.cell i := rfl

@[simp] theorem put_size : (m.put locate b).marketBooks.size = m.marketBooks.size := rfl

@[simp] theorem setOwner_refOwner (id' : OrderId) : (m.setOwner id locate).refOwner id' =
    if id' = id then some locate else m.refOwner id' :=
  Function.update_apply m.refOwner id (some locate) id'

@[simp] theorem setOwner_marketBooks : (m.setOwner id locate).marketBooks = m.marketBooks := rfl

@[simp] theorem eraseOwner_refOwner (id' : OrderId) : (m.eraseOwner id).refOwner id' =
    if id' = id then none else m.refOwner id' :=
  Function.update_apply m.refOwner id none id'

@[simp] theorem eraseOwner_marketBooks : (m.eraseOwner id).marketBooks = m.marketBooks := rfl

theorem setBook_of_lt (h : locate < m.marketBooks.size) :
    m.setBook locate b = some (m.put locate b) := by
  unfold setBook
  rw [Cells.modify_of_lt h]
  rfl

theorem book_of_cell (h : locate < m.marketBooks.size) (hb : m.marketBooks.cell locate = some b) :
    m.book locate = some b := by
  unfold book
  rw [Cells.read_of_lt h, hb]
  rfl

end Put

section Cases

/-- The market after an add to the book in place `locate` that left `r`. -/
def added (m : Market β) (locate : ℕ) (id : OrderId) (r : β × Bool) : Market β :=
  if r.2 then (m.put locate r.1).setOwner id locate else m.put locate r.1

/-- The market after an operation on an order of the book in place `locate` that left `r`. -/
def worked (m : Market β) (locate : ℕ) (id : OrderId) (r : β × Bool) : Market β :=
  if r.2 then (m.put locate r.1).eraseOwner id else m.put locate r.1

theorem onOwner_none (h : m.refOwner id = none) (op : β → Option (β × Bool)) :
    m.onOwner id op = some m := by
  unfold onOwner
  rw [h]

theorem onOwner_some (h : m.refOwner id = some locate) (hlt : locate < m.marketBooks.size)
    (hb : m.marketBooks.cell locate = some b) (op : β → Option (β × Bool)) :
    m.onOwner id op = (op b).map (m.worked locate id) := by
  unfold onOwner
  rw [h]
  simp only [Option.bind_eq_bind, book_of_cell hlt hb, Option.bind_some, setBook_of_lt hlt]
  rcases op b with _ | ⟨b', gone⟩ <;> rfl

variable [OrderBookOps β]

theorem addOrder_untracked {locate : UInt16} (side : Side) (price shares : UInt32)
    (h : ¬ (locate.toNat < kMaxStockLocate ∧ isTracked allowedLocates locate)) :
    m.addOrder newBook allowedLocates locate id side price shares = some m := if_neg h

theorem addOrder_tracked {locate : UInt16} (side : Side) (price shares : UInt32)
    (h : locate.toNat < kMaxStockLocate ∧ isTracked allowedLocates locate)
    (hsize : m.marketBooks.size = kMaxStockLocate) :
    m.addOrder newBook allowedLocates locate id side price shares =
      (OrderBookOps.insertLimitOrder ((m.marketBooks.cell locate.toNat).getD newBook) id side price
        shares).map (m.added locate.toNat id) := by
  have hlt : locate.toNat < m.marketBooks.size := hsize ▸ h.1
  unfold addOrder
  rw [if_pos h, Cells.read_of_lt hlt]
  simp only [Option.bind_eq_bind, Option.bind_some, setBook_of_lt hlt]
  rcases OrderBookOps.insertLimitOrder ((m.marketBooks.cell locate.toNat).getD newBook) id side
    price shares with _ | ⟨b', inserted⟩ <;> rfl

theorem replaceOrder_none (h : m.refOwner oldId = none) (newId : OrderId) (price shares : UInt32) :
    m.replaceOrder oldId newId price shares = some m := by
  unfold replaceOrder
  rw [h]

/-- The book's part of a replace. -/
def replaceIn (b : β) (oldId newId : OrderId) (idx : ℕ) (price shares : UInt32) :
    Option (β × Bool) := do
  let side ← OrderBookOps.sideOf b idx
  let b ← OrderBookOps.cancelOrder b oldId
  OrderBookOps.insertLimitOrder b newId side price shares

/-- The market after a replace in the book in place `locate` that left `r`. -/
def replaced (m : Market β) (locate : ℕ) (oldId newId : OrderId) (r : β × Bool) : Market β :=
  if r.2 then ((m.put locate r.1).eraseOwner oldId).setOwner newId locate
  else (m.put locate r.1).eraseOwner oldId

theorem replaceOrder_some (h : m.refOwner oldId = some locate) (hlt : locate < m.marketBooks.size)
    (hb : m.marketBooks.cell locate = some b) (newId : OrderId) (price shares : UInt32) :
    m.replaceOrder oldId newId price shares =
      (OrderBookOps.findId b oldId).bind fun idx =>
        if idx = NULL_IDX then some m
        else (replaceIn b oldId newId idx price shares).map (m.replaced locate oldId newId) := by
  unfold replaceOrder replaceIn
  rw [h]
  simp only [Option.bind_eq_bind, book_of_cell hlt hb, Option.bind_some, setBook_of_lt hlt]
  rcases OrderBookOps.findId b oldId with _ | idx
  · rfl
  simp only [Option.bind_some]
  split_ifs
  · rfl
  rcases OrderBookOps.sideOf b idx with _ | side
  · rfl
  rcases OrderBookOps.cancelOrder b oldId with _ | b1
  · rfl
  simp only [Option.bind_some]
  rcases OrderBookOps.insertLimitOrder b1 newId side price shares with _ | ⟨b2, inserted⟩ <;> rfl

end Cases

end Market

end Nanomatch
