import Nanomatch.View

/-!
# The ledger of a run

Where the quantity of an order can be: inserted, traded, taken out by a call on its id, resting,
left over by its own insert, or dropped with a level that a move of the window left behind. Each
amount is read off the book before a call or after the run.
-/

namespace Nanomatch

/-- The quantity of the trades that the order `k` takes part in, on either side. -/
def tradedQty (trades : List Trade) (k : OrderId) : ℕ :=
  ((trades.filter fun t => t.makerId = k ∨ t.takerId = k).map Trade.qty).sum

namespace OrderBook

variable {M : Type} (c : OrderBook M)

/-- The quantity of the orders in the list that have the id `k`. -/
def qtyWith (orders : List Order) (k : OrderId) : ℕ :=
  ((orders.filter (·.id = k)).map Order.qty).sum

def restingQty (k : OrderId) : ℕ := qtyWith (c.resting .BUY ++ c.resting .SELL) k

def insertedQty : Op → OrderId → ℕ
  | .insertLimitOrder id _ _ qty, k => if id = k then qty.toNat else 0
  | _, _ => 0

/-- The quantity of the orders that a move of the window drops. -/
def droppedQty : Op → OrderId → ℕ
  | .insertLimitOrder _ _ price _, k =>
    if c.Moves price.toNat then
      qtyWith ((c.resting .BUY ++ c.resting .SELL).filter fun o =>
        ¬ c.Keeps (centeredBase c.bids.size price.toNat) (c.absPrice o)) k
    else 0
  | _, _ => 0

variable [IdMapOps M]

/-- The quantity of the order that the id map finds under `id`. -/
def foundQty (id : OrderId) : ℕ :=
  match c.findId id with
  | none => 0
  | some idx => if idx = NULL_IDX then 0 else (c.pool.pool.cell idx).qty

/-- What a call of `cancel_order` or `reduce_order_qty` takes out of the order `k`. -/
def removedQty : Op → OrderId → ℕ
  | .cancelOrder id, k => if id = k then c.foundQty id else 0
  | .reduceOrderQty id cancelQty, k => if id = k then min cancelQty.toNat (c.foundQty id) else 0
  | _, _ => 0

/-- `remaining` in `insert_limit_order`, once the order has been matched; all of `qty` if the
price stays outside the window. -/
def remaining (s : OrderBook M) (id : OrderId) (side : Side) (price qty : ℕ) : Option ℕ := do
  let s := s.anchor price
  let s ←
    (if ¬ s.inBand (s.toIdx price) ∧ s.liveOrderCount ≤ BOOTSTRAP_REBASE_LIMIT then
      s.rebaseBase (centeredBase s.bids.size price)
    else some s)
  if ¬ s.inBand (s.toIdx price) then some qty else
    let pidx := (s.toIdx price).toNat
    let r ←
      (match side with
      | .BUY => s.matchAgainstAsks id pidx qty
      | .SELL => s.matchAgainstBids id pidx qty)
    some r.2

/-- What is left over of the order `k` by its insert, if the insert returns false. -/
def unfilledQty : Op → OrderId → ℕ
  | .insertLimitOrder id side price qty, k =>
    if id = k ∧ (c.insertLimitOrder id side price.toNat qty.toNat).map (·.2) = some false then
      (c.remaining id side price.toNat qty.toNat).getD 0
    else 0
  | _, _ => 0

/-- The sum of an amount over the calls of a run. -/
def sumAlong (f : OrderBook M → Op → ℕ) : OrderBook M → List Op → ℕ
  | _, [] => 0
  | c, op :: ops => f c op +
    match c.step op with
    | none => 0
    | some (c', _) => sumAlong f c' ops

/-- The id that a call inserts. -/
def Op.insertedId : Op → Option OrderId
  | .insertLimitOrder id _ _ _ => some id
  | _ => none

/-- Every insert of the run has a nonzero id that no other insert has. -/
def FreshIds (ops : List Op) : Prop :=
  (ops.filterMap Op.insertedId).Nodup ∧ 0 ∉ ops.filterMap Op.insertedId

instance (ops : List Op) : Decidable (FreshIds ops) := inferInstanceAs (Decidable (_ ∧ _))

end OrderBook

end Nanomatch
