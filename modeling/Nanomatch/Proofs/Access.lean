import Nanomatch.OrderBook
import Nanomatch.Proofs.Bitmap

/-!
# What the book's accessors do in range

Each checked access, when its index is in range, is one of three total updates: of an order
(`setOrder`), of a level (`setLevel`) or of a bitmap. The simp lemmas say which parts of the book
each of them changes.
-/

namespace Nanomatch

open WordBits

/-- A step of a computation that succeeds is followed by the rest of it. -/
theorem bind_some {α β : Type*} {x : Option α} {f : α → Option β} {a : α} {b : Option β}
    (hx : x = some a) (hf : f a = b) : x.bind f = b := by
  rw [hx]
  exact hf

namespace OrderBook

variable {M : Type} (c : OrderBook M)

def setOrder (s : ℕ) (o : Order) : OrderBook M :=
  { c with pool := { c.pool with pool := c.pool.pool.put s o } }

def setLevel (sd : Side) (i : ℕ) (l : PriceLevel) : OrderBook M :=
  c.setLevels ((c.levels sd).put i l) sd

section Fields

variable (s i : ℕ) (o : Order) (l : PriceLevel) (sd sd' : Side) (levels : Cells PriceLevel)
  (bm : Bitmap)

@[simp] theorem setOrder_pool : (c.setOrder s o).pool.pool = c.pool.pool.put s o := rfl
@[simp] theorem setOrder_freeHead : (c.setOrder s o).pool.freeHead = c.pool.freeHead := rfl
@[simp] theorem setOrder_levels : (c.setOrder s o).levels sd = c.levels sd := by cases sd <;> rfl
@[simp] theorem setOrder_bitmap : (c.setOrder s o).bitmap sd = c.bitmap sd := by cases sd <;> rfl
@[simp] theorem setOrder_tob : (c.setOrder s o).tob = c.tob := rfl
@[simp] theorem setOrder_base : (c.setOrder s o).base = c.base := rfl
@[simp] theorem setOrder_baseSet : (c.setOrder s o).baseSet = c.baseSet := rfl
@[simp] theorem setOrder_live : (c.setOrder s o).liveOrderCount = c.liveOrderCount := rfl
@[simp] theorem setOrder_logger : (c.setOrder s o).logger = c.logger := rfl
@[simp] theorem setOrder_idMap : (c.setOrder s o).idMap = c.idMap := rfl

@[simp] theorem setLevel_pool : (c.setLevel sd i l).pool = c.pool := by cases sd <;> rfl
@[simp] theorem setLevel_levels : (c.setLevel sd i l).levels sd' =
    if sd' = sd then (c.levels sd).put i l else c.levels sd' := by
  cases sd <;> cases sd' <;> rfl
@[simp] theorem setLevel_bitmap : (c.setLevel sd i l).bitmap sd' = c.bitmap sd' := by
  cases sd <;> cases sd' <;> rfl
@[simp] theorem setLevel_tob : (c.setLevel sd i l).tob = c.tob := by cases sd <;> rfl
@[simp] theorem setLevel_base : (c.setLevel sd i l).base = c.base := by cases sd <;> rfl
@[simp] theorem setLevel_baseSet : (c.setLevel sd i l).baseSet = c.baseSet := by cases sd <;> rfl
@[simp] theorem setLevel_live : (c.setLevel sd i l).liveOrderCount = c.liveOrderCount := by
  cases sd <;> rfl
@[simp] theorem setLevel_logger : (c.setLevel sd i l).logger = c.logger := by cases sd <;> rfl
@[simp] theorem setLevel_idMap : (c.setLevel sd i l).idMap = c.idMap := by cases sd <;> rfl

@[simp] theorem setBitmap_pool : (c.setBitmap bm sd).pool = c.pool := by cases sd <;> rfl
@[simp] theorem setBitmap_levels : (c.setBitmap bm sd).levels sd' = c.levels sd' := by
  cases sd <;> cases sd' <;> rfl
@[simp] theorem setBitmap_bitmap : (c.setBitmap bm sd).bitmap sd' =
    if sd' = sd then bm else c.bitmap sd' := by
  cases sd <;> cases sd' <;> rfl
@[simp] theorem setBitmap_tob : (c.setBitmap bm sd).tob = c.tob := by cases sd <;> rfl
@[simp] theorem setBitmap_base : (c.setBitmap bm sd).base = c.base := by cases sd <;> rfl
@[simp] theorem setBitmap_baseSet : (c.setBitmap bm sd).baseSet = c.baseSet := by cases sd <;> rfl
@[simp] theorem setBitmap_live : (c.setBitmap bm sd).liveOrderCount = c.liveOrderCount := by
  cases sd <;> rfl
@[simp] theorem setBitmap_logger : (c.setBitmap bm sd).logger = c.logger := by cases sd <;> rfl
@[simp] theorem setBitmap_idMap : (c.setBitmap bm sd).idMap = c.idMap := by cases sd <;> rfl

end Fields

section Run

variable {c} {s i p : ℕ} {sd : Side}

theorem readOrder_of_lt (h : s < c.pool.pool.size) : c.readOrder s = some (c.pool.pool.cell s) :=
  Cells.read_of_lt h

theorem modifyOrder_of_lt (h : s < c.pool.pool.size) (f : Order → Order) :
    c.modifyOrder s f = some (c.setOrder s (f (c.pool.pool.cell s))) := by
  rw [modifyOrder, Cells.modify_of_lt h]; rfl

theorem readLevel_of_lt (h : i < (c.levels sd).size) :
    c.readLevel sd i = some ((c.levels sd).cell i) := Cells.read_of_lt h

theorem modifyLevel_of_lt (h : i < (c.levels sd).size) (f : PriceLevel → PriceLevel) :
    c.modifyLevel sd i f = some (c.setLevel sd i (f ((c.levels sd).cell i))) := by
  rw [modifyLevel, Cells.modify_of_lt h]; rfl

theorem setBit_of_lt (sd : Side) (h : p / 64 < (c.bitmap sd).size) :
    ∃ bm, c.setBit sd p = some (c.setBitmap bm sd) ∧ bm.size = (c.bitmap sd).size ∧
      ∀ q, bitAt bm q = (bitAt (c.bitmap sd) q || decide (q = p)) := by
  obtain ⟨bm, hbm, h1⟩ := Bitmap.setBit_of_lt h
  exact ⟨bm, by rw [setBit, hbm]; rfl, h1⟩

theorem clearBit_of_lt (sd : Side) (h : p / 64 < (c.bitmap sd).size) :
    ∃ bm, c.clearBit sd p = some (c.setBitmap bm sd) ∧ bm.size = (c.bitmap sd).size ∧
      ∀ q, bitAt bm q = (bitAt (c.bitmap sd) q && decide (q ≠ p)) := by
  obtain ⟨bm, hbm, h1⟩ := Bitmap.clearBit_of_lt h
  exact ⟨bm, by rw [clearBit, hbm]; rfl, h1⟩

end Run

end OrderBook

end Nanomatch
