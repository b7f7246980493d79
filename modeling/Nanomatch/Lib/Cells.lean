import Mathlib.Data.Nat.Notation
import Mathlib.Tactic.TypeStar

/-!
# Fixed-size arrays with checked access

A `Cells α` is a block of memory of a fixed number of cells. Reading or changing a cell at or past
the size fails, so a program over `Cells` that returns has kept every index in range.
-/

/-- A block of `size` cells; `cell i` means something for `i < size` only. -/
structure Cells (α : Type*) where
  size : ℕ
  cell : ℕ → α

namespace Cells

variable {α : Type*}

/-- `size` cells, all holding `a`. -/
def fill (size : ℕ) (a : α) : Cells α := ⟨size, fun _ => a⟩

/-- The block with cell `i` replaced. -/
def put (c : Cells α) (i : ℕ) (a : α) : Cells α :=
  { c with cell := fun j => if j = i then a else c.cell j }

def read (c : Cells α) (i : ℕ) : Option α :=
  if i < c.size then some (c.cell i) else none

def modify (c : Cells α) (i : ℕ) (f : α → α) : Option (Cells α) :=
  if i < c.size then some (c.put i (f (c.cell i))) else none

variable {c : Cells α} {i : ℕ}

@[simp] theorem put_size (c : Cells α) (i : ℕ) (a : α) : (c.put i a).size = c.size := rfl

@[simp] theorem put_cell (c : Cells α) (i j : ℕ) (a : α) :
    (c.put i a).cell j = if j = i then a else c.cell j := rfl

@[simp] theorem fill_size (n : ℕ) (a : α) : (fill n a).size = n := rfl

@[simp] theorem fill_cell (n j : ℕ) (a : α) : (fill n a).cell j = a := rfl

theorem read_of_lt (h : i < c.size) : c.read i = some (c.cell i) := if_pos h

theorem modify_of_lt (h : i < c.size) (f : α → α) :
    c.modify i f = some (c.put i (f (c.cell i))) := if_pos h

end Cells
