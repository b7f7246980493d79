import Mathlib.Data.List.Basic
import Mathlib.Data.Nat.Notation

/-!
# Tables of numbers as text

A table is written row by row, the decimal digits of the numbers of a row with commas between them.
Neither a comma nor a line break is a digit, so the rows and their numbers are read back.
-/

namespace Csv

variable {c : Char} {ns : List ℕ} {rows : List (List ℕ)}

def line (ns : List ℕ) : List Char := [','].intercalate (ns.map (Nat.toDigits 10))

def text (rows : List (List ℕ)) : List Char := rows.flatMap fun ns => line ns ++ ['\n']

def readLine (l : List Char) : List ℕ := (l.splitOn ',').map (Nat.ofDigitChars 10 · 0)

/-- The numbers of the lines, each of which ends in a line break. -/
def read (l : List Char) : List (List ℕ) := (l.splitOn '\n').dropLast.map readLine

theorem notMem_toDigits (hc : c.isDigit = false) (n : ℕ) : c ∉ Nat.toDigits 10 n := fun hmem =>
  Bool.noConfusion (hc.symm.trans (Nat.isDigit_of_mem_toDigits (by decide) (by decide) hmem))

theorem splitOn_line (hne : ns ≠ []) : (line ns).splitOn ',' = ns.map (Nat.toDigits 10) := by
  refine List.splitOn_intercalate ',' (fun l hl => ?_) (mt List.map_eq_nil_iff.1 hne)
  obtain ⟨n, -, rfl⟩ := List.mem_map.1 hl
  exact notMem_toDigits (by decide) n

theorem readLine_line (hne : ns ≠ []) : readLine (line ns) = ns := by
  rw [readLine, splitOn_line hne, List.map_map]
  exact (List.map_congr_left fun n _ => Nat.ofDigitChars_ten_toDigits).trans (List.map_id ns)

/-- No line break is within a line. -/
theorem notMem_line (hc : c.isDigit = false) (hcomma : c ≠ ',') : ∀ ns : List ℕ, c ∉ line ns
  | [] => List.not_mem_nil
  | [n] => by
    rw [line, List.map_singleton, List.intercalate_singleton]
    exact notMem_toDigits hc n
  | n :: n' :: ns => by
    have ih := notMem_line hc hcomma (n' :: ns)
    rw [line, List.map_cons, List.map_cons, List.intercalate_cons_cons, ← List.map_cons]
    simp only [List.mem_append, List.mem_singleton, not_or]
    exact ⟨⟨notMem_toDigits hc n, hcomma⟩, ih⟩

theorem splitOn_text (rows : List (List ℕ)) :
    (text rows).splitOn '\n' = rows.map line ++ [[]] := by
  induction rows with
  | nil => exact List.splitOn_nil _
  | cons ns rows ih =>
    have hline : '\n' ∉ line ns := notMem_line (by decide) (by decide) ns
    rw [text, List.flatMap_cons, List.append_assoc, List.singleton_append,
      List.splitOn_append_cons_self_of_not_mem hline, List.map_cons, List.cons_append]
    exact congrArg _ ih

/-- A table without empty rows is read back. -/
theorem read_text (h : ∀ ns ∈ rows, ns ≠ []) : read (text rows) = rows := by
  rw [read, splitOn_text, List.dropLast_concat, List.map_map]
  exact (List.map_congr_left fun ns hns => readLine_line (h ns hns)).trans (List.map_id rows)

end Csv
