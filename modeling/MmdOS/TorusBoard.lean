import Mathlib.Tactic.Ring
import Mathlib.Tactic.Linarith

/-!
# Moves on a board whose edges meet

A board has rows and columns, and its cells are numbered row by row.  A move leads to
the next cell in one of four directions; beyond an edge it continues at the opposite
one.
-/

namespace TorusBoard

abbrev Cell := Int × Int

inductive Heading
  | up
  | down
  | right
  | left
  deriving DecidableEq

variable (height width : Int)

def move : Heading → Cell → Cell
  | .up, (row, column) => ((row - 1) % height, column)
  | .down, (row, column) => ((row + 1) % height, column)
  | .right, (row, column) => (row, (column + 1) % width)
  | .left, (row, column) => (row, (column - 1) % width)

/-- Two cells differ by one row or by one column. -/
def Adjacent (cell next : Cell) : Prop :=
  ∃ heading, next = move height width heading cell

def OnBoard (cell : Cell) : Prop :=
  0 ≤ cell.1 ∧ cell.1 < height ∧ 0 ≤ cell.2 ∧ cell.2 < width

def index (cell : Cell) : Int := cell.1 * width + cell.2

def cellAt (number : Int) : Cell := (number / width, number % width)

variable {height width} {cell : Cell}

/-- A move keeps the row or the column. -/
theorem Adjacent.row_or_column {next : Cell} (adjacent : Adjacent height width cell next) :
    next.1 = cell.1 ∨ next.2 = cell.2 := by
  obtain ⟨heading, rfl⟩ := adjacent
  cases heading with
  | up => exact .inr rfl
  | down => exact .inr rfl
  | right => exact .inl rfl
  | left => exact .inl rfl

theorem move_onBoard (rows : 0 < height) (columns : 0 < width)
    (onBoard : OnBoard height width cell) (heading : Heading) :
    OnBoard height width (move height width heading cell) := by
  obtain ⟨row, column⟩ := cell
  obtain ⟨rowNonneg, rowLt, columnNonneg, columnLt⟩ := onBoard
  have wraps : ∀ {size : Int} (number : Int), 0 < size → 0 ≤ number % size ∧ number % size < size :=
    fun number positive =>
      ⟨Int.emod_nonneg _ (ne_of_gt positive), Int.emod_lt_of_pos _ positive⟩
  cases heading with
  | up => exact ⟨(wraps _ rows).1, (wraps _ rows).2, columnNonneg, columnLt⟩
  | down => exact ⟨(wraps _ rows).1, (wraps _ rows).2, columnNonneg, columnLt⟩
  | right => exact ⟨rowNonneg, rowLt, (wraps _ columns).1, (wraps _ columns).2⟩
  | left => exact ⟨rowNonneg, rowLt, (wraps _ columns).1, (wraps _ columns).2⟩

theorem cellAt_index (onBoard : OnBoard height width cell) :
    cellAt width (index width cell) = cell := by
  obtain ⟨row, column⟩ := cell
  obtain ⟨_, _, columnNonneg, columnLt⟩ := onBoard
  have columns : width ≠ 0 := by
    dsimp only at columnNonneg columnLt
    omega
  simp only [cellAt, index, Prod.mk.injEq]
  rw [Int.add_comm, Int.add_mul_ediv_right _ _ columns, Int.add_mul_emod_self_right]
  rw [Int.ediv_eq_zero_of_lt columnNonneg columnLt, Int.emod_eq_of_lt columnNonneg columnLt]
  exact ⟨Int.zero_add _, rfl⟩

theorem index_nonneg (onBoard : OnBoard height width cell) : 0 ≤ index width cell := by
  obtain ⟨rowNonneg, _, columnNonneg, columnLt⟩ := onBoard
  have columns : 0 ≤ width := by omega
  exact Int.add_nonneg (Int.mul_nonneg rowNonneg columns) columnNonneg

theorem index_lt (onBoard : OnBoard height width cell) : index width cell < height * width := by
  obtain ⟨_, rowLt, columnNonneg, columnLt⟩ := onBoard
  have columns : 0 ≤ width := by omega
  calc cell.1 * width + cell.2 < cell.1 * width + width := by omega
    _ = (cell.1 + 1) * width := by ring
    _ ≤ height * width := Int.mul_le_mul_of_nonneg_right rowLt columns

theorem cellAt_onBoard (columns : 0 < width) {number : Int} (nonneg : 0 ≤ number)
    (small : number < height * width) : OnBoard height width (cellAt width number) :=
  ⟨Int.ediv_nonneg nonneg columns.le, Int.ediv_lt_of_lt_mul columns small,
    Int.emod_nonneg _ (ne_of_gt columns), Int.emod_lt_of_pos _ columns⟩

end TorusBoard
