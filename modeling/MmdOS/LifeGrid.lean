import Mathlib.Data.Finset.Dedup
import Mathlib.Data.Finset.Prod

/-!
# Conway's game of life on a bounded grid

A grid has finitely many rows and columns, and there is nothing beyond its edges.  A
step decides for all cells at once which of them will be alive.
-/

namespace LifeGrid

abbrev Grid := Int → Int → Bool

variable (rows columns : Nat)

def Inside (row column : Int) : Prop :=
  0 ≤ row ∧ row < rows ∧ 0 ≤ column ∧ column < columns

instance (row column : Int) : Decidable (Inside rows columns row column) :=
  inferInstanceAs (Decidable (_ ∧ _))

/-- The other cells of the grid whose row and column differ by at most one. -/
def neighbours (row column : Int) : Finset (Int × Int) :=
  (({row - 1, row, row + 1} : Finset Int) ×ˢ ({column - 1, column, column + 1} : Finset Int)).filter
    fun cell => cell ≠ (row, column) ∧ Inside rows columns cell.1 cell.2

def aliveAround (grid : Grid) (row column : Int) : Nat :=
  ((neighbours rows columns row column).filter fun cell => grid cell.1 cell.2 = true).card

def survives (alive : Bool) (count : Nat) : Bool :=
  if alive then count = 2 ∨ count = 3 else count = 3

def step (grid : Grid) : Grid :=
  fun row column => survives (grid row column) (aliveAround rows columns grid row column)

def directions : List (Int × Int) :=
  [(0, -1), (0, 1), (-1, 0), (1, 0), (-1, -1), (-1, 1), (1, -1), (1, 1)]

variable {rows columns} {row column : Int}

theorem mem_directions {down right : Int} :
    (down, right) ∈ directions ↔
      -1 ≤ down ∧ down ≤ 1 ∧ -1 ≤ right ∧ right ≤ 1 ∧ (down, right) ≠ (0, 0) := by
  simp only [directions, List.mem_cons, Prod.mk.injEq, List.not_mem_nil, or_false, Ne]
  omega

theorem mem_neighbours {cell : Int × Int} :
    cell ∈ neighbours rows columns row column ↔
      ∃ direction ∈ directions, (row + direction.1, column + direction.2) = cell ∧
        Inside rows columns cell.1 cell.2 := by
  obtain ⟨first, second⟩ := cell
  simp only [neighbours, Finset.mem_filter, Finset.mem_product, Finset.mem_insert,
    Finset.mem_singleton, Ne, Prod.mk.injEq]
  constructor
  · rintro ⟨near, other, inside⟩
    refine ⟨(first - row, second - column), mem_directions.mpr ?_, ?_, inside⟩
    · simp only [Ne, Prod.mk.injEq]
      omega
    · dsimp only
      omega
  · rintro ⟨⟨down, right⟩, member, ⟨rfl, rfl⟩, inside⟩
    rw [mem_directions, Ne, Prod.mk.injEq] at member
    refine ⟨by dsimp only; omega, by dsimp only; omega, inside⟩

theorem aliveAround_eq (grid : Grid) (row column : Int) :
    aliveAround rows columns grid row column =
      directions.countP fun direction =>
        decide (Inside rows columns (row + direction.1) (column + direction.2)) &&
          grid (row + direction.1) (column + direction.2) := by
  let shift : Int × Int → Int × Int := fun direction => (row + direction.1, column + direction.2)
  have injective : Function.Injective shift := by
    intro first second same
    simp only [shift, Prod.mk.injEq, Int.add_right_inj] at same
    exact Prod.ext same.1 same.2
  let alive : Int × Int → Bool := fun cell =>
    decide (Inside rows columns cell.1 cell.2) && grid cell.1 cell.2
  -- Different directions lead to different cells, so that no cell is counted twice.
  have nodup : ((directions.map shift).filter alive).Nodup :=
    List.Nodup.filter _ (List.Nodup.map injective (by decide))
  have cells : (neighbours rows columns row column).filter (fun cell => grid cell.1 cell.2 = true) =
      ((directions.map shift).filter alive).toFinset := by
    ext cell
    simp only [Finset.mem_filter, mem_neighbours, List.mem_toFinset, List.mem_filter, List.mem_map,
      alive, shift, Bool.and_eq_true, decide_eq_true_eq]
    constructor
    · rintro ⟨⟨direction, member, same, inside⟩, isAlive⟩
      exact ⟨⟨direction, member, same⟩, inside, isAlive⟩
    · rintro ⟨⟨direction, member, same⟩, inside, isAlive⟩
      exact ⟨⟨direction, member, same, inside⟩, isAlive⟩
  rw [aliveAround, cells, List.toFinset_card_of_nodup nodup, ← List.countP_eq_length_filter,
    List.countP_map]
  rfl

def Margin (columns margin : Nat) (grid : Grid) : Prop :=
  ∀ row column, grid row column = true → margin ≤ column ∧ column + margin < columns

/-- Life spreads by one column in a step. -/
theorem Margin.step {margin : Nat} {grid : Grid} (apart : Margin columns (margin + 1) grid) :
    Margin columns margin (step rows columns grid) := by
  intro row column willLive
  by_cases alive : grid row column = true
  · have := apart row column alive
    omega
  · rw [LifeGrid.step, survives, if_neg alive, decide_eq_true_eq, aliveAround] at willLive
    obtain ⟨cell, member⟩ := Finset.card_pos.mp (Nat.lt_of_lt_of_eq (Nat.succ_pos 2) willLive.symm)
    obtain ⟨isNeighbour, cellAlive⟩ := Finset.mem_filter.mp member
    obtain ⟨direction, isDirection, rfl, -⟩ := mem_neighbours.mp isNeighbour
    have near := mem_directions.mp isDirection
    have := apart _ _ cellAlive
    dsimp only at this
    omega

end LifeGrid
