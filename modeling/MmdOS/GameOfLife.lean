import MmdOS.CString
import MmdOS.LifeGrid

/-!
# A step of the game of life

The grid of the program is one array, and a neighbour is an index of sixteen bits
that is compared with the size of the array.  The comparison recognises what lies
above the first row, but the cell after the last one of a row is the first one of the
next, and the index of the cell behind the array passes.
-/

namespace MmdOS

open CString LifeGrid

variable {i j : Nat}

/-- `GOL_WIDTH`, the number of rows. -/
def golWidth : Nat := 40

/-- `GOL_HEIGHT`, the number of columns. -/
def golHeight : Nat := 70

def golCi (i j : Nat) : Nat := i * golHeight + j

def golInitCells (cells : Stream) : Stream :=
  fun index => if index < golWidth * golHeight then 0#8 else cells index

/-- The array `indeces` of `gol_get_alive_neighbors`: the sums are numbers with a
sign, cut to sixteen bits. -/
def golIndices (i j : BitVec 8) : List (BitVec 16) :=
  let row : Int := i.toNat
  let column : Int := j.toNat
  let height : Int := golHeight
  [row * height + (column - 1), row * height + (column + 1),
    (row - 1) * height + column, (row + 1) * height + column,
    (row - 1) * height + (column - 1), (row - 1) * height + (column + 1),
    (row + 1) * height + (column - 1), (row + 1) * height + (column + 1)].map (BitVec.ofInt 16)

def golRead (index : BitVec 16) : Bool :=
  ¬ (index.toNat > golWidth * golHeight)

def golGetAliveNeighbors (cells : Stream) (i j : BitVec 8) : Nat :=
  (golIndices i j).foldl
    (fun count index =>
      if ¬ golRead index then count
      else if cells index.toNat ≠ 0#8 then count + 1
      else count) 0

structure GolLists where
  toBeKilled : List (BitVec 16)
  toBeRevived : List (BitVec 16)

def golPositions : List (Nat × Nat) :=
  (List.range golWidth).flatMap fun i => (List.range golHeight).map fun j => (i, j)

def golIndex (position : Nat × Nat) : BitVec 16 :=
  BitVec.ofNat 16 (golCi position.1 position.2)

def golCount (cells : Stream) (position : Nat × Nat) : Nat :=
  golGetAliveNeighbors cells (BitVec.ofNat 8 position.1) (BitVec.ofNat 8 position.2)

def golVisit (cells : Stream) (lists : GolLists) (position : Nat × Nat) : GolLists :=
  let index := golIndex position
  let neighborCount := golCount cells position
  if cells index.toNat ≠ 0#8 then
    if neighborCount < 2 ∨ neighborCount > 3 then
      { lists with toBeKilled := lists.toBeKilled ++ [index] }
    else lists
  else if neighborCount = 3 then
    { lists with toBeRevived := lists.toBeRevived ++ [index] }
  else lists

def golLists (cells : Stream) : GolLists :=
  golPositions.foldl (golVisit cells) ⟨[], []⟩

def golStore (value : Byte) (indices : List (BitVec 16)) (cells : Stream) : Stream :=
  indices.foldl (fun cells index => Function.update cells index.toNat value) cells

def golUpdate (cells : Stream) : Stream :=
  let lists := golLists cells
  golStore 1#8 lists.toBeRevived (golStore 0#8 lists.toBeKilled cells)

/-- The indices at which `gol_update` reads or writes the array. -/
def golAccesses (cells : Stream) : List Nat :=
  golPositions.flatMap (fun position =>
      ((golIndices (BitVec.ofNat 8 position.1) (BitVec.ofNat 8 position.2)).filter golRead).map
          BitVec.toNat ++
        [(golIndex position).toNat]) ++
    (golLists cells).toBeKilled.map BitVec.toNat ++
    (golLists cells).toBeRevived.map BitVec.toNat

def storedGrid (grid : Grid) (behind : Stream) : Stream :=
  fun index =>
    if index < golWidth * golHeight then
      if grid (index / golHeight : Nat) (index % golHeight : Nat) then 1#8 else 0#8
    else behind index

theorem mem_golPositions : (i, j) ∈ golPositions ↔ i < golWidth ∧ j < golHeight := by
  simp [golPositions]

theorem toNat_golIndex (row : i < golWidth) (column : j < golHeight) :
    (golIndex (i, j)).toNat = golCi i j := by
  rw [golWidth] at row
  rw [golHeight] at column
  simp only [golIndex, golCi, golHeight, BitVec.toNat_ofNat]
  omega

theorem golCi_inj {row column : Nat} (inside : j < golHeight) (inside' : column < golHeight)
    (same : golCi i j = golCi row column) : i = row ∧ j = column := by
  simp only [golCi, golHeight] at same inside inside'
  omega

def golCell (cell : Byte) (count : Nat) : Byte :=
  if cell ≠ 0#8 then (if count < 2 ∨ count > 3 then 0#8 else cell)
  else if count = 3 then 1#8 else cell

def golDies (cells : Stream) (position : Nat × Nat) : Bool :=
  cells (golIndex position).toNat ≠ 0#8 ∧
    (golCount cells position < 2 ∨ golCount cells position > 3)

def golBorn (cells : Stream) (position : Nat × Nat) : Bool :=
  cells (golIndex position).toNat = 0#8 ∧ golCount cells position = 3

theorem golVisit_eq (cells : Stream) (lists : GolLists) (position : Nat × Nat) :
    golVisit cells lists position =
      ⟨lists.toBeKilled ++ if golDies cells position then [golIndex position] else [],
        lists.toBeRevived ++ if golBorn cells position then [golIndex position] else []⟩ := by
  unfold golVisit golDies golBorn
  by_cases alive : cells (golIndex position).toNat = 0#8
  · by_cases three : golCount cells position = 3 <;> simp [alive, three]
  · by_cases dies : golCount cells position < 2 ∨ golCount cells position > 3
    · simp only [alive, dies, ne_eq, not_false_eq_true, if_true, and_self, decide_true, false_and,
        decide_false, Bool.false_eq_true, if_false, List.append_nil]
    · simp only [alive, dies, ne_eq, not_false_eq_true, if_true, and_false, false_and,
        decide_false, Bool.false_eq_true, if_false, List.append_nil]

theorem foldl_golVisit (cells : Stream) (positions : List (Nat × Nat)) (lists : GolLists) :
    positions.foldl (golVisit cells) lists =
      ⟨lists.toBeKilled ++ (positions.filter (golDies cells)).map golIndex,
        lists.toBeRevived ++ (positions.filter (golBorn cells)).map golIndex⟩ := by
  induction positions generalizing lists with
  | nil => simp
  | cons position positions induction =>
      rw [List.foldl_cons, induction, golVisit_eq]
      by_cases dies : golDies cells position <;> by_cases born : golBorn cells position <;>
        simp [dies, born]

theorem golLists_eq (cells : Stream) :
    golLists cells =
      ⟨(golPositions.filter (golDies cells)).map golIndex,
        (golPositions.filter (golBorn cells)).map golIndex⟩ := by
  rw [golLists, foldl_golVisit]
  rfl

theorem golStore_apply (value : Byte) (indices : List (BitVec 16)) (cells : Stream) (index : Nat) :
    golStore value indices cells index =
      if index ∈ indices.map BitVec.toNat then value else cells index := by
  unfold golStore
  induction indices generalizing cells with
  | nil => simp
  | cons first indices induction =>
      rw [List.foldl_cons, induction, List.map_cons]
      by_cases later : index ∈ indices.map BitVec.toNat
      · rw [if_pos later, if_pos (List.mem_cons_of_mem _ later)]
      · by_cases here : index = first.toNat
        · subst here
          simp
        · simp only [later, here, List.mem_cons, or_self, if_false]
          exact Function.update_of_ne here _ _

theorem golCi_mem_map (row : i < golWidth) (column : j < golHeight) (listed : Nat × Nat → Bool) :
    golCi i j ∈ ((golPositions.filter listed).map golIndex).map BitVec.toNat ↔
      listed (i, j) = true := by
  simp only [List.mem_map, List.mem_filter, exists_exists_and_eq_and]
  constructor
  · rintro ⟨⟨first, second⟩, ⟨member, isListed⟩, same⟩
    obtain ⟨firstLt, secondLt⟩ := mem_golPositions.mp member
    rw [toNat_golIndex firstLt secondLt] at same
    obtain ⟨rfl, rfl⟩ := golCi_inj secondLt column same
    exact isListed
  · intro isListed
    exact ⟨(i, j), ⟨mem_golPositions.mpr ⟨row, column⟩, isListed⟩, toNat_golIndex row column⟩

/-- The two lists make the update a simultaneous one: every cell is decided by the
array as it was before. -/
theorem golUpdate_apply (cells : Stream) (row : i < golWidth) (column : j < golHeight) :
    golUpdate cells (golCi i j) = golCell (cells (golCi i j)) (golCount cells (i, j)) := by
  -- A cell is on at most one list, so the order of the two loops does not matter.
  simp only [golUpdate, golStore_apply, golLists_eq, golCi_mem_map row column]
  unfold golDies golBorn golCell
  rw [toNat_golIndex row column]
  by_cases alive : cells (golCi i j) = 0#8
  · simp [alive]
  · simp [alive]

/-- Whether `gol_get_alive_neighbors` counts what it takes for the cell of a row and a
column. -/
def golCounts (cells : Stream) (row column : Int) : Bool :=
  let index := BitVec.ofInt 16 (row * golHeight + column)
  golRead index && cells index.toNat != 0#8

theorem golGetAliveNeighbors_eq (cells : Stream) (i j : BitVec 8) :
    golGetAliveNeighbors cells i j =
      directions.countP fun direction =>
        golCounts cells (i.toNat + direction.1) (j.toNat + direction.2) := by
  have counted : ∀ (indices : List (BitVec 16)) (count : Nat),
      indices.foldl
          (fun count index =>
            if ¬ golRead index then count
            else if cells index.toNat ≠ 0#8 then count + 1
            else count) count =
        count + indices.countP fun index => golRead index && cells index.toNat != 0#8 := by
    intro indices
    induction indices with
    | nil => simp
    | cons index indices induction =>
        intro count
        rw [List.foldl_cons, induction, List.countP_cons]
        by_cases read : golRead index <;> by_cases alive : cells index.toNat = 0#8 <;>
          simp [read, alive, Nat.add_assoc, Nat.add_comm 1]
  have indices : golIndices i j =
      directions.map fun direction =>
        BitVec.ofInt 16 ((i.toNat + direction.1) * golHeight + (j.toNat + direction.2)) := by
    simp [golIndices, directions, Int.sub_eq_add_neg]
  rw [golGetAliveNeighbors, counted, Nat.zero_add, indices, List.countP_map]
  rfl

section Stored

variable (grid : Grid) (behind : Stream)
variable {row column : Int}

theorem storedGrid_inside (row : i < golWidth) (column : j < golHeight) :
    storedGrid grid behind (golCi i j) = if grid i j then 1#8 else 0#8 := by
  rw [golWidth] at row
  rw [golHeight] at column
  have small : golCi i j < golWidth * golHeight := by
    simp only [golCi, golWidth, golHeight]
    omega
  have quotient : golCi i j / golHeight = i := by
    simp only [golCi, golHeight]
    omega
  have remainder : golCi i j % golHeight = j := by
    simp only [golCi, golHeight]
    omega
  rw [storedGrid, if_pos small, quotient, remainder]

/-- Above the first row and below the last one the comparison of the index leaves out
what is not there. -/
theorem golCounts_storedGrid (above : -1 ≤ row) (below : row ≤ 40) (left : 0 ≤ column)
    (right : column < 70) (corner : ¬ (row = 40 ∧ column = 0)) :
    golCounts (storedGrid grid behind) row column =
      (decide (Inside golWidth golHeight row column) && grid row column) := by
  by_cases inside : Inside golWidth golHeight row column
  · obtain ⟨i, rfl⟩ := Int.eq_ofNat_of_zero_le inside.1
    obtain ⟨j, rfl⟩ := Int.eq_ofNat_of_zero_le left
    have rowLt : i < golWidth := by exact_mod_cast inside.2.1
    have columnLt : j < golHeight := by exact_mod_cast inside.2.2.2
    have index : (BitVec.ofInt 16 ((i : Int) * golHeight + j)).toNat = golCi i j := by
      simp only [golWidth, golHeight] at rowLt columnLt
      simp only [BitVec.toNat_ofInt, golCi, golHeight]
      omega
    have read : golRead (BitVec.ofInt 16 ((i : Int) * golHeight + j)) = true := by
      rw [golRead, index, decide_eq_true_eq]
      simp only [golWidth, golHeight, golCi] at rowLt columnLt ⊢
      omega
    simp only [golCounts, read, index, storedGrid_inside grid behind rowLt columnLt, inside]
    cases grid i j <;> rfl
  · have outside : golRead (BitVec.ofInt 16 (row * golHeight + column)) = false := by
      rw [golRead, decide_eq_false_iff_not, Decidable.not_not, BitVec.toNat_ofInt]
      simp only [Inside, golWidth, golHeight] at inside ⊢
      omega
    simp [golCounts, outside, inside]

/-- Counting as the program does counts the neighbours when no index of a neighbour
leaves its row. -/
theorem golCount_storedGrid (row : i < golWidth) (column : j < golHeight)
    (counts : ∀ direction ∈ directions,
      golCounts (storedGrid grid behind) (i + direction.1) (j + direction.2) =
        (decide (Inside golWidth golHeight (i + direction.1) (j + direction.2)) &&
          grid (i + direction.1) (j + direction.2))) :
    golCount (storedGrid grid behind) (i, j) = aliveAround golWidth golHeight grid i j := by
  have rowByte : (BitVec.ofNat 8 i).toNat = i := by
    rw [golWidth] at row
    rw [BitVec.toNat_ofNat]
    omega
  have columnByte : (BitVec.ofNat 8 j).toNat = j := by
    rw [golHeight] at column
    rw [BitVec.toNat_ofNat]
    omega
  rw [golCount, golGetAliveNeighbors_eq, rowByte, columnByte, aliveAround_eq]
  apply List.countP_congr
  intro direction member
  rw [counts direction member]

theorem golCell_eq_survives (alive : Bool) (count : Nat) :
    golCell (if alive then 1#8 else 0#8) count =
      if survives alive count then 1#8 else 0#8 := by
  cases alive with
  | false => by_cases three : count = 3 <;> simp [golCell, survives, three]
  | true =>
      unfold golCell survives
      by_cases dies : count < 2 ∨ count > 3
      · have starves : ¬ (count = 2 ∨ count = 3) := by omega
        rw [if_pos (by decide), if_pos dies, if_pos rfl, decide_eq_false starves]
        rfl
      · have lives : count = 2 ∨ count = 3 := by omega
        rw [if_pos (by decide), if_neg dies, if_pos rfl, decide_eq_true lives]
        rfl

theorem golUpdate_storedGrid (row : i < golWidth) (column : j < golHeight)
    (count : golCount (storedGrid grid behind) (i, j) = aliveAround golWidth golHeight grid i j) :
    golUpdate (storedGrid grid behind) (golCi i j) =
      if step golWidth golHeight grid i j then 1#8 else 0#8 := by
  rw [golUpdate_apply _ row column, storedGrid_inside grid behind row column, count,
    golCell_eq_survives]
  rfl

/-- Between the edges the program follows the rule on every grid.  The second cell of
the last row is the only exception: it has the index behind the array for a
neighbour. -/
theorem golUpdate_between_edges {i j : Nat} (row : i < golWidth) (left : 0 < j)
    (right : j + 1 < golHeight) (corner : ¬ (i + 1 = golWidth ∧ j = 1)) :
    golUpdate (storedGrid grid behind) (golCi i j) =
      if step golWidth golHeight grid i j then 1#8 else 0#8 := by
  have column : j < golHeight := by omega
  apply golUpdate_storedGrid grid behind row column
  apply golCount_storedGrid grid behind row column
  rintro ⟨down, across⟩ member
  have near := mem_directions.mp member
  simp only [golWidth, golHeight] at row right corner
  apply golCounts_storedGrid grid behind <;> dsimp only <;> omega

theorem golUpdate_between_edges_full :
    MmdOS.golUpdate (storedGrid (fun _ _ => true) fun _ => 0#8) (golCi 1 1) =
      if step golWidth golHeight (fun _ _ => true) 1 1 then 1#8 else 0#8 :=
  golUpdate_between_edges _ _ (by decide) (by decide) (by decide) (by decide)

/-- The cells of the first and of the last column are dead, and so is the byte behind
the array. -/
structure DeadEdges : Prop where
  first : ∀ row, grid row 0 = false
  last : ∀ row, grid row 69 = false
  behind : behind 2800 = 0#8

variable {grid behind}

/-- An index that has left its row is the one of a cell at the other edge. -/
theorem DeadEdges.golCounts_storedGrid (dead : DeadEdges grid behind) (above : -1 ≤ row)
    (below : row ≤ 40) (left : -1 ≤ column) (right : column ≤ 70) :
    golCounts (storedGrid grid behind) row column =
      (decide (Inside golWidth golHeight row column) && grid row column) := by
  have seam : ∀ index : Nat, index % 70 = 0 ∨ index % 70 = 69 → index ≤ 2800 →
      storedGrid grid behind index = 0#8 := by
    intro index edge small
    rw [storedGrid]
    by_cases inside : index < golWidth * golHeight
    · rw [if_pos inside]
      obtain column | column := edge
      · rw [show index % golHeight = 0 from column]
        simp [dead.first]
      · rw [show index % golHeight = 69 from column]
        simp [dead.last]
    · rw [if_neg inside, show index = 2800 by simp only [golWidth, golHeight] at inside; omega]
      exact dead.behind
  by_cases inRow : 0 ≤ column ∧ column < 70 ∧ ¬ (row = 40 ∧ column = 0)
  · exact MmdOS.golCounts_storedGrid grid behind above below inRow.1 inRow.2.1 inRow.2.2
  · have outside : ¬ Inside golWidth golHeight row column := by
      simp only [Inside, golWidth, golHeight]
      omega
    have counts : golCounts (storedGrid grid behind) row column = false := by
      rw [golCounts, Bool.and_eq_false_iff, or_iff_not_imp_left, Bool.not_eq_false]
      intro read
      rw [golRead, decide_eq_true_eq, BitVec.toNat_ofInt] at read
      simp only [golWidth, golHeight] at read
      -- An index above the first row is too large after the cut to sixteen bits.
      have nonneg : 0 ≤ row * 70 + column := by omega
      have index : (BitVec.ofInt 16 (row * golHeight + column)).toNat =
          (row * 70 + column).toNat := by
        simp only [BitVec.toNat_ofInt, golHeight]
        omega
      rw [index, seam]
      · rfl
      · omega
      · omega
    simp [counts, outside]

theorem DeadEdges.golUpdate (dead : DeadEdges grid behind) (row : i < golWidth)
    (column : j < golHeight) :
    golUpdate (storedGrid grid behind) (golCi i j) =
      if step golWidth golHeight grid i j then 1#8 else 0#8 := by
  apply golUpdate_storedGrid grid behind row column
  apply golCount_storedGrid grid behind row column
  rintro ⟨down, across⟩ member
  have near := mem_directions.mp member
  simp only [golWidth, golHeight] at row column
  apply dead.golCounts_storedGrid <;> dsimp only <;> omega

theorem golUpdate_behind (cells : Stream) {index : Nat} (beyond : golWidth * golHeight ≤ index) :
    MmdOS.golUpdate cells index = cells index := by
  have notListed : ∀ listed : Nat × Nat → Bool,
      index ∉ ((golPositions.filter listed).map golIndex).map BitVec.toNat := by
    intro listed member
    simp only [List.mem_map, List.mem_filter, exists_exists_and_eq_and] at member
    obtain ⟨⟨i, j⟩, ⟨isPosition, -⟩, rfl⟩ := member
    obtain ⟨row, column⟩ := mem_golPositions.mp isPosition
    rw [toNat_golIndex row column, golCi] at beyond
    simp only [golWidth, golHeight] at beyond row column
    omega
  simp only [MmdOS.golUpdate, golStore_apply, golLists_eq, notListed, if_false]

theorem DeadEdges.golUpdate_eq (dead : DeadEdges grid behind) :
    MmdOS.golUpdate (storedGrid grid behind) =
      storedGrid (step golWidth golHeight grid) behind := by
  funext index
  by_cases inside : index < golWidth * golHeight
  · have row : index / golHeight < golWidth := Nat.div_lt_of_lt_mul (Nat.mul_comm _ _ ▸ inside)
    have column : index % golHeight < golHeight := Nat.mod_lt _ (by decide)
    rw [← Nat.div_add_mod' index golHeight]
    exact (dead.golUpdate row column).trans (storedGrid_inside _ behind row column).symm
  · rw [golUpdate_behind _ (Nat.le_of_not_lt inside), storedGrid, if_neg inside, storedGrid,
      if_neg inside]

/-- Generations of the game.  If all living cells are as many columns away from both sides
as there are calls of `gol_update`, and the byte behind the array is zero, then the calls
lead from each grid to the next one, and change nothing behind the array. -/
theorem golUpdate_generations {count : Nat} (apart : Margin golHeight count grid)
    (behindDead : behind 2800 = 0#8) :
    MmdOS.golUpdate^[count] (storedGrid grid behind) =
      storedGrid ((step golWidth golHeight)^[count] grid) behind := by
  induction count generalizing grid with
  | zero => rfl
  | succ count ih =>
      have dead : DeadEdges grid behind := by
        refine ⟨fun row => ?_, fun row => ?_, behindDead⟩
        · by_contra alive
          have := apart row 0 (by simpa using alive)
          omega
        · by_contra alive
          have := apart row 69 (by simpa using alive)
          rw [golHeight] at this
          omega
      rw [Function.iterate_succ_apply, Function.iterate_succ_apply, dead.golUpdate_eq]
      exact ih apart.step

theorem golUpdate_generations_blinker :
    MmdOS.golUpdate^[30]
        (storedGrid (fun row column => column = 35 ∧ 10 ≤ row ∧ row ≤ 12) fun _ => 0#8) =
      storedGrid ((step golWidth golHeight)^[30]
        fun row column => column = 35 ∧ 10 ≤ row ∧ row ≤ 12) fun _ => 0#8 := by
  refine golUpdate_generations ?_ rfl
  intro row column alive
  rw [decide_eq_true_eq] at alive
  rw [golHeight]
  omega

end Stored

def GolStep (grid : Grid) (behind : Stream) : Prop :=
  ∀ i j, i < golWidth → j < golHeight →
    golUpdate (storedGrid grid behind) (golCi i j) =
      if step golWidth golHeight grid i j then 1#8 else 0#8

def GolInBounds (grid : Grid) (behind : Stream) : Prop :=
  ∀ index ∈ golAccesses (storedGrid grid behind), index < golWidth * golHeight

/-- The cell to the right of the last one is looked at, whatever the array holds. -/
theorem mem_golAccesses_behind (cells : Stream) : 2800 ∈ golAccesses cells := by
  have neighbour : 2800 ∈
      ((golIndices (BitVec.ofNat 8 39) (BitVec.ofNat 8 69)).filter golRead).map BitVec.toNat := by
    decide
  unfold golAccesses
  apply List.mem_append_left
  apply List.mem_append_left
  apply List.mem_flatMap.mpr
  exact ⟨(39, 69), mem_golPositions.mpr ⟨by decide, by decide⟩,
    List.mem_append_left _ neighbour⟩

/-- There is no grid on which the program does the step inside the array. -/
theorem golUpdate_leaves_array (grid : Grid) (behind : Stream) :
    ¬ (GolStep grid behind ∧ GolInBounds grid behind) := by
  rintro ⟨_, inBounds⟩
  have small := inBounds 2800 (mem_golAccesses_behind _)
  exact absurd small (by decide)

def rightEdge : Grid :=
  fun row column => column = 69 ∧ 0 ≤ row ∧ row ≤ 2

/-- The cell at the left edge of the third row takes them for its neighbours, and is
born although it has none. -/
theorem golUpdate_right_edge :
    golUpdate (storedGrid rightEdge fun _ => 0#8) (golCi 2 0) = 1#8 ∧
      step golWidth golHeight rightEdge 2 0 = false ∧
      aliveAround golWidth golHeight rightEdge 2 0 = 0 ∧
      2800 ∈ golAccesses (storedGrid rightEdge fun _ => 0#8) := by
  refine ⟨?_, ?_, ?_, mem_golAccesses_behind _⟩
  · rw [golUpdate_apply _ (by decide) (by decide)]
    decide
  · rw [step, aliveAround_eq]
    decide
  · rw [aliveAround_eq]
    decide

end MmdOS
