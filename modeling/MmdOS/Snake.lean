import Mathlib.Data.Int.Init
import MmdOS.CString
import MmdOS.TorusBoard

/-!
# The snake game

The cells of the board are numbered row by row.  To move the head, the program takes
its number apart again, by subtracting the width until nothing is left; the cells of
the first column come out as the cells behind the last column of the row above.
-/

namespace MmdOS

open CString TorusBoard
open Function (update)

variable {h : Int}

def snakeWidth : Int := 70

def snakeHeight : Int := 40

inductive CellType
  | empty
  | block
  | snakeBody
  | snakeHead
  | fruit
  deriving DecidableEq

def CellType.byte : CellType → Byte
  | .empty => 0#8
  | .block => 1#8
  | .snakeBody => 2#8
  | .snakeHead => 3#8
  | .fruit => 4#8

inductive SnakeDir
  | up
  | down
  | right
  | left
  | stop
  deriving DecidableEq

/-- `snake_state`: 0, 1 and 2. -/
inductive SnakeMode
  | menu
  | run
  | quit
  deriving DecidableEq

/-- The variables of `snake_game_loop` and the seed of `snake_rand`.  The arrays are
surrounded by whatever memory holds there. -/
structure SnakeState where
  cells : Int → Byte
  snake : Int → Int
  mode : SnakeMode
  head : Int
  direction : SnakeDir
  fruit : Int
  seed : BitVec 16

def int16 (number : Int) : Int := number.bmod 65536

/-- `snake_rand`: the number and the next seed.  The product is cut to sixteen bits, so
it does not matter how an overflow of `int` is resolved. -/
def snakeRand (min max : Int) (seed : BitVec 16) : Int × BitVec 16 :=
  let next := BitVec.ofNat 16 ((seed.toNat * 1103515245 + 12345) &&& 0x7fffffff)
  (min + next.toNat % (max - min + 1), next)

def snakeNewFruitPos (seed : BitVec 16) : Int × BitVec 16 :=
  let i := snakeRand 1 (snakeHeight - 1) seed
  let j := snakeRand 1 (snakeWidth - 1) i.2
  (i.1 * snakeWidth + j.1, j.2)

def snakeEmptyCells (cells : Int → Byte) : Int → Byte :=
  fun index =>
    if 0 ≤ index ∧ index < snakeWidth * snakeHeight then CellType.empty.byte else cells index

def snakeInitCells (cells : Int → Byte) : Int → Byte :=
  update
    (update (snakeEmptyCells cells) (snakeHeight * snakeWidth / 2 - 10)
      CellType.snakeHead.byte)
    1010 CellType.fruit.byte

def snakeInitSnake (snake : Int → Int) : Int → Int :=
  update
    (fun index => if 0 ≤ index ∧ index < snakeWidth * snakeHeight then 0 else snake index)
    0 (snakeHeight * snakeWidth / 2 - 10)

def snakeRestart (state : SnakeState) : SnakeState :=
  { state with
    mode := .menu
    snake := snakeInitSnake state.snake
    cells := snakeInitCells state.cells
    head := 0
    direction := .stop
    fruit := 1010 }

/-- The loop of `snake_cal_next`: what is left of `h`, and `i`. -/
def snakeSubtract : Nat → Int → Int → Int × Int
  | 0, h, i => (h, i)
  | fuel + 1, h, i => if h > 0 then snakeSubtract fuel (h - 70) (i + 1) else (h, i)

/-- `snake_cal_next`, for the value of `snake[head]`.  A number of sixteen bits is used
up after 469 rounds of the loop. -/
def snakeCalNext (h : Int) (direction : SnakeDir) : Int :=
  let left := snakeSubtract 469 h 0
  let i := left.2 - 1
  let j := left.1 + snakeWidth
  match direction with
  | .left => int16 (i * snakeWidth + (if j - 1 < 0 then snakeWidth else j) - 1)
  | .right => int16 (i * snakeWidth + (if j + 1 > snakeWidth then 0 else j) + 1)
  | .up => int16 (((if i - 1 < 0 then snakeHeight else i) - 1) * snakeWidth + j)
  | .down => int16 (((if i + 1 > snakeHeight then 0 else i) + 1) * snakeWidth + j)
  | .stop => 0

/-- One round of the loop that moves the segments towards the tail. -/
def snakeCopy (snake : Int → Int) (h : Nat) : Int → Int :=
  update snake h (snake (h + 1))

def snakeShift (head : Int) (snake : Int → Int) : Int → Int :=
  (List.range head.toNat).foldl snakeCopy snake

/-- The end of `snake_update`: the board is drawn anew. -/
def snakeRedraw (state : SnakeState) : SnakeState :=
  let body := (List.range state.head.toNat).foldl
    (fun cells (i : Nat) => update cells (state.snake i) CellType.snakeBody.byte)
    (snakeEmptyCells state.cells)
  { state with
    cells := update
      (update body (state.snake state.head) CellType.snakeHead.byte)
      state.fruit CellType.fruit.byte }

/-- The middle of `snake_update`: the snake dies, grows or moves. -/
def snakeAdvance (state : SnakeState) (nextCell : Int) : SnakeState :=
  let found := state.cells nextCell
  if found = CellType.snakeBody.byte ∨ found = CellType.block.byte then snakeRestart state
  else if found = CellType.fruit.byte then
    let fruit := snakeNewFruitPos state.seed
    let head := int16 (state.head + 1)
    { state with
      fruit := fruit.1
      seed := fruit.2
      head := head
      snake := update state.snake head nextCell }
  else
    { state with
      snake := update (snakeShift state.head state.snake) state.head nextCell }

/-- `snake_update`, for a function that computes the next cell. -/
def updateWith (next : Int → SnakeDir → Int) (state : SnakeState) : SnakeState :=
  snakeRedraw (snakeAdvance state (next (state.snake state.head) state.direction))

def snakeUpdate : SnakeState → SnakeState := updateWith snakeCalNext

def snakeTurn (opposite direction : SnakeDir) (state : SnakeState) : SnakeState :=
  if state.direction ≠ opposite then { state with direction := direction } else state

def snakeKeyHandler (state : SnakeState) (key : Byte) : SnakeState :=
  if key = 0x77#8 then -- w
    snakeTurn .down .up state
  else if key = 0x73#8 then -- s
    snakeTurn .up .down state
  else if key = 0x61#8 then -- a
    snakeTurn .right .left state
  else if key = 0x64#8 then -- d
    snakeTurn .left .right state
  else if key = 0x66#8 then -- f
    match state.mode with
    | .menu => { state with mode := .run, direction := .up }
    | .run => snakeRestart state
    | .quit => state
  else if key = 0x71#8 then -- q
    { state with mode := .quit }
  else state

/-- One round of `snake_game_loop`, for a function that updates the board, without the
drawing on the screen.  In quit mode the loop has ended. -/
def roundWith (update : SnakeState → SnakeState) (state : SnakeState) (key : Byte) : SnakeState :=
  if state.mode = .quit then state
  else
    let handled := snakeKeyHandler state key
    if handled.mode = .run then update handled else handled

def snakeRound : SnakeState → Byte → SnakeState := roundWith snakeUpdate

/-- The variables at the start of `snake_game_loop`.  The seed is what an earlier game
has left. -/
def snakeStart (cells : Int → Byte) (snake : Int → Int) (seed : BitVec 16) : SnakeState where
  cells := snakeInitCells cells
  snake := snakeInitSnake snake
  mode := .menu
  head := 0
  direction := .up
  fruit := 1010
  seed := seed

def torusNext (h : Int) : SnakeDir → Int
  | .up => index snakeWidth (move snakeHeight snakeWidth .up (cellAt snakeWidth h))
  | .down => index snakeWidth (move snakeHeight snakeWidth .down (cellAt snakeWidth h))
  | .right => index snakeWidth (move snakeHeight snakeWidth .right (cellAt snakeWidth h))
  | .left => index snakeWidth (move snakeHeight snakeWidth .left (cellAt snakeWidth h))
  | .stop => 0

def torusRound : SnakeState → Byte → SnakeState := roundWith (updateWith torusNext)

def InRange (number : Int) : Prop := 0 ≤ number ∧ number < 2800

instance (number : Int) : Decidable (InRange number) :=
  inferInstanceAs (Decidable (_ ∧ _))

/-- The moves that `snake_cal_next` gets wrong: to the left in the first column, to the
right in the first and in the last column, up in the first column of the first two rows,
and down in the last row. -/
def EdgeMove (h : Int) : SnakeDir → Prop
  | .left => h % 70 = 0
  | .right => h % 70 = 0 ∨ h % 70 = 69
  | .up => h % 70 = 0 ∧ h / 70 ≤ 1
  | .down => h / 70 = 39
  | .stop => False

def GoodMove (h next : Int) : Prop :=
  InRange next ∧ Adjacent snakeHeight snakeWidth (cellAt snakeWidth h) (cellAt snakeWidth next)

theorem snakeSubtract_eq (fuel : Nat) {i : Int} (enough : h ≤ 70 * fuel) :
    snakeSubtract fuel h i =
      if h > 0 then (h - 70 * ((h + 69) / 70), i + (h + 69) / 70) else (h, i) := by
  induction fuel generalizing h i with
  | zero =>
      rw [if_neg (by omega)]
      rfl
  | succ fuel induction =>
      rw [snakeSubtract]
      by_cases positive : h > 0
      · rw [if_pos positive, if_pos positive, induction (by omega)]
        by_cases again : h - 70 > 0
        · rw [if_pos again]
          ext <;> dsimp only <;> omega
        · rw [if_neg again]
          ext <;> dsimp only <;> omega
      · rw [if_neg positive, if_neg positive]

/-- Row and column as the loop finds them: the column is between 1 and 70. -/
theorem snakeSubtract_inRange (inRange : InRange h) :
    snakeSubtract 469 h 0 = (h - 70 * ((h + 69) / 70), (h + 69) / 70) := by
  obtain ⟨nonneg, small⟩ := inRange
  rw [snakeSubtract_eq 469 (by omega)]
  by_cases positive : h > 0
  · rw [if_pos positive, Int.zero_add]
  · rw [if_neg positive]
    ext <;> dsimp only <;> omega

theorem int16_of_small {number : Int} (above : -32768 ≤ number) (below : number < 32768) :
    int16 number = number := by
  unfold int16
  apply Int.bmod_eq_of_le <;> omega

section CalNext

variable {h : Int} (inRange : InRange h)
include inRange

theorem snakeCalNext_left : snakeCalNext h .left = h - 1 := by
  have ⟨nonneg, small⟩ := inRange
  simp only [snakeCalNext, snakeSubtract_inRange inRange, snakeWidth]
  rw [if_neg (by omega), int16_of_small (by omega) (by omega)]
  omega

/-- The first column is taken for the one behind the last column of the row above. -/
theorem snakeCalNext_right :
    snakeCalNext h .right = if h % 70 = 0 then h - 69 else h + 1 := by
  have ⟨nonneg, small⟩ := inRange
  simp only [snakeCalNext, snakeSubtract_inRange inRange, snakeWidth]
  by_cases first : h % 70 = 0
  · rw [if_pos (by omega), if_pos first, int16_of_small (by omega) (by omega)]
    omega
  · rw [if_neg (by omega), if_neg first, int16_of_small (by omega) (by omega)]
    omega

theorem snakeCalNext_up :
    snakeCalNext h .up =
      if h = 0 then 2800 else if h ≤ 70 then h + 2730 else h - 70 := by
  have ⟨nonneg, small⟩ := inRange
  simp only [snakeCalNext, snakeSubtract_inRange inRange, snakeWidth, snakeHeight]
  by_cases zero : h = 0
  · subst zero
    decide
  · rw [if_neg zero]
    by_cases first : h ≤ 70
    · rw [if_pos (by omega), if_pos first, int16_of_small (by omega) (by omega)]
      omega
    · rw [if_neg (by omega), if_neg first, int16_of_small (by omega) (by omega)]
      omega

/-- The test for the last row never succeeds. -/
theorem snakeCalNext_down : snakeCalNext h .down = h + 70 := by
  have ⟨nonneg, small⟩ := inRange
  simp only [snakeCalNext, snakeSubtract_inRange inRange, snakeWidth, snakeHeight]
  rw [if_neg (by omega), int16_of_small (by omega) (by omega)]
  omega

variable {direction : SnakeDir}

/-- Away from the edges the program moves as on the board whose edges meet. -/
theorem snakeCalNext_eq_torusNext (inner : ¬ EdgeMove h direction) :
    snakeCalNext h direction = torusNext h direction := by
  have ⟨nonneg, small⟩ := inRange
  cases direction with
  | left =>
      rw [snakeCalNext_left inRange]
      simp only [EdgeMove, torusNext, index, move, cellAt, snakeWidth] at inner ⊢
      omega
  | right =>
      rw [snakeCalNext_right inRange]
      simp only [EdgeMove, torusNext, index, move, cellAt, snakeWidth] at inner ⊢
      rw [if_neg (by omega)]
      omega
  | up =>
      rw [snakeCalNext_up inRange]
      simp only [EdgeMove, torusNext, index, move, cellAt, snakeWidth, snakeHeight] at inner ⊢
      rw [if_neg (by omega)]
      split <;> omega
  | down =>
      rw [snakeCalNext_down inRange]
      simp only [EdgeMove, torusNext, index, move, cellAt, snakeWidth, snakeHeight] at inner ⊢
      omega
  | stop => rfl

/-- At the edges its moves lead off the board or to a cell that is not adjacent. -/
theorem not_goodMove_of_edgeMove (edge : EdgeMove h direction) :
    ¬ GoodMove h (snakeCalNext h direction) := by
  have ⟨nonneg, small⟩ := inRange
  rintro ⟨⟨nextNonneg, nextSmall⟩, adjacent⟩
  have line := adjacent.row_or_column
  simp only [cellAt, snakeWidth] at line
  cases direction with
  | left =>
      -- The cell in front of the first one of a row is the last one of the row above.
      rw [snakeCalNext_left inRange] at nextNonneg line
      simp only [EdgeMove] at edge
      omega
  | right =>
      rw [snakeCalNext_right inRange] at nextNonneg nextSmall line
      simp only [EdgeMove] at edge
      by_cases first : h % 70 = 0
      · rw [if_pos first] at nextNonneg line
        omega
      · rw [if_neg first] at line nextSmall
        omega
  | up =>
      rw [snakeCalNext_up inRange] at nextSmall
      simp only [EdgeMove] at edge
      split at nextSmall
      · omega
      · rw [if_pos (by omega)] at nextSmall
        omega
  | down =>
      rw [snakeCalNext_down inRange] at nextSmall
      simp only [EdgeMove] at edge
      omega
  | stop => exact edge

/-- Every move on the board whose edges meet is a good one. -/
theorem goodMove_torusNext (moves : direction ≠ .stop) :
    GoodMove h (torusNext h direction) := by
  have onBoard : OnBoard snakeHeight snakeWidth (cellAt snakeWidth h) :=
    cellAt_onBoard (by decide) inRange.1 inRange.2
  have good : ∀ heading, GoodMove h
      (index snakeWidth (move snakeHeight snakeWidth heading (cellAt snakeWidth h))) := by
    intro heading
    have moved := move_onBoard (by decide) (by decide) onBoard heading
    exact ⟨⟨index_nonneg moved, index_lt moved⟩, heading, cellAt_index moved⟩
  cases direction with
  | up => exact good .up
  | down => exact good .down
  | right => exact good .right
  | left => exact good .left
  | stop => exact absurd rfl moves

/-- `snake_cal_next` is right exactly away from the edges. -/
theorem goodMove_snakeCalNext_iff (moves : direction ≠ .stop) :
    GoodMove h (snakeCalNext h direction) ↔ ¬ EdgeMove h direction := by
  constructor
  · intro good edge
    exact not_goodMove_of_edgeMove inRange edge good
  · intro inner
    rw [snakeCalNext_eq_torusNext inRange inner]
    exact goodMove_torusNext inRange moves

end CalNext

end MmdOS
