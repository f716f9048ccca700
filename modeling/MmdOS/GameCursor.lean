import MmdOS.GameOfLife
import MmdOS.LockstepRuns

/-!
# The cursor of the game of life

The two coordinates of the cursor are bytes.  Of the four tests that should keep it on
the board, two compare a byte with zero and never succeed, and two stop it one cell
too late.
-/

namespace MmdOS

open CString Lockstep

/-- `gol_state`: 0, 1 and 2. -/
inductive GolMode
  | config
  | run
  | quit
  deriving DecidableEq

/-- The variables of `gol_game_loop`; `cursor` is an array of two bytes. -/
structure GolState where
  cells : Stream
  cursor0 : BitVec 8
  cursor1 : BitVec 8
  mode : GolMode

def golUp (row : BitVec 8) : BitVec 8 :=
  if (row - 1#8).toNat > golWidth then BitVec.ofNat 8 golWidth else row - 1#8

def golRight (column : BitVec 8) : BitVec 8 :=
  if (column + 1#8).toNat > golHeight then BitVec.ofNat 8 golHeight else column + 1#8

def golKeyHandler (state : GolState) (key : Byte) : GolState :=
  if key = 0x77#8 then -- w
    { state with cursor0 := golUp state.cursor0 }
  else if key = 0x73#8 then -- s, a byte is never below zero
    { state with cursor0 := state.cursor0 + 1#8 }
  else if key = 0x61#8 then -- a, here as well
    { state with cursor1 := state.cursor1 - 1#8 }
  else if key = 0x64#8 then -- d
    { state with cursor1 := golRight state.cursor1 }
  else if key = 0x65#8 then -- e
    let index := golCi state.cursor0.toNat state.cursor1.toNat
    { state with
      cells := Function.update state.cells index (if state.cells index = 0#8 then 1#8 else 0#8) }
  else if key = 0x66#8 then -- f
    match state.mode with
    | .config => { state with mode := .run, cursor0 := 0#8, cursor1 := 0#8 }
    | .run =>
        { cells := golInitCells state.cells
          cursor0 := BitVec.ofNat 8 (golWidth / 2)
          cursor1 := BitVec.ofNat 8 (golHeight / 2)
          mode := .config }
    | .quit => state
  else if key = 0x71#8 then -- q
    { state with mode := .quit }
  else state

/-- One round of `gol_game_loop`, without the drawing.  In quit mode the loop has
ended. -/
def golRound (state : GolState) (key : Byte) : GolState :=
  if state.mode = .quit then state
  else
    let handled := golKeyHandler state key
    if handled.mode = .run then { handled with cells := golUpdate handled.cells } else handled

def golStart (behind : Stream) : GolState where
  cells := golInitCells behind
  cursor0 := BitVec.ofNat 8 (golWidth / 2)
  cursor1 := BitVec.ofNat 8 (golHeight / 2)
  mode := .config

def golRun (behind : Stream) (keys : List Byte) : GolState :=
  keys.foldl golRound (golStart behind)

structure GolState.OnBoard (state : GolState) : Prop where
  row : state.cursor0.toNat < 40
  column : state.cursor1.toNat < 70
  cell : golCi state.cursor0.toNat state.cursor1.toNat < 2800

structure Walk where
  row : Int
  column : Int
  mode : GolMode

def startWalk : Walk := ⟨20, 35, .config⟩

def Walk.press (walk : Walk) (key : Byte) : Walk :=
  if walk.mode = .quit then walk
  else if key = 0x77#8 then { walk with row := walk.row - 1 }
  else if key = 0x73#8 then { walk with row := walk.row + 1 }
  else if key = 0x61#8 then { walk with column := walk.column - 1 }
  else if key = 0x64#8 then { walk with column := walk.column + 1 }
  else if key = 0x66#8 then if walk.mode = .config then ⟨0, 0, .run⟩ else ⟨20, 35, .config⟩
  else if key = 0x71#8 then { walk with mode := .quit }
  else walk

/-- The key does not lead away from an edge: w in the first row, s in the last row, a in
the first column or d in the last column. -/
def Walk.Stays (walk : Walk) (key : Byte) : Prop :=
  walk.mode ≠ .quit →
    ¬ (key = 0x77#8 ∧ walk.row = 0) ∧ ¬ (key = 0x73#8 ∧ walk.row = 39) ∧
      ¬ (key = 0x61#8 ∧ walk.column = 0) ∧ ¬ (key = 0x64#8 ∧ walk.column = 69)

structure GolState.Follows (state : GolState) (walk : Walk) : Prop where
  row : (state.cursor0.toNat : Int) = walk.row
  column : (state.cursor1.toNat : Int) = walk.column
  mode : state.mode = walk.mode
  rowLt : state.cursor0.toNat < 40
  columnLt : state.cursor1.toNat < 70

variable {state : GolState} {walk : Walk}

theorem onBoard_iff :
    state.OnBoard ↔ state.cursor0.toNat < 40 ∧ state.cursor1.toNat < 70 := by
  constructor
  · intro onBoard
    exact ⟨onBoard.row, onBoard.column⟩
  · rintro ⟨row, column⟩
    refine ⟨row, column, ?_⟩
    simp only [golCi, golHeight]
    omega

section Coordinates

variable (coordinate : BitVec 8)

theorem toNat_dec : (coordinate - 1#8).toNat = (coordinate.toNat + 255) % 256 := by
  rw [BitVec.toNat_sub, Nat.add_comm]
  rfl

theorem toNat_inc : (coordinate + 1#8).toNat = (coordinate.toNat + 1) % 256 :=
  BitVec.toNat_add _ _

/-- The key w leads from the first row to the row behind the last one. -/
theorem toNat_golUp (inside : coordinate.toNat < 40) :
    (golUp coordinate).toNat = if coordinate.toNat = 0 then 40 else coordinate.toNat - 1 := by
  have dec := toNat_dec coordinate
  unfold golUp
  by_cases first : coordinate.toNat = 0
  · rw [if_pos first, if_pos (by rw [golWidth]; omega)]
    rfl
  · rw [if_neg first, if_neg (by rw [golWidth]; omega)]
    omega

/-- The key d leads from the last column to the column behind it. -/
theorem toNat_golRight (inside : coordinate.toNat < 70) :
    (golRight coordinate).toNat = coordinate.toNat + 1 := by
  have inc := toNat_inc coordinate
  rw [golRight, if_neg (by rw [golHeight]; omega)]
  omega

end Coordinates

theorem golRound_cursor (running : state.mode ≠ .quit) (key : Byte) :
    (golRound state key).cursor0 = (golKeyHandler state key).cursor0 ∧
      (golRound state key).cursor1 = (golKeyHandler state key).cursor1 ∧
      (golRound state key).mode = (golKeyHandler state key).mode := by
  rw [golRound, if_neg running]
  by_cases run : (golKeyHandler state key).mode = .run
  · simp [run]
  · simp [run]

theorem GolState.Follows.otherKey {key : Byte} (follows : state.Follows walk)
    (running : walk.mode ≠ .quit) (isW : key ≠ 0x77#8) (isS : key ≠ 0x73#8) (isA : key ≠ 0x61#8)
    (isD : key ≠ 0x64#8) :
    (golKeyHandler state key).Follows (walk.press key) := by
  obtain ⟨row, column, mode, rowLt, columnLt⟩ := follows
  rw [golKeyHandler, Walk.press, if_neg running]
  simp only [isW, isS, isA, isD, if_false]
  by_cases isE : key = 0x65#8
  · subst isE
    exact ⟨row, column, mode, rowLt, columnLt⟩
  by_cases isF : key = 0x66#8
  · subst isF
    simp only [isE, mode, if_true, if_false]
    cases walkMode : walk.mode with
    | config => exact ⟨rfl, rfl, rfl, by dsimp only; decide, by dsimp only; decide⟩
    | run => exact ⟨rfl, rfl, rfl, by dsimp only; decide, by dsimp only; decide⟩
    | quit => exact absurd walkMode running
  by_cases isQ : key = 0x71#8
  · subst isQ
    exact ⟨row, column, rfl, rowLt, columnLt⟩
  · simp only [isE, isF, isQ, if_false]
    exact ⟨row, column, mode, rowLt, columnLt⟩

/-- What a key does to a cursor that follows a walk: it follows the next position, or
the key led away from an edge and the cursor has left the board. -/
theorem GolState.Follows.key {state : GolState} {walk : Walk} (follows : state.Follows walk)
    (running : walk.mode ≠ .quit) (key : Byte) :
    (walk.Stays key ∧ (golKeyHandler state key).Follows (walk.press key)) ∨
      (¬ walk.Stays key ∧ ¬ ((golKeyHandler state key).cursor0.toNat < 40 ∧
        (golKeyHandler state key).cursor1.toNat < 70)) := by
  obtain ⟨row, column, mode, rowLt, columnLt⟩ := follows
  by_cases isW : key = 0x77#8
  · subst isW
    have up := toNat_golUp state.cursor0 rowLt
    by_cases edge : walk.row = 0
    · right
      rw [if_pos (by omega)] at up
      simp [Walk.Stays, running, edge, golKeyHandler, up]
    · left
      rw [if_neg (by omega)] at up
      refine ⟨by simp [Walk.Stays, edge], ?_⟩
      simp only [golKeyHandler, Walk.press, running, if_true, if_false]
      exact ⟨by dsimp only; omega, column, mode, by dsimp only; omega, columnLt⟩
  by_cases isS : key = 0x73#8
  · subst isS
    have down := toNat_inc state.cursor0
    by_cases edge : walk.row = 39
    · right
      have last : (state.cursor0 + 1#8).toNat = 40 := by omega
      simp [Walk.Stays, running, edge, golKeyHandler, last]
    · left
      refine ⟨by simp [Walk.Stays, edge], ?_⟩
      simp only [golKeyHandler, Walk.press, running, isW, if_true, if_false]
      exact ⟨by dsimp only; omega, column, mode, by dsimp only; omega, columnLt⟩
  by_cases isA : key = 0x61#8
  · subst isA
    have left := toNat_dec state.cursor1
    by_cases edge : walk.column = 0
    · right
      have last : (state.cursor1 - 1#8).toNat = 255 := by omega
      simp [Walk.Stays, running, edge, golKeyHandler, last]
    · left
      refine ⟨by simp [Walk.Stays, edge], ?_⟩
      simp only [golKeyHandler, Walk.press, running, isW, isS, if_true, if_false]
      exact ⟨row, by dsimp only; omega, mode, rowLt, by dsimp only; omega⟩
  by_cases isD : key = 0x64#8
  · subst isD
    have right := toNat_golRight state.cursor1 columnLt
    by_cases edge : walk.column = 69
    · right
      have last : state.cursor1.toNat = 69 := by omega
      simp [Walk.Stays, running, edge, golKeyHandler, right, last]
    · left
      refine ⟨by simp [Walk.Stays, edge], ?_⟩
      simp only [golKeyHandler, Walk.press, running, isW, isS, isA, if_true, if_false]
      exact ⟨row, by dsimp only; omega, mode, rowLt, by dsimp only; omega⟩
  · left
    refine ⟨by simp [Walk.Stays, isW, isS, isA, isD], ?_⟩
    exact GolState.Follows.otherKey ⟨row, column, mode, rowLt, columnLt⟩ running isW isS isA isD

theorem GolState.Follows.round (follows : state.Follows walk) (key : Byte) :
    (walk.Stays key ∧ (golRound state key).Follows (walk.press key)) ∨
      (¬ walk.Stays key ∧ ¬ (golRound state key).OnBoard) := by
  by_cases ended : walk.mode = .quit
  · left
    have stateEnded : state.mode = .quit := follows.mode.trans ended
    rw [golRound, if_pos stateEnded, Walk.press, if_pos ended]
    exact ⟨fun running => absurd ended running, follows⟩
  · have running : state.mode ≠ .quit := by rwa [follows.mode]
    obtain ⟨row, column, mode⟩ := golRound_cursor running key
    rw [onBoard_iff, row, column]
    obtain ⟨stays, next⟩ | left := follows.key ended key
    · refine .inl ⟨stays, ?_⟩
      exact ⟨row ▸ next.row, column ▸ next.column, mode ▸ next.mode, row ▸ next.rowLt,
        column ▸ next.columnLt⟩
    · exact .inr left

theorem GolState.Follows.onBoard (follows : state.Follows walk) :
    state.OnBoard :=
  onBoard_iff.mpr ⟨follows.rowLt, follows.columnLt⟩

theorem golStart_follows (behind : Stream) : (golStart behind).Follows startWalk :=
  ⟨rfl, rfl, rfl, show 20 < 40 by decide, show 35 < 70 by decide⟩

/-- The cursor is on the board all the time if and only if no key leads away from an
edge. -/
theorem cursor_on_board_iff (behind : Stream) (keys : List Byte) :
    (∀ visited, visited <+: keys → (golRun behind visited).OnBoard) ↔
      EveryRound Walk.press Walk.Stays startWalk keys := by
  unfold golRun
  rw [forall_prefix_iff, and_iff_right (golStart_follows behind).onBoard]
  apply everyRound_iff GolState.Follows _ _ (golStart_follows behind)
  · intro state walk key follows
    obtain ⟨stays, next⟩ | ⟨leaves, off⟩ := follows.round key
    · exact iff_of_true next.onBoard stays
    · exact iff_of_false off leaves
  · intro state walk key follows stays
    obtain ⟨_, next⟩ | ⟨leaves, _⟩ := follows.round key
    · exact next
    · exact absurd stays leaves

/-- Twenty times the key s leads below the last row, where the key e toggles a byte
behind the array. -/
theorem cursor_leaves_board :
    ∃ behind, (golRun behind (List.replicate 20 0x73#8)).cursor0 = 40#8 ∧
      golCi (golRun behind (List.replicate 20 0x73#8)).cursor0.toNat
        (golRun behind (List.replicate 20 0x73#8)).cursor1.toNat = 2835 ∧
      (golRun behind (List.replicate 20 0x73#8 ++ [0x65#8])).cells 2835 ≠ behind 2835 :=
  ⟨fun _ => 0#8, by decide, by decide, by decide⟩

end MmdOS
