import MmdOS.LockstepRuns
import MmdOS.Snake

/-!
# Games of snake

Whatever keys are pressed, the game is the one on the board whose edges meet until a
move is made at an edge where the program has no room for it, or until the snake is
longer than its array.
-/

namespace MmdOS

open CString Lockstep TorusBoard
open Function (update_self update_of_ne)

variable {state : SnakeState}

structure SnakeState.OnBoard (state : SnakeState) : Prop where
  head : InRange state.head
  segments : ∀ k, 0 ≤ k → k ≤ state.head → InRange (state.snake k)
  fruit : InRange state.fruit

def SnakeState.MovesWell (state : SnakeState) (key : Byte) : Prop :=
  let handled := snakeKeyHandler state key
  let cell := handled.snake handled.head
  state.mode ≠ .quit → handled.mode = .run → GoodMove cell (snakeCalNext cell handled.direction)

def SnakeState.Outgrows (state : SnakeState) (nextCell : Int) : Prop :=
  state.cells nextCell = CellType.fruit.byte ∧ state.head = 2799

/-- The next round has no move over an edge that `snake_cal_next` gets wrong, and a snake
that fills its array finds no fruit. -/
def SnakeState.Safe (state : SnakeState) (key : Byte) : Prop :=
  let handled := snakeKeyHandler state key
  let cell := handled.snake handled.head
  state.mode ≠ .quit → handled.mode = .run →
    ¬ EdgeMove cell handled.direction ∧ ¬ handled.Outgrows (torusNext cell handled.direction)

structure SnakeState.Inv (state : SnakeState) : Prop extends state.OnBoard where
  moves : state.mode = .run → state.direction ≠ .stop

theorem snakeRand_bounds {min max : Int} (less : min ≤ max) (seed : BitVec 16) :
    min ≤ (snakeRand min max seed).1 ∧ (snakeRand min max seed).1 ≤ max := by
  unfold snakeRand
  dsimp only
  have nonneg := Int.emod_nonneg
    ((BitVec.ofNat 16 ((seed.toNat * 1103515245 + 12345) &&& 0x7fffffff)).toNat : Int)
    (show max - min + 1 ≠ 0 by omega)
  have small := Int.emod_lt_of_pos
    ((BitVec.ofNat 16 ((seed.toNat * 1103515245 + 12345) &&& 0x7fffffff)).toNat : Int)
    (show 0 < max - min + 1 by omega)
  omega

theorem snakeNewFruitPos_inRange (seed : BitVec 16) : InRange (snakeNewFruitPos seed).1 := by
  have rows := snakeRand_bounds (show 1 ≤ snakeHeight - 1 by decide) seed
  have columns := snakeRand_bounds (show 1 ≤ snakeWidth - 1 by decide)
    (snakeRand 1 (snakeHeight - 1) seed).2
  simp only [snakeNewFruitPos, InRange, snakeHeight, snakeWidth] at rows columns ⊢
  omega

theorem foldl_snakeCopy_inRange {head : Int} (rounds : List Nat) {snake : Int → Int}
    (inside : ∀ h ∈ rounds, (h : Int) + 1 ≤ head)
    (segments : ∀ k, 0 ≤ k → k ≤ head → InRange (snake k)) :
    ∀ k, 0 ≤ k → k ≤ head → InRange (rounds.foldl snakeCopy snake k) := by
  induction rounds generalizing snake with
  | nil => exact segments
  | cons h rounds induction =>
      apply induction
      · intro later member
        exact inside later (List.mem_cons_of_mem _ member)
      · intro k nonneg small
        by_cases here : k = h
        · rw [here, snakeCopy, update_self]
          exact segments _ (by omega) (inside h List.mem_cons_self)
        · rw [snakeCopy, update_of_ne here]
          exact segments k nonneg small

theorem snakeShift_inRange {head : Int} {snake : Int → Int}
    (segments : ∀ k, 0 ≤ k → k ≤ head → InRange (snake k)) {k : Int} (nonneg : 0 ≤ k)
    (small : k ≤ head) : InRange (snakeShift head snake k) := by
  apply foldl_snakeCopy_inRange (List.range head.toNat) _ segments k nonneg small
  intro h member
  have := List.mem_range.mp member
  omega

theorem snakeInitSnake_zero (snake : Int → Int) : snakeInitSnake snake 0 = 1390 := by
  rw [snakeInitSnake, update_self]
  rfl

theorem onBoard_of_initial (head : state.head = 0) (snake : state.snake 0 = 1390)
    (fruit : state.fruit = 1010) : state.OnBoard where
  head := by
    rw [head]
    decide
  segments := by
    intro k nonneg small
    have zero : k = 0 := by omega
    rw [zero, snake]
    decide
  fruit := by
    rw [fruit]
    decide

theorem snakeRestart_inv (state : SnakeState) : (snakeRestart state).Inv where
  toOnBoard := onBoard_of_initial rfl (snakeInitSnake_zero state.snake) rfl
  moves := by
    intro running
    cases running

theorem snakeStart_inv (cells : Int → Byte) (snake : Int → Int) (seed : BitVec 16) :
    (snakeStart cells snake seed).Inv where
  toOnBoard := onBoard_of_initial rfl (snakeInitSnake_zero snake) rfl
  moves := by
    intro running
    cases running

theorem snakeRedraw_onBoard_iff :
    (snakeRedraw state).OnBoard ↔ state.OnBoard := by
  constructor
  · intro onBoard
    exact ⟨onBoard.head, onBoard.segments, onBoard.fruit⟩
  · intro onBoard
    exact ⟨onBoard.head, onBoard.segments, onBoard.fruit⟩

theorem SnakeState.Inv.redraw (inv : state.Inv) :
    (snakeRedraw state).Inv where
  toOnBoard := snakeRedraw_onBoard_iff.mpr inv.toOnBoard
  moves := inv.moves

/-- A snake that moves to a cell of the board stays on it, as long as its array has room. -/
theorem SnakeState.Inv.advance (inv : state.Inv) {nextCell : Int} (inRange : InRange nextCell)
    (room : ¬ state.Outgrows nextCell) :
    (snakeAdvance state nextCell).Inv := by
  have ⟨headNonneg, headSmall⟩ := inv.head
  unfold snakeAdvance
  dsimp only
  split
  · exact snakeRestart_inv state
  split
  next isFruit =>
      have notFull : state.head ≠ 2799 := fun full => room ⟨isFruit, full⟩
      rw [int16_of_small (by omega) (by omega)]
      refine { head := ⟨by dsimp only; omega, by dsimp only; omega⟩, segments := ?_,
               fruit := snakeNewFruitPos_inRange state.seed, moves := inv.moves }
      intro k nonneg small
      dsimp only at small ⊢
      by_cases last : k = state.head + 1
      · rw [last, update_self]
        exact inRange
      · rw [update_of_ne last]
        exact inv.segments k nonneg (by omega)
  · refine { head := inv.head, segments := ?_, fruit := inv.fruit, moves := inv.moves }
    intro k nonneg small
    dsimp only at small ⊢
    by_cases last : k = state.head
    · rw [last, update_self]
      exact inRange
    · rw [update_of_ne last]
      exact snakeShift_inRange inv.segments nonneg small

theorem SnakeState.Outgrows.not_onBoard {nextCell : Int} (outgrows : state.Outgrows nextCell) :
    ¬ (snakeAdvance state nextCell).OnBoard := by
  obtain ⟨isFruit, full⟩ := outgrows
  intro onBoard
  have small := onBoard.head.2
  rw [snakeAdvance, isFruit, if_neg (by decide), if_pos rfl] at small
  dsimp only at small
  rw [full, int16_of_small (by decide) (by decide)] at small
  omega

theorem SnakeState.Inv.turn (inv : state.Inv) {opposite direction : SnakeDir}
    (moves : direction ≠ .stop) : (snakeTurn opposite direction state).Inv := by
  unfold snakeTurn
  split
  · exact { head := inv.head, segments := inv.segments, fruit := inv.fruit, moves := fun _ => moves }
  · exact inv

theorem SnakeState.Inv.key {state : SnakeState} (inv : state.Inv) (key : Byte) :
    (snakeKeyHandler state key).Inv := by
  unfold snakeKeyHandler
  -- The four directions, then the keys f and q, then all others.
  split
  · exact inv.turn (by decide)
  split
  · exact inv.turn (by decide)
  split
  · exact inv.turn (by decide)
  split
  · exact inv.turn (by decide)
  split
  · split
    · exact { head := inv.head, segments := inv.segments, fruit := inv.fruit,
              moves := fun _ => SnakeDir.noConfusion }
    · exact snakeRestart_inv state
    · exact inv
  split
  · exact { head := inv.head, segments := inv.segments, fruit := inv.fruit,
            moves := fun running => by cases running }
  · exact inv

/-- What a round does before the game leaves the board: it is the round of the other game
and a good one, or it is not safe and something is wrong after it. -/
theorem SnakeState.Inv.round (inv : state.Inv) (key : Byte) :
    (state.Safe key ∧ snakeRound state key = torusRound state key ∧
        (snakeRound state key).Inv ∧ state.MovesWell key) ∨
      (¬ state.Safe key ∧ ¬ ((snakeRound state key).OnBoard ∧ state.MovesWell key)) := by
  unfold snakeRound torusRound roundWith SnakeState.Safe SnakeState.MovesWell
  dsimp only
  by_cases ended : state.mode = .quit
  · left
    simp only [ended, if_true, ne_eq, not_true_eq_false, false_imp_iff, true_and, and_true]
    exact inv
  -- The games differ in the move only; the key is handled alike.
  have handled := inv.key key
  generalize snakeKeyHandler state key = next at handled ⊢
  by_cases runs : next.mode = .run
  · simp only [ended, runs, if_true, if_false, ne_eq, not_false_eq_true, true_imp_iff]
    have moves := handled.moves runs
    have cell : InRange (next.snake next.head) := handled.segments _ handled.head.1 le_rfl
    by_cases edge : EdgeMove (next.snake next.head) next.direction
    · right
      refine ⟨fun safe => safe.1 edge, fun good => ?_⟩
      exact (goodMove_snakeCalNext_iff cell moves).mp good.2 edge
    · have same := snakeCalNext_eq_torusNext cell edge
      have good := goodMove_torusNext cell moves
      rw [snakeUpdate, updateWith, updateWith, same]
      by_cases outgrows : next.Outgrows (torusNext (next.snake next.head) next.direction)
      · right
        refine ⟨fun safe => safe.2 outgrows, fun both => ?_⟩
        exact outgrows.not_onBoard (snakeRedraw_onBoard_iff.mp both.1)
      · left
        exact ⟨⟨edge, outgrows⟩, rfl, (handled.advance good.1 outgrows).redraw, good⟩
  · left
    simp only [ended, runs, if_false, false_imp_iff, imp_true_iff, true_and, and_true]
    exact handled

def snakeRun (cells : Int → Byte) (snake : Int → Int) (seed : BitVec 16) (keys : List Byte) :
    SnakeState :=
  keys.foldl snakeRound (snakeStart cells snake seed)

/-- A game stays on the board, with good moves only, if and only if all rounds are safe in
the game on the board whose edges meet. -/
theorem snake_on_board_iff (cells : Int → Byte) (snake : Int → Int) (seed : BitVec 16)
    (keys : List Byte) :
    ((∀ visited, visited <+: keys → (snakeRun cells snake seed visited).OnBoard) ∧
        ∀ visited key, visited ++ [key] <+: keys →
          (snakeRun cells snake seed visited).MovesWell key) ↔
      EveryRound torusRound SnakeState.Safe (snakeStart cells snake seed) keys := by
  have start := snakeStart_inv cells snake seed
  unfold snakeRun
  rw [forall_prefix_iff, and_iff_right start.toOnBoard, ← everyRound_iff_prefix,
    ← everyRound_and]
  apply everyRound_iff (fun state other => state = other ∧ state.Inv) _ _ ⟨rfl, start⟩
  · rintro state _ key ⟨rfl, inv⟩
    obtain ⟨safe, _, next, moves⟩ | ⟨notSafe, wrong⟩ := inv.round key
    · exact iff_of_true ⟨next.toOnBoard, moves⟩ safe
    · exact iff_of_false wrong notSafe
  · rintro state _ key ⟨rfl, inv⟩ safe
    obtain ⟨_, same, next, _⟩ | ⟨notSafe, _⟩ := inv.round key
    · exact ⟨same, next⟩
    · exact absurd safe notSafe

def downKeys : List Byte := [0x66#8, 0x61#8, 0x73#8] ++ List.replicate 21 0#8

/-- The snake turns downwards and leaves the board at the last row: its only segment has
the number of a cell that does not exist. -/
theorem snake_leaves_board :
    (snakeRun (fun _ => 0#8) (fun _ => 0) 0#16 (downKeys.take 23)).snake 0 = 2789 ∧
      (snakeRun (fun _ => 0#8) (fun _ => 0) 0#16 downKeys).snake 0 = 2859 ∧
      ¬ (snakeRun (fun _ => 0#8) (fun _ => 0) 0#16 downKeys).OnBoard := by
  have head : (snakeRun (fun _ => 0#8) (fun _ => 0) 0#16 downKeys).head = 0 := by
    decide +kernel
  have cell : (snakeRun (fun _ => 0#8) (fun _ => 0) 0#16 downKeys).snake 0 = 2859 := by
    decide +kernel
  refine ⟨by decide +kernel, cell, ?_⟩
  intro onBoard
  have inRange := onBoard.segments 0 le_rfl (by rw [head])
  rw [cell] at inRange
  exact absurd inRange (by decide)

end MmdOS
