import MmdOS.Scheduler

/-!
# More fuel does not change a result

A loop of the scheduler that has come to its end with some fuel does the same
with any larger amount, so one evaluation shows what a call returns.
-/

namespace MmdOS

/-- If there is a first result, the second one is the same. -/
def Below {α : Type} (first second : Option α) : Prop :=
  ∀ result, first = some result → second = some result

namespace Below

variable {α β : Type} {first second third fourth : Option α}

theorem refl (first : Option α) : Below first first :=
  fun _ ended => ended

theorem none (second : Option α) : Below none second :=
  fun _ ended => nomatch ended

theorem map (below : Below first second) (f : α → β) : Below (first.map f) (second.map f) := by
  intro result ended
  obtain ⟨inner, innerEnded, rfl⟩ := Option.map_eq_some_iff.mp ended
  exact Option.map_eq_some_iff.mpr ⟨inner, below inner innerEnded, rfl⟩

theorem ite {condition : Prop} [Decidable condition] (below : Below first second)
    (below' : Below third fourth) :
    Below (if condition then first else third) (if condition then second else fourth) := by
  split
  · exact below
  · exact below'

end Below

theorem Returns.of_below {α : Type} {call : Nat → Option α} {fuel : Nat} {result : α}
    (below : ∀ more, fuel ≤ more → Below (call fuel) (call more)) (ended : call fuel = some result) :
    Returns call result :=
  ⟨fuel, fun more enough => below more enough result ended⟩

section Loops

variable {fuel more : Nat} {kfree : Kfree}

theorem deleteScan_below (enough : fuel ≤ more) (state : SchedState) (process scan : Word) :
    Below (deleteScan state process fuel scan) (deleteScan state process more scan) := by
  induction fuel generalizing more scan with
  | zero => exact .none _
  | succ fuel ih =>
      obtain ⟨more, rfl⟩ := Nat.exists_eq_add_one_of_ne_zero (Nat.ne_zero_of_lt enough)
      have next := ih (Nat.le_of_succ_le_succ enough) (state.process scan).next
      exact .ite (.ite (.refl _) next) (.refl _)

theorem stayIdleScan_below (enough : fuel ≤ more) (state : SchedState) (process : Word) :
    Below (stayIdleScan state fuel process) (stayIdleScan state more process) := by
  induction fuel generalizing more process with
  | zero => exact .none _
  | succ fuel ih =>
      obtain ⟨more, rfl⟩ := Nat.exists_eq_add_one_of_ne_zero (Nat.ne_zero_of_lt enough)
      have next := ih (Nat.le_of_succ_le_succ enough) (state.process process).next
      exact .ite (.ite (.refl _) next) (.refl _)

theorem endRound_below (enough : fuel ≤ more) (state : SchedState) (current : Word)
    (switched : Bool) :
    Below (endRound fuel state current switched) (endRound more state current switched) :=
  .ite ((stayIdleScan_below enough state _).map _) (.refl _)

theorem processDelete_below (enough : fuel ≤ more) (state : SchedState) (process : Word) :
    Below (processDelete kfree fuel state process) (processDelete kfree more state process) := by
  have unlinked : Below (unlinkProcess fuel state process) (unlinkProcess more state process) :=
    .ite (.refl _) ((deleteScan_below enough state process _).map _)
  refine .ite (.refl _) ?_
  cases ended : unlinkProcess fuel state process with
  | none => exact .none _
  | some result =>
      rw [unlinked result ended]
      exact .refl _

theorem scheduleLoop_below (enough : fuel ≤ more) (context : Word) (state : SchedState)
    (processesList current : Word) (switched : Bool) :
    Below (scheduleLoop kfree context fuel state processesList current switched)
      (scheduleLoop kfree context more state processesList current switched) := by
  induction fuel generalizing more state processesList current switched with
  | zero => exact .none _
  | succ fuel ih =>
      obtain ⟨more, rfl⟩ := Nat.exists_eq_add_one_of_ne_zero (Nat.ne_zero_of_lt enough)
      have less : fuel ≤ more := Nat.le_of_succ_le_succ enough
      rw [scheduleLoop, scheduleLoop]
      refine .ite (.refl _) ?_
      cases (state.process current).status with
      | spawned => exact endRound_below less _ current true
      | ready => exact endRound_below less state current true
      | running => exact .ite (endRound_below less _ current switched) (ih less _ _ _ _)
      | sleeping => exact .ite (endRound_below less _ current switched) (ih less _ _ _ _)
      | dead =>
          have deleted := @processDelete_below _ _ kfree less state current
          cases ended : processDelete kfree fuel state current with
          | none => exact .none _
          | some result =>
              simp only [deleted result ended]
              cases result with
              | error reason => exact .refl _
              | ok state => exact ih less _ _ _ _

theorem timerHandler_below (enough : fuel ≤ more) (switchPml : Word → Word) (state : SchedState)
    (frame : Word) :
    Below (timerHandler kfree switchPml fuel state frame)
      (timerHandler kfree switchPml more state frame) :=
  .ite (.refl _) ((scheduleLoop_below enough _ _ _ _ _).map _)

end Loops

theorem Returns.timerHandler {kfree : Kfree} {switchPml : Word → Word} {fuel : Nat}
    {state : SchedState}
    {frame : Word} {result : Except SchedPanic (Word × SchedState)}
    (ended : timerHandler kfree switchPml fuel state frame = some result) :
    Returns (fun fuel => MmdOS.timerHandler kfree switchPml fuel state frame) result :=
  .of_below (fun _ enough => timerHandler_below enough switchPml state frame) ended

end MmdOS
