import Mathlib.Tactic.Common

/-!
# Runs of partial step functions

A system is given by a step function that answers which state an event leads
to, if the event can happen at all.  Its runs may be restricted to events that
are allowed in the state in which they happen.
-/

namespace Transitions

variable {State Event : Type*}

/-- The states that allowed events lead to. -/
inductive Reaches (step : Event → State → Option State) (allowed : Event → State → Prop)
    (start : State) : State → Prop
  | refl : Reaches step allowed start start
  | tail {state next : State} {event : Event} :
      Reaches step allowed start state → allowed event state → step event state = some next →
        Reaches step allowed start next

variable {step : Event → State → Option State} {allowed : Event → State → Prop}
variable {start state : State}

/-- What the start satisfies and every allowed event keeps holds in every state
that is reached. -/
theorem Reaches.invariant {Inv : State → Prop} (reaches : Reaches step allowed start state)
    (initial : Inv start)
    (preserved : ∀ {event state next}, Inv state → allowed event state →
      step event state = some next → Inv next) : Inv state := by
  induction reaches with
  | refl => exact initial
  | tail reaches isAllowed stepEq ih => exact preserved ih isAllowed stepEq

theorem Reaches.mono {permitted : Event → State → Prop} (reaches : Reaches step allowed start state)
    (weaker : ∀ event state, allowed event state → permitted event state) :
    Reaches step permitted start state := by
  induction reaches with
  | refl => exact .refl
  | tail reaches isAllowed stepEq ih => exact ih.tail (weaker _ _ isAllowed) stepEq

def run (step : Event → State → Option State) : List Event → State → Option State
  | [], state => some state
  | event :: events, state => (step event state).bind (run step events)

def after (step : Event → State → Option State) (events : List Event) (state : State) : State :=
  (run step events state).getD state

theorem run_eq_after {events : List Event} (happens : (run step events state).isSome) :
    run step events state = some (after step events state) := by
  obtain ⟨next, ran⟩ := Option.isSome_iff_exists.mp happens
  simp [after, ran]

theorem Reaches.run {events : List Event} {next : State}
    (reaches : Reaches step (fun _ _ => True) start state)
    (ran : Transitions.run step events state = some next) :
    Reaches step (fun _ _ => True) start next := by
  induction events generalizing state with
  | nil =>
      simp only [Transitions.run, Option.some.injEq] at ran
      exact ran ▸ reaches
  | cons event events ih =>
      simp only [Transitions.run, Option.bind_eq_some_iff] at ran
      obtain ⟨middle, stepEq, rest⟩ := ran
      exact ih (reaches.tail trivial stepEq) rest

/-- A step that is taken only if the event passes a check. -/
def checked (check : Event → State → Bool) (step : Event → State → Option State) (event : Event)
    (state : State) : Option State :=
  if check event state then step event state else none

theorem Reaches.run_checked {check : Event → State → Bool} {events : List Event} {next : State}
    (reaches : Reaches step allowed start state)
    (sound : ∀ event state, check event state → allowed event state)
    (ran : Transitions.run (checked check step) events state = some next) :
    Reaches step allowed start next := by
  induction events generalizing state with
  | nil =>
      simp only [Transitions.run, Option.some.injEq] at ran
      exact ran ▸ reaches
  | cons event events ih =>
      simp only [Transitions.run, checked, Option.bind_eq_some_iff,
        Option.ite_none_right_eq_some] at ran
      obtain ⟨middle, ⟨passes, stepEq⟩, rest⟩ := ran
      exact ih (reaches.tail (sound event state passes) stepEq) rest

end Transitions
