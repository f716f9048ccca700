import Mathlib.Data.Option.Basic

/-!
# Calls that return

A call of a modelled function returns a value, ends in a panic, or does not
come back within the fuel it was given.  To return is the only outcome after
which the caller goes on, so that the facts about a composed call are facts
about the calls it is composed of.
-/

/-- The calls that may panic with an `ε` or not come back. -/
abbrev Outcome (ε : Type) := ExceptT ε Option

namespace Outcome

variable {ε α β : Type}

def Yields (outcome : Outcome ε α) (result : α) : Prop :=
  outcome = ExceptT.mk (some (.ok result))

@[simp]
theorem yields_pure {value result : α} :
    Yields (pure value : Outcome ε α) result ↔ value = result := by
  constructor
  · intro returned
    cases returned
    rfl
  · rintro rfl
    rfl

@[simp]
theorem yields_bind {call : Outcome ε α} {rest : α → Outcome ε β} {result : β} :
    Yields (call >>= rest) result ↔
      ∃ value, Yields call value ∧ Yields (rest value) result := by
  constructor
  · intro returned
    match call, returned with
    | some (.ok value), returned => exact ⟨value, rfl, returned⟩
    | some (.error _), returned => cases returned
    | none, returned => cases returned
  · rintro ⟨value, rfl, returned⟩
    exact returned

theorem yields_snd {call : Outcome ε (α × β)} {result : β} :
    Yields (call >>= fun pair => pure pair.2) result ↔ ∃ value, Yields call (value, result) := by
  simp only [yields_bind, yields_pure, Prod.exists, exists_eq_right]

@[simp]
theorem yields_lift {call : Option α} {result : α} :
    Yields (liftM call : Outcome ε α) result ↔ call = some result := by
  cases call with
  | none =>
      constructor
      · intro returned
        cases returned
      · intro isSome
        cases isSome
  | some value =>
      rw [Option.some.injEq]
      exact yields_pure

@[simp]
theorem yields_mk {call : Option (Except ε α)} {result : α} :
    Yields (ExceptT.mk call : Outcome ε α) result ↔ call = some (.ok result) :=
  Iff.rfl

theorem Yields.unique {call : Outcome ε α} {first second : α} (returned : Yields call first)
    (again : Yields call second) : first = second := by
  rw [Yields, returned] at again
  cases again
  rfl

end Outcome
