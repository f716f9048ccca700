import Mathlib.Data.List.Infix

/-!
# Two machines that read the same keys

A machine takes one key in a round.  When a second machine stays in step with it as
long as the rounds of the second one are fine, what is asked of all the rounds of one
of them can be asked of the other.
-/

namespace Lockstep

variable {State Reference Key : Type*}

def EveryRound (step : State → Key → State) (Good : State → Key → Prop) :
    State → List Key → Prop
  | _, [] => True
  | state, key :: keys => Good state key ∧ EveryRound step Good (step state key) keys

variable {step : State → Key → State} {Good Fine : State → Key → Prop}

theorem everyRound_and {state : State} {keys : List Key} :
    EveryRound step (fun state key => Good state key ∧ Fine state key) state keys ↔
      EveryRound step Good state keys ∧ EveryRound step Fine state keys := by
  induction keys generalizing state with
  | nil => simp [EveryRound]
  | cons key keys induction =>
      simp only [EveryRound, induction]
      tauto

theorem everyRound_iff_prefix {state : State} {keys : List Key} :
    EveryRound step Good state keys ↔
      ∀ visited key, visited ++ [key] <+: keys → Good (visited.foldl step state) key := by
  induction keys generalizing state with
  | nil => simp [EveryRound]
  | cons first keys induction =>
      rw [EveryRound, induction]
      constructor
      · rintro ⟨good, rest⟩ visited key isPrefix
        cases visited with
        | nil =>
            obtain rfl := (List.cons_prefix_cons.mp isPrefix).1
            exact good
        | cons head visited =>
            obtain ⟨rfl, shorter⟩ := List.cons_prefix_cons.mp isPrefix
            exact rest visited key shorter
      · intro all
        refine ⟨all [] first (List.cons_prefix_cons.mpr ⟨rfl, List.nil_prefix⟩), ?_⟩
        intro visited key isPrefix
        exact all (first :: visited) key (List.cons_prefix_cons.mpr ⟨rfl, isPrefix⟩)

theorem forall_prefix_iff {P : State → Prop} {state : State} {keys : List Key} :
    (∀ visited, visited <+: keys → P (visited.foldl step state)) ↔
      P state ∧ EveryRound step (fun state key => P (step state key)) state keys := by
  induction keys generalizing state with
  | nil => simp [EveryRound]
  | cons first keys induction =>
      rw [EveryRound, ← induction]
      constructor
      · intro all
        refine ⟨all [] List.nil_prefix, ?_⟩
        intro visited isPrefix
        exact all (first :: visited) (List.cons_prefix_cons.mpr ⟨rfl, isPrefix⟩)
      · rintro ⟨start, rest⟩ visited isPrefix
        cases visited with
        | nil => exact start
        | cons head visited =>
            obtain ⟨rfl, shorter⟩ := List.cons_prefix_cons.mp isPrefix
            exact rest visited shorter

/-- Machines that agree on which rounds are good, and stay related over good rounds,
have the same good runs. -/
theorem everyRound_iff {follow : Reference → Key → Reference} {Fine : Reference → Key → Prop}
    (Related : State → Reference → Prop)
    (agree : ∀ state reference key, Related state reference →
      (Good state key ↔ Fine reference key))
    (keep : ∀ state reference key, Related state reference → Fine reference key →
      Related (step state key) (follow reference key))
    {state : State} {reference : Reference} (related : Related state reference)
    (keys : List Key) :
    EveryRound step Good state keys ↔ EveryRound follow Fine reference keys := by
  induction keys generalizing state reference with
  | nil => simp [EveryRound]
  | cons key keys induction =>
      -- After a round that is not fine neither side holds, so the relation may break there.
      rw [EveryRound, EveryRound, agree state reference key related]
      constructor
      · rintro ⟨fine, rest⟩
        exact ⟨fine, (induction (keep state reference key related fine)).mp rest⟩
      · rintro ⟨fine, rest⟩
        exact ⟨fine, (induction (keep state reference key related fine)).mpr rest⟩

end Lockstep
