import Mathlib.Logic.Function.Basic
import Mathlib.Tactic.Common

/-!
# Tables of counted values

A slot of a table is empty, or holds a value together with the number of its
users.  It is filled for a first user, and emptied when the last one leaves.
-/

namespace CountedTable

variable {Id Value : Type*}

abbrev Table (Id Value : Type*) := Id → Option (Value × Nat)

section Operations

variable [DecidableEq Id] (table : Table Id Value) (id : Id)

def insert (value : Value) : Table Id Value :=
  Function.update table id (some (value, 1))

def retain : Table Id Value :=
  Function.update table id ((table id).map fun slot => (slot.1, slot.2 + 1))

def release : Table Id Value :=
  Function.update table id
    ((table id).bind fun slot => if slot.2 ≤ 1 then none else some (slot.1, slot.2 - 1))

end Operations

/-- The count of a slot is the number of its users, and a slot is empty exactly
when it has none. -/
structure Exact (table : Table Id Value) (users : Id → Nat) : Prop where
  empty : ∀ {id}, table id = none → users id = 0
  count : ∀ {id value count}, table id = some (value, count) → count = users id ∧ 1 ≤ count

namespace Exact

variable {table : Table Id Value} {users : Id → Nat} {id : Id}

theorem ne_none_iff (exact : Exact table users) : table id ≠ none ↔ 1 ≤ users id := by
  cases slotEq : table id with
  | none => simp [exact.empty slotEq]
  | some slot =>
      obtain ⟨countEq, positive⟩ := exact.count slotEq
      simp [← countEq, positive]

theorem none (table : Table Id Value) (allEmpty : ∀ id, table id = none) :
    Exact table fun _ => 0 where
  empty := fun _ => rfl
  count := by
    intro id value count slotEq
    simp [allEmpty] at slotEq

variable [DecidableEq Id]

theorem update (exact : Exact table users) (id : Id) {slot : Option (Value × Nat)} {number : Nat}
    (emptied : slot = Option.none → number = 0)
    (counted : ∀ {value count}, slot = some (value, count) → count = number ∧ 1 ≤ count) :
    Exact (Function.update table id slot) (Function.update users id number) where
  empty := by
    intro other slotEq
    by_cases same : other = id
    · subst same
      rw [Function.update_self] at slotEq ⊢
      exact emptied slotEq
    · rw [Function.update_of_ne same] at slotEq ⊢
      exact exact.empty slotEq
  count := by
    intro other value count slotEq
    by_cases same : other = id
    · subst same
      rw [Function.update_self] at slotEq ⊢
      exact counted slotEq
    · rw [Function.update_of_ne same] at slotEq ⊢
      exact exact.count slotEq

theorem insert (exact : Exact table users) (isEmpty : table id = Option.none) (value : Value) :
    Exact (insert table id value) (Function.update users id (users id + 1)) := by
  have unused := exact.empty isEmpty
  apply exact.update id
  · intro slotEq
    cases slotEq
  · intro other count slotEq
    simp only [Option.some.injEq, Prod.mk.injEq] at slotEq
    omega

theorem retain (exact : Exact table users) (present : table id ≠ Option.none) :
    Exact (retain table id) (Function.update users id (users id + 1)) := by
  apply exact.update id
  · intro slotEq
    exact absurd (Option.map_eq_none_iff.mp slotEq) present
  · intro value count slotEq
    obtain ⟨⟨oldValue, oldCount⟩, oldEq, newEq⟩ := Option.map_eq_some_iff.mp slotEq
    simp only [Prod.mk.injEq] at newEq
    have := exact.count oldEq
    omega

theorem release (exact : Exact table users) (id : Id) :
    Exact (release table id) (Function.update users id (users id - 1)) := by
  apply exact.update id
  · intro slotEq
    cases oldEq : table id with
    | none =>
        rw [exact.empty oldEq]
    | some slot =>
        obtain ⟨countEq, -⟩ := exact.count oldEq
        simp only [oldEq, Option.bind_some, ite_eq_left_iff, reduceCtorEq, imp_false,
          not_not] at slotEq
        omega
  · intro value count slotEq
    obtain ⟨⟨oldValue, oldCount⟩, oldEq, newEq⟩ := Option.bind_eq_some_iff.mp slotEq
    simp only [Option.ite_none_left_eq_some, Option.some.injEq, Prod.mk.injEq] at newEq
    have := exact.count oldEq
    omega

end Exact

/-- The slot holds the same value as before, unless it is empty before or
after. -/
def Keeps (table table' : Table Id Value) (id : Id) : Prop :=
  ∀ {slot slot'}, table id = some slot → table' id = some slot' → slot'.1 = slot.1

section Keeps

variable [DecidableEq Id] {table : Table Id Value} {id : Id}

theorem keeps_update {slot : Option (Value × Nat)}
    (kept : ∀ {old new}, table id = some old → slot = some new → new.1 = old.1) (other : Id) :
    Keeps table (Function.update table id slot) other := by
  intro old new oldEq newEq
  by_cases same : other = id
  · subst same
    rw [Function.update_self] at newEq
    exact kept oldEq newEq
  · rw [Function.update_of_ne same, oldEq, Option.some.injEq] at newEq
    rw [newEq]

theorem keeps_insert (isEmpty : table id = none) (value : Value) (other : Id) :
    Keeps table (insert table id value) other := by
  apply keeps_update
  intro old new oldEq
  simp [isEmpty] at oldEq

theorem keeps_retain (table : Table Id Value) (id other : Id) :
    Keeps table (retain table id) other := by
  apply keeps_update
  intro old new oldEq newEq
  rw [oldEq, Option.map_some, Option.some.injEq] at newEq
  rw [← newEq]

theorem keeps_release (table : Table Id Value) (id other : Id) :
    Keeps table (release table id) other := by
  apply keeps_update
  intro old new oldEq newEq
  rw [oldEq, Option.bind_some, Option.ite_none_left_eq_some, Option.some.injEq] at newEq
  rw [← newEq.2]

end Keeps

end CountedTable
