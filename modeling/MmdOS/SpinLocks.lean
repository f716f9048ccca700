import Mathlib.Logic.Function.Iterate
import Mathlib.Tactic.Common

/-!
# Programs that use spinlocks

Each agent executes a list of operations: it acquires and releases locks, and
does other things in between.  A lock is a flag, so who holds it can only be
seen from the operations that are left: the next one on the lock releases it.
If all programs release what they acquire, a flag is set exactly while somebody
holds the lock, and never two agents hold it.
-/

namespace SpinLocks

open Function (update update_self update_of_ne)

inductive Op (Lock Action : Type*)
  | acquire (lock : Lock)
  | release (lock : Lock)
  | act (action : Action)
  deriving DecidableEq

variable {Lock Action Agent : Type*} [DecidableEq Lock]

/-- The next operation on the lock releases it. -/
def holds (lock : Lock) : List (Op Lock Action) → Bool
  | [] => false
  | .acquire other :: ops => if other = lock then false else holds lock ops
  | .release other :: ops => if other = lock then true else holds lock ops
  | .act _ :: ops => holds lock ops

/-- The operations on the lock alternate, and the last one releases it. -/
def Bracketed (lock : Lock) : List (Op Lock Action) → Prop
  | [] => True
  | .acquire other :: ops => (other = lock → holds lock ops = true) ∧ Bracketed lock ops
  | .release other :: ops => (other = lock → holds lock ops = false) ∧ Bracketed lock ops
  | .act _ :: ops => Bracketed lock ops

def Closed (ops : List (Op Lock Action)) : Prop :=
  ∀ lock, Bracketed lock ops ∧ holds lock ops = false

section Programs

variable {lock : Lock} {ops rest : List (Op Lock Action)}

theorem holds_append (free : holds lock rest = false) :
    holds lock (ops ++ rest) = holds lock ops := by
  induction ops with
  | nil => exact free
  | cons op ops ih => cases op <;> simp [holds, ih]

theorem Bracketed.append (first : Bracketed lock ops) (second : Bracketed lock rest)
    (free : holds lock rest = false) : Bracketed lock (ops ++ rest) := by
  induction ops with
  | nil => exact second
  | cons op ops ih =>
      cases op with
      | acquire other =>
          exact ⟨fun equal => (holds_append free).trans (first.1 equal), ih first.2⟩
      | release other =>
          exact ⟨fun equal => (holds_append free).trans (first.1 equal), ih first.2⟩
      | act action => exact ih first

theorem closed_nil : Closed ([] : List (Op Lock Action)) :=
  fun _ => ⟨trivial, rfl⟩

theorem closed_act (action : Action) : Closed [(.act action : Op Lock Action)] :=
  fun _ => ⟨trivial, rfl⟩

theorem Closed.append (first : Closed ops) (second : Closed rest) : Closed (ops ++ rest) := by
  intro lock
  obtain ⟨bracketed, free⟩ := second lock
  refine ⟨(first lock).1.append bracketed free, ?_⟩
  rw [holds_append free]
  exact (first lock).2

theorem Closed.flatten {programs : List (List (Op Lock Action))}
    (closed : ∀ ops ∈ programs, Closed ops) : Closed programs.flatten := by
  induction programs with
  | nil => exact closed_nil
  | cons ops programs ih =>
      rw [List.flatten_cons]
      exact (closed ops List.mem_cons_self).append
        (ih fun other member => closed other (List.mem_cons_of_mem _ member))

def Avoids (lock : Lock) (ops : List (Op Lock Action)) : Prop :=
  .acquire lock ∉ ops ∧ .release lock ∉ ops

def guarded (lock : Lock) (ops : List (Op Lock Action)) : List (Op Lock Action) :=
  .acquire lock :: (ops ++ [.release lock])

theorem Avoids.holds_append (avoids : Avoids lock ops) :
    holds lock (ops ++ rest) = holds lock rest := by
  induction ops with
  | nil => rfl
  | cons op ops ih =>
      simp only [Avoids, List.mem_cons, not_or] at avoids
      have tail := ih ⟨avoids.1.2, avoids.2.2⟩
      cases op with
      | acquire other =>
          have different : other ≠ lock := fun equal => avoids.1.1 (by rw [equal])
          simp [holds, different, tail]
      | release other =>
          have different : other ≠ lock := fun equal => avoids.2.1 (by rw [equal])
          simp [holds, different, tail]
      | act action => simp [holds, tail]

theorem Avoids.bracketed_append (avoids : Avoids lock ops) (bracketed : Bracketed lock rest) :
    Bracketed lock (ops ++ rest) := by
  induction ops with
  | nil => exact bracketed
  | cons op ops ih =>
      simp only [Avoids, List.mem_cons, not_or] at avoids
      have tail := ih ⟨avoids.1.2, avoids.2.2⟩
      cases op with
      | acquire other => exact ⟨fun equal => absurd (by rw [equal]) avoids.1.1, tail⟩
      | release other => exact ⟨fun equal => absurd (by rw [equal]) avoids.2.1, tail⟩
      | act action => exact tail

theorem Closed.guarded (closed : Closed ops) (avoids : Avoids lock ops) :
    Closed (guarded lock ops) := by
  intro other
  by_cases equal : lock = other
  · subst equal
    have last : Bracketed lock [(.release lock : Op Lock Action)] := ⟨fun _ => rfl, trivial⟩
    refine ⟨⟨fun _ => ?_, avoids.bracketed_append last⟩, by simp [SpinLocks.guarded, holds]⟩
    rw [avoids.holds_append]
    simp [holds]
  · have free : holds other [(.release lock : Op Lock Action)] = false := by
      simp [holds, equal]
    have last : Bracketed other [(.release lock : Op Lock Action)] :=
      ⟨fun same => absurd same equal, trivial⟩
    obtain ⟨bracketed, inside⟩ := closed other
    refine ⟨⟨fun same => absurd same equal, bracketed.append last free⟩, ?_⟩
    simp [SpinLocks.guarded, holds, equal, SpinLocks.holds_append free, inside]

end Programs

/-- The flags, and what is left of each agent's program. -/
structure Locks (Lock Action Agent : Type*) where
  locked : Lock → Bool
  rest : Agent → List (Op Lock Action)

namespace Locks

variable [DecidableEq Agent]

/-- The next operation of an agent.  An agent that finds a lock taken tries
again. -/
def advance (locks : Locks Lock Action Agent) (agent : Agent) : Locks Lock Action Agent :=
  match locks.rest agent with
  | [] => locks
  | .acquire lock :: ops =>
      if locks.locked lock then locks
      else ⟨update locks.locked lock true, update locks.rest agent ops⟩
  | .release lock :: ops =>
      ⟨update locks.locked lock false, update locks.rest agent ops⟩
  | .act _ :: ops => { locks with rest := update locks.rest agent ops }

def start (locks : Locks Lock Action Agent) (agent : Agent) (ops : List (Op Lock Action)) :
    Locks Lock Action Agent :=
  { locks with rest := update locks.rest agent ops }

theorem advance_of_locked {locks : Locks Lock Action Agent} {agent : Agent} {lock : Lock}
    {ops : List (Op Lock Action)} (restEq : locks.rest agent = .acquire lock :: ops)
    (taken : locks.locked lock = true) : locks.advance agent = locks := by
  simp [advance, restEq, taken]

theorem advance_rest_of_ne (locks : Locks Lock Action Agent) {agent other : Agent}
    (different : other ≠ agent) : (locks.advance agent).rest other = locks.rest other := by
  unfold Locks.advance
  split
  · rfl
  · split
    · rfl
    · exact update_of_ne different _ _
  · exact update_of_ne different _ _
  · exact update_of_ne different _ _

/-- A flag is set exactly while one agent holds the lock. -/
structure Exclusive (locks : Locks Lock Action Agent) : Prop where
  bracketed : ∀ agent lock, Bracketed lock (locks.rest agent)
  locked_iff : ∀ lock, locks.locked lock = true ↔ ∃ agent, holds lock (locks.rest agent)
  unique : ∀ lock first second, holds lock (locks.rest first) → holds lock (locks.rest second) →
    first = second

variable {locks : Locks Lock Action Agent} {agent : Agent}

theorem Exclusive.setAgent (exclusive : locks.Exclusive) {ops : List (Op Lock Action)}
    {locked : Lock → Bool} (bracketed : ∀ lock, Bracketed lock ops)
    (change : ∀ lock,
      (holds lock ops = holds lock (locks.rest agent) ∧ locked lock = locks.locked lock) ∨
      (holds lock ops = locked lock ∧ ∀ other, other ≠ agent →
        holds lock (locks.rest other) = false)) :
    Exclusive ⟨locked, update locks.rest agent ops⟩ := by
  refine ⟨?_, ?_, ?_⟩
  · intro other lock
    by_cases equal : other = agent
    · simp [equal, bracketed]
    · simp [update_of_ne equal, exclusive.bracketed]
  · intro lock
    dsimp only
    rcases change lock with ⟨sameHolds, sameLocked⟩ | ⟨own, alone⟩
    · rw [sameLocked, exclusive.locked_iff]
      refine exists_congr fun other => ?_
      by_cases equal : other = agent
      · simp [equal, sameHolds]
      · simp [update_of_ne equal]
    · rw [← own]
      constructor
      · intro isHeld
        exact ⟨agent, by simpa using isHeld⟩
      · rintro ⟨other, isHeld⟩
        by_cases equal : other = agent
        · simpa [equal] using isHeld
        · simp [update_of_ne equal, alone other equal] at isHeld
  · intro lock first second firstHolds secondHolds
    rcases change lock with ⟨sameHolds, -⟩ | ⟨-, alone⟩
    · have old : ∀ other, holds lock (update locks.rest agent ops other) →
          holds lock (locks.rest other) := by
        intro other isHeld
        by_cases equal : other = agent
        · simpa [equal, sameHolds] using isHeld
        · simpa [update_of_ne equal] using isHeld
      exact exclusive.unique lock first second (old first firstHolds) (old second secondHolds)
    · have own : ∀ other, holds lock (update locks.rest agent ops other) →
          other = agent := by
        intro other isHeld
        by_contra different
        simp [update_of_ne different, alone other different] at isHeld
      exact (own first firstHolds).trans (own second secondHolds).symm

theorem Exclusive.start (exclusive : locks.Exclusive) {ops : List (Op Lock Action)}
    (idle : locks.rest agent = []) (closed : Closed ops) : (locks.start agent ops).Exclusive := by
  refine exclusive.setAgent (fun lock => (closed lock).1) fun lock => .inl ⟨?_, rfl⟩
  rw [(closed lock).2, idle]
  rfl

theorem Exclusive.advance (exclusive : locks.Exclusive) (agent : Agent) :
    (locks.advance agent).Exclusive := by
  have bracketed := exclusive.bracketed agent
  unfold Locks.advance
  cases restEq : locks.rest agent with
  | nil => exact exclusive
  | cons op ops =>
      rw [restEq] at bracketed
      cases op with
      | acquire lock =>
          dsimp only
          by_cases taken : locks.locked lock = true
          · rw [if_pos taken]
            exact exclusive
          · rw [if_neg taken]
            refine exclusive.setAgent (fun other => (bracketed other).2) fun other => ?_
            by_cases equal : other = lock
            · subst equal
              refine .inr ⟨by simpa using (bracketed other).1 rfl, fun someone _ => ?_⟩
              by_contra isHeld
              rw [Bool.not_eq_false] at isHeld
              exact taken ((exclusive.locked_iff other).mpr ⟨someone, isHeld⟩)
            · refine .inl ⟨?_, update_of_ne equal _ _⟩
              simp [restEq, holds, Ne.symm equal]
      | release lock =>
          refine exclusive.setAgent (fun other => (bracketed other).2) fun other => ?_
          by_cases equal : other = lock
          · subst equal
            have isHeld : holds other (locks.rest agent) := by simp [restEq, holds]
            refine .inr ⟨by simpa using (bracketed other).1 rfl, fun someone different => ?_⟩
            by_contra alsoHeld
            rw [Bool.not_eq_false] at alsoHeld
            exact different (exclusive.unique other someone agent alsoHeld isHeld)
          · refine .inl ⟨?_, update_of_ne equal _ _⟩
            simp [restEq, holds, Ne.symm equal]
      | act action =>
          refine exclusive.setAgent (fun other => bracketed other) fun other => .inl ⟨?_, rfl⟩
          simp [restEq, holds]

/-- An agent that is alone with its locks does not wait. -/
theorem Exclusive.advance_rest (exclusive : locks.Exclusive)
    (alone : ∀ other, other ≠ agent → ∀ lock, holds lock (locks.rest other) = false)
    {op : Op Lock Action} {ops : List (Op Lock Action)} (restEq : locks.rest agent = op :: ops) :
    (locks.advance agent).rest = update locks.rest agent ops := by
  cases op with
  | acquire lock =>
      have isFree : ¬locks.locked lock = true := by
        rw [exclusive.locked_iff]
        rintro ⟨other, isHeld⟩
        by_cases equal : other = agent
        · simp [equal, restEq, holds] at isHeld
        · simp [alone other equal] at isHeld
      simp [Locks.advance, restEq, isFree]
  | release lock => simp [Locks.advance, restEq]
  | act action => simp [Locks.advance, restEq]

end Locks

/-- What a program leaves of the flags if nobody else runs meanwhile.  It has no
result where it waits for a lock: nobody releases it. -/
def complete (locked : Lock → Bool) : List (Op Lock Action) → Option (Lock → Bool)
  | [] => some locked
  | .acquire lock :: ops =>
      if locked lock then none else complete (update locked lock true) ops
  | .release lock :: ops => complete (update locked lock false) ops
  | .act _ :: ops => complete locked ops

namespace Locks

variable [DecidableEq Agent]

/-- What the agent will leave of the flags is not changed by its next operation. -/
theorem complete_advance (locks : Locks Lock Action Agent) (agent : Agent) :
    complete (locks.advance agent).locked ((locks.advance agent).rest agent) =
      complete locks.locked (locks.rest agent) := by
  unfold Locks.advance
  cases restEq : locks.rest agent with
  | nil => simp only [restEq]
  | cons op ops =>
      cases op with
      | acquire lock =>
          by_cases taken : locks.locked lock = true
          · simp [complete, restEq, taken]
          · simp [complete, taken]
      | release lock => simp [complete]
      | act action => simp [complete]

theorem complete_isSome_iff (locks : Locks Lock Action Agent) (agent : Agent) :
    (complete locks.locked (locks.rest agent)).isSome ↔
      ∃ count, ((fun locks => Locks.advance locks agent)^[count] locks).rest agent = [] := by
  constructor
  · intro ends
    generalize opsEq : locks.rest agent = ops at ends
    induction ops generalizing locks with
    | nil => exact ⟨0, opsEq⟩
    | cons op ops ih =>
        have shorter : (locks.advance agent).rest agent = ops := by
          cases op with
          | acquire lock =>
              have isFree : ¬locks.locked lock = true := by
                intro taken
                simp [complete, taken] at ends
              simp [Locks.advance, opsEq, isFree]
          | release lock => simp [Locks.advance, opsEq]
          | act action => simp [Locks.advance, opsEq]
        have later := complete_advance locks agent
        rw [shorter, opsEq] at later
        rw [← later] at ends
        obtain ⟨count, done⟩ := ih _ shorter ends
        exact ⟨count + 1, done⟩
  · rintro ⟨count, done⟩
    induction count generalizing locks with
    | zero =>
        change locks.rest agent = [] at done
        rw [done]
        rfl
    | succ count ih =>
        rw [← complete_advance]
        exact ih _ done

/-- An agent that is alone with its locks comes to the end of its program. -/
theorem Exclusive.completes {locks : Locks Lock Action Agent} {agent : Agent}
    (exclusive : locks.Exclusive)
    (alone : ∀ other, other ≠ agent → ∀ lock, holds lock (locks.rest other) = false) :
    ∃ count, ((fun locks => Locks.advance locks agent)^[count] locks).rest agent = [] := by
  generalize opsEq : locks.rest agent = ops
  induction ops generalizing locks with
  | nil => exact ⟨0, opsEq⟩
  | cons op ops ih =>
      have advanced := exclusive.advance_rest alone opsEq
      obtain ⟨count, done⟩ := ih (exclusive.advance agent) (fun other different lock => by
        rw [locks.advance_rest_of_ne different]
        exact alone other different lock) (by rw [advanced, update_self])
      exact ⟨count + 1, done⟩

end Locks

end SpinLocks
