import MmdOS.MachineWord
import MmdOS.Transitions

/-!
# The lock of the standard input

`prompt_lockstdin` guards its test and its two stores with a spinlock that is a
local variable, so the guard excludes nobody.  `cat` and `ls` call it through
the system-call gate with interrupts disabled, `snake` and `gol` call it as a
plain function and can be preempted anywhere inside.
-/

namespace MmdOS

open Function (update update_self update_of_ne)

structure StdinVariables where
  stdinLock : Bool
  lockerId : Word
  deriving DecidableEq

/-- `prompt_lockstdin`, when nothing else runs in between. -/
def promptLockstdin (callerId : Word) (globals : StdinVariables) : Bool × StdinVariables :=
  if globals.stdinLock then (false, globals) else (true, ⟨true, callerId⟩)

/-- `prompt_unlockstdin`, when nothing else runs in between. -/
def promptUnlockstdin (callerId : Word) (globals : StdinVariables) : StdinVariables :=
  if globals.stdinLock = true ∧ globals.lockerId = callerId then ⟨false, 0#64⟩ else globals

/-- Where a process stands: outside both functions, or in front of a load or a
store of one of them. -/
inductive StdinPc
  | outside
  | holding
  | lockAcquire
  | lockTest
  | lockSetId
  | lockSetFlag
  | lockRelease (result : Bool)
  | unlockAcquire
  | unlockTest
  | unlockTestId
  | unlockClearId
  | unlockClearFlag
  | unlockRelease
  deriving DecidableEq

structure StdinState where
  globals : StdinVariables
  pc : Word → StdinPc
  lock : Word → Bool

inductive StdinEvent
  /-- A plain call: of `prompt_lockstdin`, or of `prompt_unlockstdin` by a
  process that has locked. -/
  | call (pid : Word)
  /-- The next load or store of a plain call. -/
  | step (pid : Word)
  /-- The same calls through the system-call gate. -/
  | gate (pid : Word)

namespace StdinState

def goto (state : StdinState) (pid : Word) (pc : StdinPc) : StdinState :=
  { state with pc := update state.pc pid pc }

def setLock (state : StdinState) (pid : Word) (value : Bool) : StdinState :=
  { state with lock := update state.lock pid value }

def setGlobals (state : StdinState) (globals : StdinVariables) : StdinState :=
  { state with globals }

def start : StdinState :=
  ⟨⟨false, 0#64⟩, fun _ => .outside, fun _ => false⟩

def advance (state : StdinState) (pid : Word) : Option StdinState :=
  match state.pc pid with
  | .outside => none
  | .holding => none
  | .lockAcquire =>
      if state.lock pid then some state else some ((state.setLock pid true).goto pid .lockTest)
  | .lockTest =>
      if state.globals.stdinLock then some (state.goto pid (.lockRelease false))
      else some (state.goto pid .lockSetId)
  | .lockSetId =>
      some ((state.setGlobals { state.globals with lockerId := pid }).goto pid .lockSetFlag)
  | .lockSetFlag =>
      some ((state.setGlobals { state.globals with stdinLock := true }).goto pid
        (.lockRelease true))
  | .lockRelease result =>
      some ((state.setLock pid false).goto pid (if result then .holding else .outside))
  | .unlockAcquire =>
      if state.lock pid then some state else some ((state.setLock pid true).goto pid .unlockTest)
  | .unlockTest =>
      if state.globals.stdinLock then some (state.goto pid .unlockTestId)
      else some (state.goto pid .unlockRelease)
  | .unlockTestId =>
      if state.globals.lockerId = pid then some (state.goto pid .unlockClearId)
      else some (state.goto pid .unlockRelease)
  | .unlockClearId =>
      some ((state.setGlobals { state.globals with lockerId := 0#64 }).goto pid .unlockClearFlag)
  | .unlockClearFlag =>
      some ((state.setGlobals { state.globals with stdinLock := false }).goto pid .unlockRelease)
  | .unlockRelease => some ((state.setLock pid false).goto pid .outside)

def step : StdinEvent → StdinState → Option StdinState
  | .call pid, state =>
      match state.pc pid with
      | .outside => some ((state.setLock pid false).goto pid .lockAcquire)
      | .holding => some ((state.setLock pid false).goto pid .unlockAcquire)
      | _ => none
  | .step pid, state => state.advance pid
  | .gate pid, state =>
      match state.pc pid with
      | .outside =>
          let (result, globals) := promptLockstdin pid state.globals
          some ((state.setGlobals globals).goto pid (if result then .holding else .outside))
      | .holding =>
          some ((state.setGlobals (promptUnlockstdin pid state.globals)).goto pid .outside)
      | _ => none

end StdinState

namespace StdinPc

/-- The process has received 1 and has not completed its unlock. -/
def holds : StdinPc → Bool
  | holding | unlockAcquire | unlockTest | unlockTestId | unlockClearId | unlockClearFlag
  | unlockRelease => true
  | _ => false

/-- The process has seen the lock open and has not closed it yet. -/
def claims : StdinPc → Bool
  | lockSetId | lockSetFlag => true
  | _ => false

def unlocking : StdinPc → Bool
  | unlockAcquire | unlockTest | unlockTestId | unlockClearId | unlockClearFlag
  | unlockRelease => true
  | _ => false

def owns : StdinPc → Bool
  | holding | lockRelease true => true
  | _ => false

theorem owns_of_holds {pc : StdinPc} (isHolding : pc.holds) (notUnlocking : pc.unlocking = false) :
    pc.owns := by
  cases pc <;> simp_all [holds, unlocking, owns]

end StdinPc

namespace StdinState

/-- At most one process holds the lock, and the variables say which. -/
def Exclusive (state : StdinState) : Prop :=
  (∀ first second, (state.pc first).holds → (state.pc second).holds → first = second) ∧
    ∀ pid, (state.pc pid).holds →
      state.globals.stdinLock = true ∧ state.globals.lockerId = pid

def NoOtherClaim (state : StdinState) (pid : Word) : Prop :=
  ∀ other, other ≠ pid → (state.pc other).claims = false

/-- The test is not made while another process is between its test and its
stores, and `prompt_unlockstdin` is called through the gate. -/
def Allowed : StdinEvent → StdinState → Prop
  | .call pid, state => state.pc pid ≠ .holding
  | .step pid, state => state.pc pid = .lockTest → state.NoOtherClaim pid
  | .gate pid, state => state.pc pid = .outside → state.NoOtherClaim pid

structure Inv (state : StdinState) : Prop where
  notUnlocking : ∀ pid, (state.pc pid).unlocking = false
  claim_unique : ∀ first second, (state.pc first).claims → (state.pc second).claims →
    first = second
  claim_open : ∀ pid, (state.pc pid).claims → state.globals.stdinLock = false
  claim_id : ∀ pid, state.pc pid = .lockSetFlag → state.globals.lockerId = pid
  owner : ∀ pid, (state.pc pid).owns →
    state.globals.stdinLock = true ∧ state.globals.lockerId = pid

theorem Inv.exclusive {state : StdinState} (inv : state.Inv) : state.Exclusive := by
  have holder : ∀ pid, (state.pc pid).holds →
      state.globals.stdinLock = true ∧ state.globals.lockerId = pid :=
    fun pid isHolding =>
      inv.owner pid (StdinPc.owns_of_holds isHolding (inv.notUnlocking pid))
  refine ⟨?_, holder⟩
  intro first second firstHolds secondHolds
  exact (holder first firstHolds).2.symm.trans (holder second secondHolds).2

theorem start_inv : start.Inv := by
  constructor <;> simp [start, StdinPc.unlocking, StdinPc.claims, StdinPc.owns]

section Preservation

variable {state : StdinState} {pid : Word} {pc : StdinPc}

section

variable (state)

@[simp]
theorem goto_pc (pid : Word) (pc : StdinPc) :
    (state.goto pid pc).pc = update state.pc pid pc :=
  rfl

@[simp]
theorem goto_globals (pid : Word) (pc : StdinPc) :
    (state.goto pid pc).globals = state.globals :=
  rfl

@[simp]
theorem setGlobals_pc (globals : StdinVariables) :
    (state.setGlobals globals).pc = state.pc :=
  rfl

@[simp]
theorem setGlobals_globals (globals : StdinVariables) :
    (state.setGlobals globals).globals = globals :=
  rfl

@[simp]
theorem goto_lock (pid : Word) (pc : StdinPc) :
    (state.goto pid pc).lock = state.lock :=
  rfl

@[simp]
theorem setGlobals_lock (globals : StdinVariables) :
    (state.setGlobals globals).lock = state.lock :=
  rfl

@[simp]
theorem setLock_pc (pid : Word) (value : Bool) :
    (state.setLock pid value).pc = state.pc :=
  rfl

@[simp]
theorem setLock_globals (pid : Word) (value : Bool) :
    (state.setLock pid value).globals = state.globals :=
  rfl

@[simp]
theorem setLock_lock (pid : Word) (value : Bool) :
    (state.setLock pid value).lock = update state.lock pid value :=
  rfl

end

section

variable (inv : state.Inv)
include inv

theorem Inv.setLock (pid : Word) (value : Bool) :
    (state.setLock pid value).Inv :=
  ⟨inv.notUnlocking, inv.claim_unique, inv.claim_open, inv.claim_id, inv.owner⟩

theorem Inv.notUnlocking_update (noUnlock : pc.unlocking = false) (other : Word) :
    (update state.pc pid pc other).unlocking = false := by
  by_cases equal : other = pid
  · simp [equal, noUnlock]
  · simp [update_of_ne equal, inv.notUnlocking]

theorem Inv.goto_idle (noUnlock : pc.unlocking = false) (noClaim : pc.claims = false)
    (noOwner : pc.owns = false) : (state.goto pid pc).Inv := by
  have notSetting : pc ≠ .lockSetFlag := by
    rintro rfl
    cases noClaim
  have old : ∀ other, (update state.pc pid pc other).claims →
      (state.pc other).claims := by
    intro other claims
    by_cases equal : other = pid
    · simp [equal, noClaim] at claims
    · rwa [update_of_ne equal] at claims
  constructor
  · exact inv.notUnlocking_update noUnlock
  · intro first second firstClaims secondClaims
    exact inv.claim_unique first second (old first firstClaims) (old second secondClaims)
  · intro other claims
    exact inv.claim_open other (old other claims)
  · intro other setting
    by_cases equal : other = pid
    · simp [equal, notSetting] at setting
    · simp only [goto_pc, update_of_ne equal] at setting
      exact inv.claim_id other setting
  · intro other owns
    by_cases equal : other = pid
    · simp [equal, noOwner] at owns
    · simp only [goto_pc, update_of_ne equal] at owns
      exact inv.owner other owns

/-- When no other process claims or owns the lock, a process may take a new
part in it and change the variables accordingly. -/
theorem Inv.goto_alone {globals : StdinVariables}
    (alone : ∀ other, other ≠ pid → (state.pc other).claims = false ∧ (state.pc other).owns = false)
    (noUnlock : pc.unlocking = false) (claimOpen : pc.claims → globals.stdinLock = false)
    (claimId : pc = .lockSetFlag → globals.lockerId = pid)
    (owner : pc.owns → globals.stdinLock = true ∧ globals.lockerId = pid) :
    ((state.setGlobals globals).goto pid pc).Inv := by
  have own : ∀ other, (update state.pc pid pc other).claims ∨
      (update state.pc pid pc other).owns → other = pid := by
    intro other part
    by_contra different
    simp [update_of_ne different, alone other different] at part
  constructor
  · exact inv.notUnlocking_update noUnlock
  · intro first second firstClaims secondClaims
    exact (own first (.inl firstClaims)).trans (own second (.inl secondClaims)).symm
  · intro other claims
    have equal := own other (.inl claims)
    simp only [equal, goto_pc, setGlobals_pc, update_self] at claims
    exact claimOpen claims
  · intro other setting
    have equal := own other (.inl (by
      simp only [goto_pc, setGlobals_pc] at setting
      simp [setting, StdinPc.claims]))
    simp only [equal, goto_pc, setGlobals_pc, update_self] at setting
    rw [equal]
    exact claimId setting
  · intro other owns
    have equal := own other (.inr owns)
    simp only [equal, goto_pc, setGlobals_pc, update_self] at owns
    rw [equal]
    exact owner owns

/-- While a process claims the lock, nobody else has a part in it. -/
theorem Inv.alone_of_claims (claims : (state.pc pid).claims) (other : Word)
    (different : other ≠ pid) :
    (state.pc other).claims = false ∧ (state.pc other).owns = false := by
  have isOpen := inv.claim_open pid claims
  constructor
  · by_contra otherClaims
    rw [Bool.not_eq_false] at otherClaims
    exact different (inv.claim_unique other pid otherClaims claims)
  · by_contra otherOwns
    rw [Bool.not_eq_false] at otherOwns
    simp [(inv.owner other otherOwns).1] at isOpen

/-- While the lock is open and nobody else claims it, nobody else has a part
in it. -/
theorem Inv.alone_of_open (isOpen : state.globals.stdinLock = false)
    (noClaim : state.NoOtherClaim pid) (other : Word) (different : other ≠ pid) :
    (state.pc other).claims = false ∧ (state.pc other).owns = false := by
  refine ⟨noClaim other different, ?_⟩
  by_contra otherOwns
  rw [Bool.not_eq_false] at otherOwns
  simp [(inv.owner other otherOwns).1] at isOpen

/-- While a process owns the lock, nobody else has a part in it. -/
theorem Inv.alone_of_owns (owns : (state.pc pid).owns) (other : Word) (different : other ≠ pid) :
    (state.pc other).claims = false ∧ (state.pc other).owns = false := by
  obtain ⟨closed, ownerEq⟩ := inv.owner pid owns
  constructor
  · by_contra otherClaims
    rw [Bool.not_eq_false] at otherClaims
    simp [inv.claim_open other otherClaims] at closed
  · by_contra otherOwns
    rw [Bool.not_eq_false] at otherOwns
    exact different ((inv.owner other otherOwns).2.symm.trans ownerEq)

theorem Inv.advance {next : StdinState}
    (allowed : state.pc pid = .lockTest → state.NoOtherClaim pid)
    (stepEq : state.advance pid = some next) : next.Inv := by
  have noUnlock := inv.notUnlocking pid
  unfold StdinState.advance at stepEq
  cases here : state.pc pid with
  | outside => simp [here] at stepEq
  | holding => simp [here] at stepEq
  | lockAcquire =>
      simp only [here] at stepEq
      split at stepEq
      · rw [← Option.some.inj stepEq]
        exact inv
      · rw [← Option.some.inj stepEq]
        exact (inv.setLock pid true).goto_idle rfl rfl rfl
  | lockTest =>
      simp only [here] at stepEq
      split at stepEq
      · rw [← Option.some.inj stepEq]
        exact inv.goto_idle rfl rfl rfl
      · next isOpen =>
        rw [Bool.not_eq_true] at isOpen
        rw [← Option.some.inj stepEq]
        have alone := inv.alone_of_open isOpen (allowed here)
        exact inv.goto_alone alone rfl (fun _ => isOpen) nofun nofun
  | lockSetId =>
      have claims : (state.pc pid).claims := by simp [here, StdinPc.claims]
      simp only [here, Option.some.injEq] at stepEq
      rw [← stepEq]
      exact inv.goto_alone (inv.alone_of_claims claims) rfl (fun _ => inv.claim_open pid claims)
        (fun _ => rfl) nofun
  | lockSetFlag =>
      have claims : (state.pc pid).claims := by simp [here, StdinPc.claims]
      simp only [here, Option.some.injEq] at stepEq
      rw [← stepEq]
      exact inv.goto_alone (inv.alone_of_claims claims) rfl nofun nofun
        (fun _ => ⟨rfl, inv.claim_id pid here⟩)
  | lockRelease result =>
      simp only [here, Option.some.injEq] at stepEq
      rw [← stepEq]
      cases result with
      | false => exact (inv.setLock pid false).goto_idle rfl rfl rfl
      | true =>
          have owns : (state.pc pid).owns := by simp [here, StdinPc.owns]
          exact (inv.setLock pid false).goto_alone (inv.alone_of_owns owns) rfl nofun nofun
            (fun _ => inv.owner pid owns)
  | unlockAcquire => simp [here, StdinPc.unlocking] at noUnlock
  | unlockTest => simp [here, StdinPc.unlocking] at noUnlock
  | unlockTestId => simp [here, StdinPc.unlocking] at noUnlock
  | unlockClearId => simp [here, StdinPc.unlocking] at noUnlock
  | unlockClearFlag => simp [here, StdinPc.unlocking] at noUnlock
  | unlockRelease => simp [here, StdinPc.unlocking] at noUnlock

end

theorem Inv.step {event : StdinEvent} {next : StdinState} (inv : state.Inv)
    (allowed : Allowed event state) (stepEq : step event state = some next) : next.Inv := by
  cases event with
  | call pid =>
      unfold StdinState.step at stepEq
      cases here : state.pc pid <;> simp only [here, Option.some.injEq, reduceCtorEq] at stepEq
      case outside =>
        rw [← stepEq]
        exact (inv.setLock pid false).goto_idle rfl rfl rfl
      case holding => exact absurd here allowed
  | step pid => exact inv.advance allowed stepEq
  | gate pid =>
      unfold StdinState.step at stepEq
      cases here : state.pc pid <;> simp only [here, Option.some.injEq, reduceCtorEq] at stepEq
      case outside =>
        cases locked : state.globals.stdinLock with
        | true =>
            simp only [promptLockstdin, locked, if_true] at stepEq
            rw [← stepEq]
            exact inv.goto_idle rfl rfl rfl
        | false =>
            simp only [promptLockstdin, locked, Bool.false_eq_true, if_false, if_true] at stepEq
            rw [← stepEq]
            exact inv.goto_alone (inv.alone_of_open locked (allowed here)) rfl nofun nofun
              (fun _ => ⟨rfl, rfl⟩)
      case holding =>
        have owns : (state.pc pid).owns := by simp [here, StdinPc.owns]
        rw [← stepEq]
        exact inv.goto_alone (inv.alone_of_owns owns) rfl nofun nofun nofun

end Preservation

def observe (state : StdinState) : StdinVariables × (Word → StdinPc) :=
  (state.globals, state.pc)

/-- A plain call that nothing interrupts does what the call through the gate
does. -/
theorem uninterrupted (state : StdinState) (pid : Word) :
    ∃ rounds, (Transitions.run step (.call pid :: List.replicate rounds (.step pid)) state).map
      observe = (step (.gate pid) state).map observe := by
  cases here : state.pc pid
  case outside =>
    cases locked : state.globals.stdinLock with
    | true =>
        refine ⟨3, ?_⟩
        simp [Transitions.run, step, advance, here, locked, promptLockstdin, observe]
    | false =>
        refine ⟨5, ?_⟩
        simp [Transitions.run, step, advance, here, locked, promptLockstdin, observe]
  case holding =>
    by_cases own : state.globals.stdinLock = true ∧ state.globals.lockerId = pid
    · refine ⟨6, ?_⟩
      simp [Transitions.run, step, advance, here, own, promptUnlockstdin, observe]
    · cases locked : state.globals.stdinLock with
      | true =>
          have different : state.globals.lockerId ≠ pid := fun equal => own ⟨locked, equal⟩
          refine ⟨4, ?_⟩
          simp [Transitions.run, step, advance, here, locked, different, promptUnlockstdin,
            observe]
      | false =>
          refine ⟨3, ?_⟩
          simp [Transitions.run, step, advance, here, locked, promptUnlockstdin, observe]
  all_goals exact ⟨0, by simp [Transitions.run, step, here]⟩

/-- Along allowed events at most one process holds the lock. -/
theorem stdin_lock_exclusive {state : StdinState}
    (reaches : Transitions.Reaches step Allowed start state) : state.Exclusive :=
  (reaches.invariant start_inv Inv.step).exclusive

theorem stdin_lock_exclusive_two : ∃ state : StdinState, (state.pc 2#64).holds ∧
    state.pc 3#64 = .lockAcquire ∧ state.Exclusive := by
  have gateAllowed : Allowed (.gate 2#64) start := fun _ _ _ => rfl
  have locked : Transitions.Reaches step Allowed start
      ((start.setGlobals ⟨true, 2#64⟩).goto 2#64 .holding) := .tail .refl gateAllowed rfl
  have callAllowed : Allowed (.call 3#64) ((start.setGlobals ⟨true, 2#64⟩).goto 2#64 .holding) :=
    by simp [Allowed, start]
  have called := locked.tail callAllowed rfl
  exact ⟨_, rfl, rfl, stdin_lock_exclusive called⟩

/-- Two processes that make their tests one after the other both receive 1. -/
theorem stdin_lock_taken_twice : ∃ state,
    Transitions.Reaches step (fun _ _ => True) start state ∧
      (state.pc 2#64).holds ∧ (state.pc 3#64).holds := by
  have ran : Transitions.run step
      [.call 2#64, .step 2#64, .step 2#64, .call 3#64, .step 3#64, .step 3#64,
        .step 2#64, .step 2#64, .step 2#64, .step 3#64, .step 3#64, .step 3#64] start = some _ := rfl
  exact ⟨_, Transitions.Reaches.refl.run ran, rfl, rfl⟩

end StdinState

end MmdOS
