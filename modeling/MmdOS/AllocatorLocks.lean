import MmdOS.SchedulerCalls
import MmdOS.SchedulerRuns
import MmdOS.SpinLocks
import MmdOS.Transitions

/-!
# The locks of the allocators

The physical allocator and the kernel's address space are guarded by one
spinlock each.  Processes take them with interrupts enabled, and `schedule`
takes them in the timer interrupt when it deletes a process.  Of the functions
of the allocators this file keeps the operations on the locks, in the order in
which each function makes them.  Whether the call of `kfree` in `process_delete`
comes back depends on the locks, and with it whether `schedule` does.
-/

namespace MmdOS

open SpinLocks Transitions

/-- `spin_lock` of `pmm.c`, and the lock of `vmm_kernel`. -/
inductive AllocatorLock
  | pmm
  | vmm
  deriving DecidableEq

/-- What a process or `schedule` does; the action is `process_add`. -/
abbrev KernelOps := List (Op AllocatorLock NewProcess)

section Functions

def pmmAllocOps : KernelOps := guarded .pmm []

def pmmFreeOps (nPages : Nat) : KernelOps :=
  if nPages = 0 then [] else guarded .pmm []

/-- `vmm_map_page` on `vmm_kernel`, when `walk_pte` finds some of the three
tables missing. -/
def vmmMapPageOps (missing : Nat) : KernelOps :=
  guarded .vmm (List.replicate missing pmmAllocOps).flatten

def vmmUnmapPageOps : KernelOps := guarded .vmm []

def arenaPages (size : Nat) : Nat :=
  (size + 40 + 8 + 4095) / 4096

/-- `k_alloc`.  No arena is ever linked, so every block gets its own. -/
def kAllocOps (size : Nat) (missing : Nat → Nat) : KernelOps :=
  pmmAllocOps ++ ((List.range (arenaPages size)).map fun i => vmmMapPageOps (missing i)).flatten

def kFreeOps (size : Nat) : KernelOps :=
  pmmFreeOps (arenaPages size) ++ (List.replicate (arenaPages size) vmmUnmapPageOps).flatten

def vmmNewOps (first second : Nat) : KernelOps :=
  pmmAllocOps ++ pmmAllocOps ++ vmmMapPageOps first ++ vmmMapPageOps second

def processSize : Nat := 2176

def contextSize : Nat := 176

def stackSize : Nat := 65536

/-- `process_create`; `missing` counts the tables that each of its mappings
finds missing. -/
def processCreateOps (new : NewProcess) (missing : Nat → Nat → Nat) : KernelOps :=
  kAllocOps processSize (missing 0) ++ kAllocOps contextSize (missing 1) ++
    kAllocOps stackSize (missing 2) ++ vmmNewOps (missing 3 0) (missing 3 1) ++ [.act new]

end Functions

inductive KernelCall
  | kAlloc (size : Nat) (missing : Nat → Nat)
  | kFree (size : Nat)
  | vmmNew (first second : Nat)
  | processCreate (new : NewProcess) (missing : Nat → Nat → Nat)

def KernelCall.ops : KernelCall → KernelOps
  | kAlloc size missing => kAllocOps size missing
  | kFree size => kFreeOps size
  | vmmNew first second => vmmNewOps first second
  | processCreate new missing => processCreateOps new missing

section Closed

theorem pmmAllocOps_closed : Closed pmmAllocOps :=
  closed_nil.guarded ⟨nofun, nofun⟩

theorem vmmMapPageOps_closed (missing : Nat) : Closed (vmmMapPageOps missing) := by
  refine Closed.guarded (Closed.flatten fun ops member => ?_) ?_
  · rw [List.eq_of_mem_replicate member]
    exact pmmAllocOps_closed
  · have absent : ∀ op ∈ (List.replicate missing pmmAllocOps).flatten,
        op = .acquire .pmm ∨ op = .release .pmm := by
      intro op member
      obtain ⟨ops, isOps, inOps⟩ := List.mem_flatten.mp member
      rw [List.eq_of_mem_replicate isOps] at inOps
      simpa [pmmAllocOps, guarded] using inOps
    exact ⟨fun member => by simpa using absent _ member, fun member => by simpa using absent _ member⟩

theorem vmmUnmapPageOps_closed : Closed vmmUnmapPageOps :=
  closed_nil.guarded ⟨nofun, nofun⟩

theorem kAllocOps_closed (size : Nat) (missing : Nat → Nat) : Closed (kAllocOps size missing) := by
  refine pmmAllocOps_closed.append (Closed.flatten fun ops member => ?_)
  obtain ⟨i, -, rfl⟩ := List.mem_map.mp member
  exact vmmMapPageOps_closed _

theorem kFreeOps_closed (size : Nat) : Closed (kFreeOps size) := by
  have freed : Closed (pmmFreeOps (arenaPages size)) := by
    rw [pmmFreeOps]
    split
    · exact closed_nil
    · exact closed_nil.guarded ⟨nofun, nofun⟩
  refine freed.append (Closed.flatten fun ops member => ?_)
  rw [List.eq_of_mem_replicate member]
  exact vmmUnmapPageOps_closed

theorem vmmNewOps_closed (first second : Nat) : Closed (vmmNewOps first second) :=
  ((pmmAllocOps_closed.append pmmAllocOps_closed).append (vmmMapPageOps_closed first)).append
    (vmmMapPageOps_closed second)

theorem KernelCall.ops_closed (call : KernelCall) : Closed call.ops := by
  cases call with
  | kAlloc size missing => exact kAllocOps_closed size missing
  | kFree size => exact kFreeOps_closed size
  | vmmNew first second => exact vmmNewOps_closed first second
  | processCreate new missing =>
      exact ((((kAllocOps_closed _ _).append (kAllocOps_closed _ _)).append
        (kAllocOps_closed _ _)).append (vmmNewOps_closed _ _)).append (closed_act new)

end Closed

inductive Agent
  | process (pointer : Word)
  | handler
  deriving DecidableEq

/-- The scheduler, the locks, and while `schedule` is deleting a process the
state in which it will return. -/
structure AllocatorState where
  sched : SchedState
  locks : Locks AllocatorLock NewProcess Agent
  deleting : Option SchedState

inductive AllocatorEvent
  /-- The running process calls a function of the kernel. -/
  | call (call : KernelCall)
  /-- The next operation of the running process. -/
  | next (fuel : Nat)
  | tick (fuel : Nat) (frame : Word)
  /-- The running process exits, and `schedule` comes to `process_delete`. -/
  | exit (fuel : Nat) (frame : Word)
  /-- The next operation of `schedule`, with interrupts disabled. -/
  | handler

namespace AllocatorState

variable {fuel count : Nat}

def Runs (state : AllocatorState) : Prop :=
  state.deleting.isNone ∧ state.sched.currentProcess ≠ 0#64

instance (state : AllocatorState) : Decidable state.Runs :=
  inferInstanceAs (Decidable (_ ∧ _))

def currentOps (state : AllocatorState) : KernelOps :=
  state.locks.rest (.process state.sched.currentProcess)

def step (switchPml : Word → Word) : AllocatorEvent → AllocatorState → Option AllocatorState
  | .call call, state =>
      if state.Runs ∧ state.currentOps.isEmpty then
        some { state with
          locks := state.locks.start (.process state.sched.currentProcess) call.ops }
      else none
  | .next fuel, state =>
      if state.Runs then
        let locks := state.locks.advance (.process state.sched.currentProcess)
        match state.currentOps with
        | [] => none
        | .act new :: _ =>
            (processCreate fuel state.sched new).map fun sched => { state with sched, locks }
        | .acquire _ :: _ | .release _ :: _ => some { state with locks }
      else none
  | .tick fuel frame, state =>
      if state.deleting.isNone then
        match timerHandler freed switchPml fuel state.sched frame with
        | some (.ok (_, sched)) => some { state with sched }
        | some (.error _) => none
        | none => none
      else none
  | .exit fuel frame, state =>
      if state.Runs ∧ state.currentOps.isEmpty ∧
          state.sched.pid state.sched.currentProcess ≠ 1 then
        match processExit freed switchPml fuel state.sched frame with
        | some (.ok (_, sched)) =>
            some { state with
              locks := state.locks.start .handler (kFreeOps processSize)
              deleting := some sched }
        | some (.error _) => none
        | none => none
      else none
  | .handler, state =>
      match state.deleting with
      | none => none
      | some sched =>
          if (state.locks.rest .handler).isEmpty then some { state with sched, deleting := none }
          else some { state with locks := state.locks.advance .handler }

/-- `schedule` waits for a lock that a preempted process holds. -/
def Deadlocked (state : AllocatorState) : Prop :=
  state.deleting.isSome ∧ ∃ lock ops pointer,
    state.locks.rest .handler = .acquire lock :: ops ∧ state.locks.locked lock = true ∧
      holds lock (state.locks.rest (.process pointer))

def DeletionEnds (switchPml : Word → Word) (state : AllocatorState) : Prop :=
  ∀ sched, state.deleting = some sched →
    ∃ count next, run (step switchPml) (List.replicate count .handler) state = some next ∧
      next.deleting = none ∧ next.sched = sched

/-- `kfree` of a process in the timer interrupt, where no process runs
meanwhile. -/
def kfreeInHandler (locks : Locks AllocatorLock NewProcess Agent) : Kfree :=
  fun _ => (complete locks.locked (kFreeOps processSize)).map fun _ => .ok ()

/-- When a process exits, no process is between the acquisition and the release
of a lock. -/
def Allowed : AllocatorEvent → AllocatorState → Prop
  | .exit _ _, state => ∀ pointer lock, holds lock (state.locks.rest (.process pointer)) = false
  | .call _, _ | .next _, _ | .tick _ _, _ | .handler, _ => True

structure Inv (state : AllocatorState) : Prop where
  exclusive : state.locks.Exclusive
  idle : state.deleting = none → state.locks.rest .handler = []
  alone : state.deleting.isSome →
    ∀ pointer lock, holds lock (state.locks.rest (.process pointer)) = false

section Preservation

variable {switchPml : Word → Word} {state next : AllocatorState}
variable {sched : SchedState}

section

variable (inv : state.Inv)
include inv

theorem Inv.not_deadlocked : ¬state.Deadlocked := by
  rintro ⟨deleting, lock, ops, pointer, -, -, isHeld⟩
  simp [inv.alone deleting pointer lock] at isHeld

theorem Inv.processes {locks : Locks AllocatorLock NewProcess Agent}
    (running : state.deleting = none) (exclusive : locks.Exclusive)
    (handler : locks.rest .handler = state.locks.rest .handler) :
    Inv { state with sched, locks } :=
  ⟨exclusive, fun _ => handler.trans (inv.idle running), fun deleting => by
    simp [running] at deleting⟩

theorem Inv.call {call : KernelCall} (stepEq : step switchPml (.call call) state = some next) :
    next.Inv := by
  simp only [step, Option.ite_none_right_eq_some, Option.some.injEq] at stepEq
  obtain ⟨⟨runs, isIdle⟩, rfl⟩ := stepEq
  refine inv.processes (Option.isNone_iff_eq_none.mp runs.1)
    (inv.exclusive.start (List.isEmpty_iff.mp isIdle) call.ops_closed) ?_
  simp [Locks.start]

theorem Inv.operation (stepEq : step switchPml (.next fuel) state = some next) :
    next.Inv := by
  simp only [step, Option.ite_none_right_eq_some] at stepEq
  obtain ⟨runs, stepEq⟩ := stepEq
  have running := Option.isNone_iff_eq_none.mp runs.1
  have exclusive := inv.exclusive.advance (.process state.sched.currentProcess)
  have handler := state.locks.advance_rest_of_ne
    (nofun : Agent.handler ≠ .process state.sched.currentProcess)
  cases opsEq : state.currentOps with
  | nil => simp [opsEq] at stepEq
  | cons op ops =>
      cases op with
      | acquire lock =>
          simp only [opsEq, Option.some.injEq] at stepEq
          rw [← stepEq]
          exact inv.processes running exclusive handler
      | release lock =>
          simp only [opsEq, Option.some.injEq] at stepEq
          rw [← stepEq]
          exact inv.processes running exclusive handler
      | act new =>
          simp only [opsEq, Option.map_eq_some_iff] at stepEq
          obtain ⟨sched, -, rfl⟩ := stepEq
          exact inv.processes running exclusive handler

theorem Inv.tick {frame : Word} (stepEq : step switchPml (.tick fuel frame) state = some next) :
    next.Inv := by
  simp only [step, Option.ite_none_right_eq_some] at stepEq
  obtain ⟨running, stepEq⟩ := stepEq
  rcases result : timerHandler freed switchPml fuel state.sched frame with _ | ⟨_ | ⟨_, sched⟩⟩
  · simp [result] at stepEq
  · simp [result] at stepEq
  · simp only [result, Option.some.injEq] at stepEq
    rw [← stepEq]
    exact inv.processes (Option.isNone_iff_eq_none.mp running) inv.exclusive rfl

theorem Inv.exit {frame : Word} (allowed : Allowed (.exit fuel frame) state)
    (stepEq : step switchPml (.exit fuel frame) state = some next) : next.Inv := by
  simp only [step, Option.ite_none_right_eq_some] at stepEq
  obtain ⟨⟨runs, -, -⟩, stepEq⟩ := stepEq
  have handlerIdle := inv.idle (Option.isNone_iff_eq_none.mp runs.1)
  rcases result : processExit freed switchPml fuel state.sched frame with _ | ⟨_ | ⟨_, sched⟩⟩
  · simp [result] at stepEq
  · simp [result] at stepEq
  · simp only [result, Option.some.injEq] at stepEq
    rw [← stepEq]
    refine ⟨inv.exclusive.start handlerIdle (kFreeOps_closed processSize), nofun,
      fun _ pointer lock => ?_⟩
    simpa [Locks.start] using allowed pointer lock

theorem Inv.handler (stepEq : step switchPml .handler state = some next) :
    next.Inv := by
  cases deletingEq : state.deleting with
  | none => simp [step, deletingEq] at stepEq
  | some sched =>
      have alone := inv.alone (by simp [deletingEq])
      by_cases isDone : (state.locks.rest .handler).isEmpty
      · simp only [step, deletingEq, if_pos isDone, Option.some.injEq] at stepEq
        rw [← stepEq]
        exact ⟨inv.exclusive, fun _ => List.isEmpty_iff.mp isDone, nofun⟩
      · simp only [step, deletingEq, if_neg isDone, Option.some.injEq] at stepEq
        rw [← stepEq]
        refine ⟨inv.exclusive.advance .handler, nofun, fun _ pointer lock => ?_⟩
        change holds lock ((state.locks.advance .handler).rest (.process pointer)) = false
        rw [state.locks.advance_rest_of_ne (nofun : Agent.process pointer ≠ .handler)]
        exact alone pointer lock

end

theorem Inv.step {event : AllocatorEvent} (inv : state.Inv) (allowed : Allowed event state)
    (stepEq : step switchPml event state = some next) : next.Inv := by
  cases event with
  | call call => exact inv.call stepEq
  | next fuel => exact inv.operation stepEq
  | tick fuel frame => exact inv.tick stepEq
  | exit fuel frame => exact inv.exit allowed stepEq
  | handler => exact inv.handler stepEq

theorem deletionEnds_of_advances (deletingEq : state.deleting = some sched)
    (done : ((fun locks => Locks.advance locks .handler)^[count] state.locks).rest .handler = []) :
    ∃ steps next, run (AllocatorState.step switchPml) (List.replicate steps .handler) state =
      some next ∧ next.deleting = none ∧ next.sched = sched := by
  induction count generalizing state with
  | zero =>
      change state.locks.rest .handler = [] at done
      exact ⟨1, { state with sched, deleting := none },
        by simp [run, AllocatorState.step, deletingEq, done], rfl, rfl⟩
  | succ count ih =>
      by_cases isDone : state.locks.rest .handler = []
      · exact ⟨1, { state with sched, deleting := none },
          by simp [run, AllocatorState.step, deletingEq, isDone], rfl, rfl⟩
      · let advanced : AllocatorState := { state with locks := state.locks.advance .handler }
        have stepEq : AllocatorState.step switchPml .handler state = some advanced := by
          simp [AllocatorState.step, deletingEq, isDone, advanced]
        obtain ⟨steps, next, ran, ended⟩ := @ih advanced deletingEq done
        exact ⟨steps + 1, next, by simp [List.replicate_succ, run, stepEq, ran], ended⟩

theorem Inv.deletionEnds (inv : state.Inv) : state.DeletionEnds switchPml := by
  intro sched deletingEq
  have alone : ∀ other, other ≠ Agent.handler → ∀ lock,
      holds lock (state.locks.rest other) = false := by
    intro other different lock
    cases other with
    | process pointer => exact inv.alone (by simp [deletingEq]) pointer lock
    | handler => exact absurd rfl different
  obtain ⟨count, done⟩ := inv.exclusive.completes alone
  exact deletionEnds_of_advances deletingEq done

theorem advances_of_handler_run {steps : Nat} (deleting : state.deleting.isSome)
    (ran : run (AllocatorState.step switchPml) (List.replicate steps .handler) state = some next)
    (ended : next.deleting = none) :
    ∃ count, ((fun locks => Locks.advance locks .handler)^[count] state.locks).rest .handler =
      [] := by
  induction steps generalizing state with
  | zero =>
      simp only [List.replicate_zero, run, Option.some.injEq] at ran
      rw [ran, ended] at deleting
      cases deleting
  | succ steps ih =>
      by_cases isDone : state.locks.rest .handler = []
      · exact ⟨0, isDone⟩
      · obtain ⟨sched, deletingEq⟩ := Option.isSome_iff_exists.mp deleting
        rw [List.replicate_succ, run, AllocatorState.step, deletingEq] at ran
        simp only [List.isEmpty_iff, if_neg isDone, Option.bind_some] at ran
        obtain ⟨count, done⟩ := ih (by simp) ran
        exact ⟨count + 1, done⟩

/-- The deletion of a process comes to its end exactly if `kfree` does. -/
theorem deletionEnds_iff (deletingEq : state.deleting = some sched)
    (restEq : state.locks.rest .handler = kFreeOps processSize) (process : Word) :
    state.DeletionEnds switchPml ↔ kfreeInHandler state.locks process = some (.ok ()) := by
  have ends := Locks.complete_isSome_iff state.locks Agent.handler
  rw [restEq] at ends
  have returns : kfreeInHandler state.locks process = some (.ok ()) ↔
      (complete state.locks.locked (kFreeOps processSize)).isSome := by
    simp [kfreeInHandler, Option.isSome_iff_exists]
  rw [returns, ends]
  constructor
  · intro deletionEnds
    obtain ⟨steps, next, ran, ended, -⟩ := deletionEnds sched deletingEq
    exact advances_of_handler_run (by simp [deletingEq]) ran ended
  · rintro ⟨count, done⟩ other otherEq
    rw [deletingEq, Option.some.injEq] at otherEq
    rw [← otherEq]
    exact deletionEnds_of_advances deletingEq done

end Preservation

def Starts (switchPml : Word → Word) (state : AllocatorState) : Prop :=
  (∃ trace, SchedRun switchPml trace state.sched) ∧ (∀ lock, state.locks.locked lock = false) ∧
    (∀ agent, state.locks.rest agent = []) ∧ state.deleting = none

variable {state : AllocatorState}

theorem Starts.inv {switchPml : Word → Word} (starts : state.Starts switchPml) : state.Inv := by
  obtain ⟨-, free, idle, notDeleting⟩ := starts
  refine ⟨⟨fun agent lock => ?_, fun lock => ?_, fun lock first second isHeld => ?_⟩,
    fun _ => idle .handler, fun deleting => ?_⟩
  · rw [idle agent]
    trivial
  · simp [free, idle, holds]
  · simp [idle, holds] at isHeld
  · simp [notDeleting] at deleting

/-- If processes exit only while no process is inside a section guarded by a
lock, `schedule` never waits for a lock that a preempted process holds, and it
always completes the deletion. -/
theorem schedule_never_deadlocks {switchPml : Word → Word} {start state : AllocatorState}
    (starts : start.Starts switchPml) (reaches : Reaches (step switchPml) Allowed start state) :
    ¬state.Deadlocked ∧ state.DeletionEnds switchPml := by
  have inv : state.Inv := by
    refine reaches.invariant starts.inv ?_
    intro event state next inv isAllowed stepEq
    exact inv.step isAllowed stepEq
  exact ⟨inv.not_deadlocked, inv.deletionEnds⟩

def noExit : AllocatorEvent → AllocatorState → Bool
  | .exit _ _, _ => false
  | .call _, _ | .next _, _ | .tick _ _, _ | .handler, _ => true

theorem noExit_allowed (event : AllocatorEvent) (state : AllocatorState)
    (passes : noExit event state) : Allowed event state := by
  cases event with
  | exit fuel frame => cases passes
  | call call => trivial
  | next fuel => trivial
  | tick fuel frame => trivial
  | handler => trivial

theorem locks_of_ticks {frame : Word} {next : AllocatorState}
    (ran : run (checked noExit (step id)) (List.replicate count (.tick fuel frame)) state =
      some next) : next.locks = state.locks ∧ next.deleting = state.deleting := by
  induction count generalizing state with
  | zero =>
      simp only [List.replicate_zero, run, Option.some.injEq] at ran
      simp [ran]
  | succ count ih =>
      simp only [List.replicate_succ, run, checked, Option.bind_eq_some_iff,
        Option.ite_none_right_eq_some] at ran
      obtain ⟨middle, ⟨-, stepEq⟩, rest⟩ := ran
      simp only [step, Option.ite_none_right_eq_some] at stepEq
      obtain ⟨-, stepEq⟩ := stepEq
      rcases result : timerHandler freed id fuel state.sched frame with _ | ⟨_ | ⟨_, sched⟩⟩
      · simp [result] at stepEq
      · simp [result] at stepEq
      · simp only [result, Option.some.injEq] at stepEq
        rw [← stepEq] at rest
        have kept := ih rest
        exact kept

def threeIdle : AllocatorState :=
  ⟨adderCreated, ⟨fun _ => false, fun _ => []⟩, none⟩

theorem threeIdle_starts : threeIdle.Starts id :=
  ⟨adderCreated_run, fun _ => rfl, fun _ => rfl, rfl⟩

def adderRuns : AllocatorState :=
  after (checked noExit (step id)) (List.replicate 7 (.tick 9 0xd000#64)) threeIdle

def adderExits : AllocatorState :=
  after (step id) [.exit 9 0xe000#64] adderRuns

theorem schedule_never_deadlocks_adder :
    adderExits.deleting.isSome ∧ ¬adderExits.Deadlocked ∧ adderExits.DeletionEnds id := by
  have ticks := run_eq_after (by decide +kernel : (run (checked noExit (step id))
    (List.replicate 7 (.tick 9 0xd000#64)) threeIdle).isSome)
  have exits := run_eq_after (by decide +kernel : (run (step id) [.exit 9 0xe000#64]
    adderRuns).isSome)
  have sameLocks : adderRuns.locks = threeIdle.locks := (locks_of_ticks ticks).1
  have allowed : Allowed (.exit 9 0xe000#64) adderRuns := by
    intro pointer lock
    rw [sameLocks]
    rfl
  have exitEq : step id (.exit 9 0xe000#64) adderRuns = some adderExits := by
    simpa [run, adderExits] using exits
  exact ⟨by decide +kernel, schedule_never_deadlocks threeIdle_starts
    ((Reaches.refl.run_checked noExit_allowed ticks).tail allowed exitEq)⟩

/-- The prompt is preempted in `pmm_alloc_nozero`, with the lock taken, and the
third process exits. -/
def scheduleWaits : AllocatorState :=
  after (step id) (List.replicate 4 (.tick 9 0xd000#64) ++
    [.call (.processCreate ⟨0xa000#64, 0xa100#64, 0xb000#64, 0xc000#64⟩ fun _ _ => 0), .next 9] ++
    List.replicate 3 (.tick 9 0xd000#64) ++ [.exit 9 0xe000#64]) threeIdle

theorem scheduleWaits_reached : Reaches (step id) (fun _ _ => True) threeIdle scheduleWaits :=
  Reaches.refl.run (run_eq_after (by decide +kernel))

/-- `schedule` waits in the interrupt handler for the lock that the prompt
holds, and every further step leaves it waiting. -/
theorem schedule_deadlock :
    threeIdle.Starts id ∧ Reaches (step id) (fun _ _ => True) threeIdle scheduleWaits ∧
      scheduleWaits.Deadlocked ∧ step id .handler scheduleWaits = some scheduleWaits := by
  have waits : scheduleWaits.locks.rest .handler =
      [.acquire .pmm, .release .pmm, .acquire .vmm, .release .vmm] := by decide +kernel
  have taken : scheduleWaits.locks.locked .pmm = true := by decide +kernel
  have held : holds .pmm (scheduleWaits.locks.rest (.process 0x4000#64)) := by decide +kernel
  have deleting : scheduleWaits.deleting.isSome := by decide +kernel
  refine ⟨threeIdle_starts, scheduleWaits_reached,
    ⟨deleting, .pmm, _, 0x4000#64, waits, taken, held⟩, ?_⟩
  obtain ⟨sched, deletingEq⟩ := Option.isSome_iff_exists.mp deleting
  have notDone : ¬(scheduleWaits.locks.rest .handler).isEmpty := by simp [waits]
  simp only [step, deletingEq, if_neg notDone, Locks.advance_of_locked waits taken]
  rw [← deletingEq]

def adderDead : SchedState :=
  { scheduleWaits.sched.setStatus scheduleWaits.sched.currentProcess .dead with
    uptime := scheduleWaits.sched.uptime + 10#64 }

/-- The prompt is ready and holds a lock that `kfree` needs: the deletion of the
third process does not end, and `schedule` does not return, however long it
runs. -/
theorem schedule_spins_on_lock :
    Reaches (step id) (fun _ _ => True) threeIdle scheduleWaits ∧
    adderDead.Listed [0x1000#64, 0x4000#64, 0x7000#64] ∧ adderDead.currentProcess = 0x7000#64 ∧
    (adderDead.process 0x4000#64).Awake ∧ ¬scheduleWaits.DeletionEnds id ∧
    ∀ fuel, schedule (kfreeInHandler scheduleWaits.locks) id fuel adderDead 0xe000#64 = none := by
  have last : (adderDead.process 0x7000#64).next = 0#64 := by decide +kernel
  have listed : adderDead.Listed [0x1000#64, 0x4000#64, 0x7000#64] :=
    ⟨by decide +kernel, by decide, by decide +kernel, by decide, by decide +kernel, by decide, last⟩
  have currentEq : adderDead.currentProcess = 0x7000#64 := by decide +kernel
  have isReady : (adderDead.process 0x4000#64).status = .ready := by decide +kernel
  have isDead : (adderDead.process adderDead.currentProcess).status = .dead := by decide +kernel
  have spins : kfreeInHandler scheduleWaits.locks adderDead.currentProcess = none := by
    have taken : scheduleWaits.locks.locked .pmm = true := by decide +kernel
    have first : kFreeOps processSize =
        [.acquire .pmm, .release .pmm, .acquire .vmm, .release .vmm] := by decide +kernel
    simp [kfreeInHandler, first, complete, taken]
  have waits : scheduleWaits.locks.rest .handler = kFreeOps processSize := by decide +kernel
  obtain ⟨sched, deletingEq⟩ := Option.isSome_iff_exists.mp
    (by decide +kernel : scheduleWaits.deleting.isSome)
  have unending : ¬scheduleWaits.DeletionEnds id := by
    rw [deletionEnds_iff deletingEq waits adderDead.currentProcess, spins]
    exact Option.some_ne_none _ ∘ Eq.symm
  exact ⟨scheduleWaits_reached, listed, currentEq, .inr (.inl isReady), unending,
    schedule_spins listed (by simp [currentEq]) isDead spins id 0xe000#64⟩

end AllocatorState

end MmdOS
