import MmdOS.MachineWord
import Mathlib.Logic.Function.Basic

/-!
# Processes and the scheduler

This file embeds `process.c` and `scheduler.c`.  The process list is linked
through the fields `next` of the blocks that hold the processes; the null
pointer is zero.  Loops over the list are given fuel, and no result means that
a loop is still running.

Of a `process_t` the fields are kept that the scheduler reads or writes.  Pids
are natural numbers: every process keeps a stack of 64 KiB for ever, so that
`next_pid` never comes near its bound.  Blocks are handed out zeroed.  The call
of `kfree` in `process_delete` changes no field here, but it need not come back:
how it ends is a parameter of everything that calls it.
-/

namespace MmdOS

/-- A fuelled call returns: with enough fuel it gives this result. -/
def Returns {α : Type} (call : Nat → Option α) (result : α) : Prop :=
  ∃ bound, ∀ fuel, bound ≤ fuel → call fuel = some result

theorem Returns.unique {α : Type} {call : Nat → Option α} {first second : α}
    (firstReturns : Returns call first) (secondReturns : Returns call second) : first = second := by
  obtain ⟨bound, firstEq⟩ := firstReturns
  obtain ⟨bound', secondEq⟩ := secondReturns
  have same := (firstEq (max bound bound') (le_max_left _ _)).symm.trans
    (secondEq (max bound bound') (le_max_right _ _))
  exact Option.some.inj same

theorem Returns.of_add {α : Type} {call : Nat → Option α} {result : α} (fuel : Nat)
    (returned : ∀ more, call (more + fuel) = some result) : Returns call result :=
  ⟨fuel, fun _ enough => Nat.sub_add_cancel enough ▸ returned _⟩

inductive Status
  | spawned
  | ready
  | running
  | sleeping
  | dead
  deriving DecidableEq

structure Process where
  pid : Nat
  status : Status
  vmm : Word
  remainingQuantum : BitVec 16
  wakeTime : Word
  next : Word
  context : Word
  kstack : Word

/-- The blocks of processes, the global variables, and the two registers that
a context switch sets. -/
structure SchedState where
  process : Word → Process
  processesList : Word
  currentProcess : Word
  nextPid : Nat
  uptime : Word
  rsp0 : Word
  cr3 : Word

/-- Where `schedule` and `process_delete` call `panic`, and how `kfree` stops
them. -/
inductive SchedPanic
  | listEmpty
  | noProcess
  | notInList
  | freeing (trap : Trap)

/-- How a call of `kfree` ends.  It waits for ever if somebody who does not run
holds a lock, and it may stop in a panic or at a page fault. -/
abbrev Kfree := Word → Option (Except Trap Unit)

/-- Every call of `kfree` comes back. -/
def freed : Kfree :=
  fun _ => some (.ok ())

theorem freed_apply (process : Word) : freed process = some (.ok ()) :=
  rfl

def defaultQuantum : BitVec 16 := 3#16

namespace SchedState

def modify (state : SchedState) (pointer : Word) (change : Process → Process) : SchedState :=
  { state with process := Function.update state.process pointer (change (state.process pointer)) }

def setStatus (state : SchedState) (pointer : Word) (status : Status) : SchedState :=
  state.modify pointer fun process => { process with status }

def setNext (state : SchedState) (pointer next : Word) : SchedState :=
  state.modify pointer fun process => { process with next }

def processSetCurrent (state : SchedState) (pointer : Word) : SchedState :=
  { state with currentProcess := pointer }

end SchedState

/-- What `process_create` gets from the allocators: the block, the initial
context, the upper end of the stack and the address space. -/
structure NewProcess where
  process : Word
  context : Word
  kstack : Word
  vmm : Word
  deriving DecidableEq

section Create

/-- The loop of `process_add`. -/
def tailScan (state : SchedState) : (fuel : Nat) → (iterator : Word) → Option Word
  | 0, _ => none
  | fuel + 1, iterator =>
      if (state.process iterator).next ≠ 0#64 then
        tailScan state fuel (state.process iterator).next
      else some iterator

def processAdd (fuel : Nat) (state : SchedState) (process : Word) : Option SchedState :=
  let iterator := state.processesList
  let state := state.setStatus process .ready
  if iterator = 0#64 then some { state with processesList := process }
  else do
    let iterator ← tailScan state fuel iterator
    some (state.setNext iterator process)

/-- The part of `process_create` before `process_add`. -/
def newBlock (state : SchedState) (new : NewProcess) : SchedState :=
  { state with
    process := Function.update state.process new.process
      { pid := state.nextPid
        status := .spawned
        vmm := new.vmm
        remainingQuantum := 0#16
        wakeTime := 0#64
        next := 0#64
        context := new.context
        kstack := new.kstack }
    nextPid := state.nextPid + 1 }

def processCreate (fuel : Nat) (state : SchedState) (new : NewProcess) : Option SchedState :=
  processAdd fuel (newBlock state new) new.process

end Create

section Delete

/-- The loop of `process_delete`: the process in front of the given one. -/
def deleteScan (state : SchedState) (process : Word) :
    (fuel : Nat) → (scan : Word) → Option (Except SchedPanic Word)
  | 0, _ => none
  | fuel + 1, scan =>
      if (state.process scan).next ≠ process then
        if (state.process scan).next = 0#64 then some (.error .notInList)
        else deleteScan state process fuel (state.process scan).next
      else some (.ok scan)

/-- The part of `process_delete` that takes the process out of the list. -/
def unlinkProcess (fuel : Nat) (state : SchedState) (process : Word) :
    Option (Except SchedPanic SchedState) :=
  if state.processesList = process then
    some (.ok { state with processesList := (state.process process).next })
  else
    (deleteScan state process fuel state.processesList).map fun result =>
      result.map fun scan => state.setNext scan (state.process process).next

/-- The part of `process_delete` that moves `current_process` on. -/
def advanceCurrent (state : SchedState) : SchedState :=
  if (state.process state.currentProcess).next ≠ 0#64 then
    state.processSetCurrent (state.process state.currentProcess).next
  else state.processSetCurrent state.processesList

def processDelete (kfree : Kfree) (fuel : Nat) (state : SchedState) (process : Word) :
    Option (Except SchedPanic SchedState) :=
  if process = 0#64 then some (.ok state)
  else
    match unlinkProcess fuel state process with
    | none => none
    | some (.error reason) => some (.error reason)
    | some (.ok state) =>
        let state := advanceCurrent state
        match kfree process with
        | none => none
        | some (.error trap) => some (.error (.freeing trap))
        | some (.ok ()) => some (.ok state)

end Delete

section Schedule

/-- The loop of `stay_idle`. -/
def stayIdleScan (state : SchedState) : (fuel : Nat) → (process : Word) → Option Bool
  | 0, _ => none
  | fuel + 1, process =>
      if process ≠ 0#64 then
        if (state.process process).status ≠ .sleeping then some false
        else stayIdleScan state fuel (state.process process).next
      else some true

def stayIdle (fuel : Nat) (state : SchedState) (process : Word) : Option Bool :=
  stayIdleScan state fuel (state.process process).next

/-- The end of a round that has found its process.  Whatever `stay_idle`
answers, the loop ends. -/
def endRound (fuel : Nat) (state : SchedState) (current : Word) (switched : Bool) :
    Option (Except SchedPanic (Word × Bool × SchedState)) :=
  if (state.process current).pid = 1 then
    (stayIdle fuel state current).map fun _ => .ok (current, switched, state)
  else some (.ok (current, switched, state))

def nextInRing (state : SchedState) (processesList current : Word) : Word :=
  if (state.process current).next ≠ 0#64 then (state.process current).next else processesList

variable (kfree : Kfree)

/-- The loop of `schedule`: the process it ends with, and whether
`process_switched` is set. -/
def scheduleLoop (context : Word) : (fuel : Nat) → (state : SchedState) →
    (processesList current : Word) → (switched : Bool) →
      Option (Except SchedPanic (Word × Bool × SchedState))
  | 0, _, _, _, _ => none
  | fuel + 1, state, processesList, current, switched =>
      if processesList = 0#64 then some (.error .noProcess)
      else
        match (state.process current).status with
        | .spawned => endRound fuel (state.setStatus current .ready) current true
        | .ready => endRound fuel state current true
        | .running =>
            let state := state.modify current fun process =>
              { process with
                remainingQuantum := process.remainingQuantum - 1#16
                context }
            if 0 < (state.process current).remainingQuantum.toInt then
              endRound fuel state current switched
            else
              let state := state.setStatus current .ready
              scheduleLoop context fuel state processesList
                (nextInRing state processesList current) true
        | .sleeping =>
            if (state.process current).wakeTime < state.uptime then
              let state := state.modify current fun process =>
                { process with
                  wakeTime := 0#64
                  status := .ready }
              endRound fuel state current switched
            else
              scheduleLoop context fuel state processesList
                (nextInRing state processesList current) switched
        | .dead =>
            match processDelete kfree fuel state current with
            | none => none
            | some (.error reason) => some (.error reason)
            | some (.ok state) =>
                scheduleLoop context fuel state state.processesList state.currentProcess true

variable (switchPml : Word → Word)

/-- `scheduler_context_switch`; `switchPml` is the value that `vmm_switch_pml`
loads for an address space. -/
def schedulerContextSwitch (state : SchedState) : Word × SchedState :=
  let process := state.process state.currentProcess
  (process.context, { state with rsp0 := process.kstack, cr3 := switchPml process.vmm })

/-- The statements of `schedule` behind its loop. -/
def endSchedule (state : SchedState) (current : Word) (switched : Bool) : Word × SchedState :=
  let state := (state.processSetCurrent current).setStatus current .running
  if switched then
    schedulerContextSwitch switchPml (state.modify current fun process =>
      { process with remainingQuantum := defaultQuantum })
  else ((state.process current).context, state)

def schedule (fuel : Nat) (state : SchedState) (context : Word) :
    Option (Except SchedPanic (Word × SchedState)) :=
  if state.processesList = 0#64 then some (.error .listEmpty)
  else
    let state :=
      if state.currentProcess = 0#64 then state.processSetCurrent state.processesList else state
    (scheduleLoop kfree context fuel state state.processesList state.currentProcess false).map
      fun result => result.map fun (current, switched, state) =>
        endSchedule switchPml state current switched

def timerHandler (fuel : Nat) (state : SchedState) (frame : Word) :
    Option (Except SchedPanic (Word × SchedState)) :=
  schedule kfree switchPml fuel { state with uptime := state.uptime + 10#64 } frame

/-- `process_exit`: the interrupt of `scheduler_yield` is the timer's. -/
def processExit (fuel : Nat) (state : SchedState) (frame : Word) :
    Option (Except SchedPanic (Word × SchedState)) :=
  timerHandler kfree switchPml fuel (state.setStatus state.currentProcess .dead) frame

end Schedule

end MmdOS
