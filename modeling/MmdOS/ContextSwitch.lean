import MmdOS.AllocatorLocks
import MmdOS.InterruptHandlers

/-!
# Processes that share the processor

Interrupts take the processor away from a process at any moment, and the timer may
give it to another one.  Seen from a process nothing of this happens: whenever it
runs, the registers and the part of the stack that is in use are as the process
itself has left them.

A run is a sequence of steps of the running process, interrupts of the timer and of
the devices, creations and exits.  What the C code of an interrupt does to memory is
left open, up to the stacks and the contexts of the processes.  All processes run in
kernel mode, where an interrupt puts its frame on the stack of the process.
-/

namespace MmdOS

open RoundRobin WordStack

variable {new : NewProcess} {left machine : Machine} {kernel : Kernel} {line pid : Nat}
variable {switchPml : Word → Word}

namespace NewProcess

/-- The block that `alloc_stack` got from `kalloc`. -/
def stackBase (new : NewProcess) : Word :=
  new.kstack - BitVec.ofNat 64 stackSize

def InStack (new : NewProcess) (address : Word) : Prop :=
  (address - new.stackBase).toNat < stackSize

def InContext (new : NewProcess) (address : Word) : Prop :=
  (address - new.context).toNat < contextSize

def Owns (new : NewProcess) (address : Word) : Prop :=
  new.InStack address ∨ new.InContext address

def initial (new : NewProcess) (wrapper function arg : Word) (memory : RawMemory) : Machine :=
  { register
      | .rdi => function
      | .rsi => arg
      | .rsp => new.kstack
      | _ => 0#64
    rip := wrapper
    rflags := 0x202#64
    cs := 0x28#16
    ss := 0x30#16
    memory }

end NewProcess

def Machine.stackTop (machine : Machine) : Word :=
  machine.register .rsp &&& ~~~15#64

def NewProcess.InUse (new : NewProcess) (machine : Machine) (address : Word) : Prop :=
  new.InStack address ∧
    (machine.stackTop - new.stackBase).toNat ≤ (address - new.stackBase).toNat

structure AsLeft (new : NewProcess) (left machine : Machine) : Prop where
  registers : { machine with memory := left.memory } = left
  stack : ∀ address, new.InUse left address → machine.memory address = left.memory address

structure Kernel where
  machine : Machine
  sched : SchedState

/-- The steps of a run; the timer interrupt is given with the context that `schedule`
returns. -/
inductive KernelEvent
  /-- The running process executes instructions. -/
  | work
  /-- `process_create` is called. -/
  | create (new : NewProcess) (wrapper function arg : Word)
  /-- The timer interrupt. -/
  | tick (returned : Word)
  /-- `process_exit` is called. -/
  | exit (returned : Word)
  /-- The interrupt of another device. -/
  | device (line : Nat)

structure KernelRecord where
  before : Kernel
  event : KernelEvent
  after : Kernel

def Kernel.saved (kernel : Kernel) (line : Nat) : RawMemory × Word :=
  kernel.machine.savedFrame kernel.sched.rsp0 (BitVec.ofNat 64 (32 + line))

section Histories

def schedTrace : List KernelRecord → List SchedRecord
  | [] => []
  | record :: trace =>
      match record.event with
      | .work | .device _ => schedTrace trace
      | .create new _ _ _ =>
          ⟨record.before.sched, .create new, 0#64, record.after.sched⟩ :: schedTrace trace
      | .tick returned =>
          ⟨record.before.sched, .tick (record.before.saved 0).2, returned, record.after.sched⟩ ::
            schedTrace trace
      | .exit returned =>
          ⟨record.before.sched, .exit (record.before.saved 0).2, returned, record.after.sched⟩ ::
            schedTrace trace

def blocksOf : List KernelRecord → Nat → Option NewProcess
  | [], _ => none
  | record :: trace, pid =>
      match record.event with
      | .create new _ _ _ =>
          if record.before.sched.nextPid = pid then some new else blocksOf trace pid
      | _ => blocksOf trace pid

/-- The machine as a process has left it: what it was created with, or what its own
last step has led to.  Interrupts do not count. -/
def leftBy : List KernelRecord → Nat → Option Machine
  | [], _ => none
  | record :: trace, pid =>
      match record.event with
      | .create new wrapper function arg =>
          if record.before.sched.nextPid = pid then
            some (new.initial wrapper function arg record.after.machine.memory)
          else if record.before.sched.Running pid then some record.after.machine
          else leftBy trace pid
      | .work =>
          if record.before.sched.Running pid then some record.after.machine else leftBy trace pid
      | .tick _ | .exit _ | .device _ => leftBy trace pid

def Lives (trace : List KernelRecord) (pid : Nat) (new : NewProcess) : Prop :=
  pid ∈ livePids (schedTrace trace) ∧ blocksOf trace pid = some new

end Histories

section Steps

def irqCall (tables : HandlerTables) (call : (handler frame : Word) → RawMemory → Word × RawMemory)
    (clobbered : Register → Word) : Handler → Machine → Option Machine :=
  fun _ => callFunction (fun frame memory =>
    some ((irqHandler call tables frame memory).frame, (irqHandler call tables frame memory).memory))
      clobbered

def Untouched (new : NewProcess) (before after : RawMemory) : Prop :=
  ∀ address, new.Owns address → after address = before address

section Interrupt

variable (tables : HandlerTables)
  (call : (handler frame : Word) → RawMemory → Word × RawMemory)

def Kernel.dispatch (kernel : Kernel) (line : Nat) : Dispatch :=
  irqHandler call tables (kernel.saved line).2 (kernel.saved line).1

/-- The interrupt of a line.  The frame is put on the stack of the running process, where
it has room; before the first process runs it is put anywhere else.  The C code uses
the stack below the frame. -/
structure Interrupted (lives : Nat → NewProcess → Prop) (kernel : Kernel) (line : Nat)
    (machine : Machine) : Prop where
  kernelMode : kernel.machine.cs.setWidth 2 = 0#2
  room : ∀ pid new, lives pid new → kernel.sched.Running pid →
    contextSize ≤ (kernel.machine.stackTop - new.stackBase).toNat ∧
      (kernel.machine.stackTop - new.stackBase).toNat ≤ stackSize
  booting : kernel.sched.currentProcess = 0#64 → ∀ pid new, lives pid new →
    Untouched new kernel.machine.memory (kernel.saved line).1
  kept : ∀ pid new, lives pid new → ∀ address, new.Owns address →
    (kernel.sched.Running pid → new.InStack address →
      ((kernel.saved line).2 - new.stackBase).toNat ≤ (address - new.stackBase).toNat) →
    (kernel.dispatch tables call line).memory address = (kernel.saved line).1 address
  ran : ∃ clobbered, Machine.run (irqCall tables call clobbered) (irq line)
    (kernel.machine.interrupt kernel.sched.rsp0) = some machine

def TimerInterrupted (lives : Nat → NewProcess → Prop) (kernel : Kernel) (returned : Word)
    (machine : Machine) : Prop :=
  tables.irqHandlers 0 ≠ 0#64 ∧
    (call (tables.irqHandlers 0) (kernel.saved 0).2 (kernel.saved 0).1).1 = returned ∧
    Interrupted tables call lives kernel 0 machine

end Interrupt

def FreshBlocks (lives : Nat → NewProcess → Prop) (new : NewProcess) : Prop :=
  ∀ pid other, lives pid other → ∀ address, other.Owns address → ¬new.Owns address

def KernelRecord.Valid (switchPml : Word → Word) (lives : Nat → NewProcess → Prop)
    (record : KernelRecord) : Prop :=
  match record.event with
  | .work =>
      record.after.sched = record.before.sched ∧
      ∀ pid new, lives pid new → ¬record.before.sched.Running pid →
        Untouched new record.before.machine.memory record.after.machine.memory
  | .create new wrapper function arg =>
      new.process ≠ 0#64 ∧ record.before.sched.Unlisted new.process ∧
      Returns (fun fuel => processCreate fuel record.before.sched new) record.after.sched ∧
      FreshBlocks lives new ∧
      (∀ field, contextField record.after.machine.memory new.context field =
        contextField (createContext (fun _ => 0#8) new.context new.kstack wrapper function arg)
          new.context field) ∧
      ∀ pid other, lives pid other → ¬record.before.sched.Running pid →
        Untouched other record.before.machine.memory record.after.machine.memory
  | .tick returned =>
      Returns (fun fuel => timerHandler freed switchPml fuel record.before.sched
        (record.before.saved 0).2)
        (.ok (returned, record.after.sched)) ∧
      ∃ tables call, TimerInterrupted tables call lives record.before returned record.after.machine
  | .exit returned =>
      record.before.sched.currentProcess ≠ 0#64 ∧
      record.before.sched.pid record.before.sched.currentProcess ≠ 1 ∧
      Returns (fun fuel => processExit freed switchPml fuel record.before.sched
        (record.before.saved 0).2)
        (.ok (returned, record.after.sched)) ∧
      ∃ tables call, TimerInterrupted tables call lives record.before returned record.after.machine
  | .device line =>
      1 ≤ line ∧ line < 16 ∧ record.after.sched = record.before.sched ∧
      ∃ tables call, Interrupted tables call lives record.before line record.after.machine

inductive KernelRun (switchPml : Word → Word) : List KernelRecord → Kernel → Prop
  | boot {kernel : Kernel} : kernel.sched.processesList = 0#64 →
      kernel.sched.currentProcess = 0#64 → kernel.sched.nextPid = 1 →
        KernelRun switchPml [] kernel
  | step {trace : List KernelRecord} {record : KernelRecord} :
      KernelRun switchPml trace record.before → record.Valid switchPml (Lives trace) →
        KernelRun switchPml (record :: trace) record.after

end Steps

section Memory

theorem contextField_congr {first second : RawMemory} {context : Word}
    (agree : ∀ offset < contextSize, second (context + BitVec.ofNat 64 offset) =
      first (context + BitVec.ofNat 64 offset)) (field : ContextField) :
    contextField second context field = contextField first context field := by
  apply loadWord_congr
  intro offset below
  have indexLt := field.index_lt
  rw [slot, BitVec.add_assoc, ← BitVec.ofNat_add]
  apply agree
  rw [contextSize]
  omega

/-- A process that does not run: its context is in one of its blocks, and the registers
are loaded from there as the process has left them. -/
structure Parked (new : NewProcess) (left : Machine) (memory : RawMemory) (context : Word) :
    Prop where
  asLeft : AsLeft new left (Machine.resume { left with memory } context)
  owned : ∀ offset < contextSize, new.Owns (context + BitVec.ofNat 64 offset)

variable {memory after : RawMemory} {context : Word}

theorem AsLeft.congr {machine next : Machine} (asLeft : AsLeft new left machine)
    (registers : { next with memory := machine.memory } = machine)
    (stack : ∀ address, new.InUse left address → next.memory address = machine.memory address) :
    AsLeft new left next where
  registers := by
    rw [← asLeft.registers, ← registers]
  stack := by
    intro address inUse
    rw [stack address inUse, asLeft.stack address inUse]

theorem Parked.congr (parked : Parked new left memory context)
    (untouched : Untouched new memory after) : Parked new left after context where
  asLeft := by
    have fields := contextField_congr fun offset below => untouched _ (parked.owned offset below)
    apply parked.asLeft.congr
    · simp only [Machine.resume, fields]
    · intro address inUse
      exact untouched address (.inl inUse.1)
  owned := parked.owned

end Memory

section Frames

theorem saved_frame (kernelMode : kernel.machine.cs.setWidth 2 = 0#2) :
    (kernel.saved line).2 = kernel.machine.stackTop - BitVec.ofNat 64 contextSize := by
  have top : kernel.machine.interruptStack kernel.sched.rsp0 = kernel.machine.stackTop := by
    rw [Machine.interruptStack, if_pos kernelMode, Machine.stackTop]
  rw [Kernel.saved, Machine.savedFrame, pushAll_top, top]
  rfl

theorem saved_of_outside {address : Word}
    (outside : contextSize ≤ (address - (kernel.saved line).2).toNat) :
    (kernel.saved line).1 address = kernel.machine.memory address :=
  pushAll_of_outside outside

end Frames

section Interrupts

variable {tables : HandlerTables} {call : (handler frame : Word) → RawMemory → Word × RawMemory}
variable {lives : Nat → NewProcess → Prop}

theorem run_irqCall (tables : HandlerTables)
    (call : (handler frame : Word) → RawMemory → Word × RawMemory) (clobbered : Register → Word)
    (kernel : Kernel) (line : Nat) :
    Machine.run (irqCall tables call clobbered) (irq line)
        (kernel.machine.interrupt kernel.sched.rsp0) =
      some (Machine.resume
        { kernel.machine with memory := (kernel.dispatch tables call line).memory }
        (kernel.dispatch tables call line).frame) := by
  have called : irqCall tables call clobbered .irqHandler
      (kernel.machine.called kernel.sched.rsp0 (BitVec.ofNat 64 (32 + line))) =
        some { kernel.machine.called kernel.sched.rsp0 (BitVec.ofNat 64 (32 + line)) with
          register := Function.update clobbered .rax (kernel.dispatch tables call line).frame
          memory := (kernel.dispatch tables call line).memory } := by
    rw [Kernel.dispatch, Kernel.saved, irqCall, callFunction, Machine.called]
    generalize kernel.machine.savedFrame _ _ = frame
    dsimp only
    rw [Function.update_self, Option.map_some]
  rw [irq, irqStub, Machine.run_interrupt, called, Option.map_some]
  generalize kernel.dispatch tables call line = dispatch
  dsimp only
  rw [Function.update_self]
  rfl

theorem Interrupted.machine_eq (interrupted : Interrupted tables call lives kernel line machine) :
    machine = Machine.resume
      { kernel.machine with memory := (kernel.dispatch tables call line).memory }
      (kernel.dispatch tables call line).frame := by
  obtain ⟨clobbered, ran⟩ := interrupted.ran
  rw [run_irqCall] at ran
  exact (Option.some.inj ran).symm

theorem contextField_saved (field : ContextField) :
    contextField (kernel.saved line).1 (kernel.saved line).2 field =
      kernel.machine.saved (BitVec.ofNat 64 (32 + line)) field :=
  kernel.machine.contextField_savedFrame _ _ field

/-- Only the timer interrupt changes to another context. -/
theorem dispatch_frame_device (positive : 1 ≤ line) (below : line < 16) :
    (kernel.dispatch tables call line).frame = (kernel.saved line).2 := by
  have number : BitVec.ofNat 64 (32 + line) ≠ 32#64 := by
    intro same
    have := congrArg BitVec.toNat same
    rw [BitVec.toNat_ofNat, BitVec.toNat_ofNat] at this
    omega
  rw [Kernel.dispatch, irqHandler]
  dsimp only
  rw [contextField_saved, Machine.saved, if_neg number]

theorem dispatch_frame_timer (installed : tables.irqHandlers 0 ≠ 0#64) :
    (kernel.dispatch tables call 0).frame =
      (call (tables.irqHandlers 0) (kernel.saved 0).2 (kernel.saved 0).1).1 := by
  rw [Kernel.dispatch, irqHandler]
  dsimp only
  rw [contextField_saved, Machine.saved, if_pos rfl, if_neg]
  · rfl
  · exact installed

section

variable (interrupted : Interrupted tables call lives kernel line machine)
include interrupted

/-- Offsets in the stack of the running process, seen from the frame. -/
theorem Interrupted.offsets {pid : Nat} (isLive : lives pid new)
    (running : kernel.sched.Running pid) (address : Word) :
    (address - (kernel.saved line).2).toNat = ((address - new.stackBase).toNat + 2 ^ 64 -
        ((kernel.machine.stackTop - new.stackBase).toNat - contextSize)) % 2 ^ 64 ∧
      ((kernel.saved line).2 - new.stackBase).toNat =
        (kernel.machine.stackTop - new.stackBase).toNat - contextSize := by
  have roomLe := (interrupted.room pid new isLive running).1
  rw [saved_frame interrupted.kernelMode]
  rw [contextSize] at roomLe ⊢
  constructor <;> bv_omega

theorem Interrupted.parks {pid : Nat} (isLive : lives pid new) (running : kernel.sched.Running pid)
    (asLeft : AsLeft new left kernel.machine) :
    Parked new left (kernel.dispatch tables call line).memory (kernel.saved line).2 := by
  obtain ⟨roomLe, roomGe⟩ := interrupted.room pid new isLive running
  have offsets := interrupted.offsets isLive running
  have position : ∀ offset < contextSize,
      ((kernel.saved line).2 + BitVec.ofNat 64 offset - new.stackBase).toNat =
        (kernel.machine.stackTop - new.stackBase).toNat - contextSize + offset := by
    intro offset below
    have start := (offsets 0#64).2
    rw [contextSize] at below
    rw [stackSize] at roomGe
    bv_omega
  have inStack : ∀ offset < contextSize,
      new.InStack ((kernel.saved line).2 + BitVec.ofNat 64 offset) := by
    intro offset below
    rw [NewProcess.InStack, position offset below]
    omega
  have intact : ∀ offset < contextSize,
      (kernel.dispatch tables call line).memory ((kernel.saved line).2 + BitVec.ofNat 64 offset) =
        (kernel.saved line).1 ((kernel.saved line).2 + BitVec.ofNat 64 offset) := by
    intro offset below
    apply interrupted.kept pid new isLive _ (.inl (inStack offset below))
    intro _ _
    rw [position offset below, (offsets 0#64).2]
    exact Nat.le_add_right _ _
  have loaded : Machine.resume
      { left with memory := (kernel.dispatch tables call line).memory } (kernel.saved line).2 =
        { kernel.machine with memory := (kernel.dispatch tables call line).memory } := by
    have resumed := @Machine.resume_eq
      { kernel.machine with memory := (kernel.dispatch tables call line).memory } kernel.machine
        (kernel.saved line).2 (BitVec.ofNat 64 (32 + line)) (kernel.machine.register .rax) ?_
    · rw [Machine.set, Function.update_eq_self] at resumed
      exact resumed
    · intro field
      rw [contextField_congr intact, contextField_saved]
      split
      · next isRax => rw [isRax, Machine.saved]
      · rfl
  refine ⟨asLeft.congr ?_ ?_, fun offset below => .inl (inStack offset below)⟩
  · rw [loaded]
  · intro address inUse
    have sameTop : left.stackTop = kernel.machine.stackTop := by
      rw [← asLeft.registers]
      rfl
    obtain ⟨inside, above⟩ := inUse
    rw [sameTop] at above
    have addressLt := (address - new.stackBase).isLt
    have untouched : (kernel.dispatch tables call line).memory address =
        (kernel.saved line).1 address := by
      apply interrupted.kept pid new isLive address (.inl inside)
      intro _ _
      rw [(offsets address).2]
      omega
    have outside : contextSize ≤ (address - (kernel.saved line).2).toNat := by
      rw [(offsets address).1]
      omega
    rw [loaded]
    exact untouched.trans (saved_of_outside outside)

theorem Interrupted.untouched
    (disjoint : ∀ pid new other blocks, lives pid new → lives other blocks → pid ≠ other →
      ∀ address, new.Owns address → ¬blocks.Owns address)
    (running : kernel.sched.currentProcess ≠ 0#64 → ∃ pid new, lives pid new ∧
      kernel.sched.Running pid)
    {pid : Nat} (isLive : lives pid new) (waits : ¬kernel.sched.Running pid) :
    Untouched new kernel.machine.memory (kernel.dispatch tables call line).memory := by
  intro address owned
  rw [interrupted.kept pid new isLive address owned fun runs => absurd runs waits]
  by_cases booting : kernel.sched.currentProcess = 0#64
  · exact interrupted.booting booting pid new isLive address owned
  · obtain ⟨current, blocks, currentLives, runs⟩ := running booting
    obtain ⟨roomLe, roomGe⟩ := interrupted.room current blocks currentLives runs
    have offsets := interrupted.offsets currentLives runs address
    have different : current ≠ pid := by
      rintro rfl
      exact waits runs
    apply saved_of_outside
    by_contra inside
    -- a byte of the frame is in the stack of the running process
    apply disjoint current blocks pid new currentLives isLive different address _ owned
    left
    have addressLt := (address - blocks.stackBase).isLt
    rw [NewProcess.InStack]
    rw [offsets.1] at inside
    rw [stackSize] at roomGe ⊢
    rw [contextSize] at *
    omega

end

end Interrupts

section Scheduling

variable {trace : List SchedRecord} {record : SchedRecord} {state : SchedState}

theorem SchedRun.exists_running (run : SchedRun switchPml trace state)
    (running : state.currentProcess ≠ 0#64) :
    state.pid state.currentProcess ∈ livePids trace := by
  obtain ⟨turns, follows⟩ := run.follows
  obtain ⟨rota, left, rfl, scheduled⟩ := follows.inTurns.exists_turn running
  rw [run.livePids_eq, ← follows.members_eq, scheduled.current_eq]
  exact List.mem_map_of_mem rota.current_mem

theorem SchedRun.nextPid_notMem (run : SchedRun switchPml trace state) :
    state.nextPid ∉ livePids trace := by
  obtain ⟨turns, follows⟩ := run.follows
  rw [run.livePids_eq]
  intro member
  exact Nat.lt_irrefl _ (follows.below _ member)

theorem SchedRun.running_create {new : NewProcess} (run : SchedRun switchPml trace record.before)
    (valid : record.Valid switchPml) (event_eq : record.event = .create new) :
    record.after.Running pid ↔ record.before.Running pid := by
  obtain ⟨turns, follows⟩ := run.follows
  rw [SchedRecord.Valid, event_eq] at valid
  obtain ⟨notNull, unlisted, returns⟩ := valid
  have fresh := unlisted _ follows.inTurns.listed
  obtain ⟨after, returns', created⟩ :=
    processCreate_returns follows.inTurns.listed notNull fresh
  obtain rfl := returns.unique returns'
  rw [SchedState.Running, SchedState.Running, created.current_eq]
  apply and_congr_right
  intro running
  obtain ⟨rota, left, rfl, scheduled⟩ := follows.inTurns.exists_turn running
  have different : record.before.currentProcess ≠ new.process := by
    intro same
    rw [scheduled.current_eq] at same
    exact fresh (same ▸ rota.current_mem)
  have samePid := created.toLinked.field Process.pid (fun _ => rfl) different
  rw [SchedState.pid, SchedState.pid, samePid]

theorem SchedRun.returned_saved (run : SchedRun switchPml (record :: trace) state)
    (isCall : record.IsCall) (running : state.Running pid) :
    savedContext (record :: trace) pid = some record.returned := by
  obtain ⟨turns, follows⟩ := run.follows
  obtain ⟨notNull, returnedEq⟩ := follows.called record (by simp) isCall
  obtain ⟨rota, left, rfl, scheduled⟩ := follows.inTurns.exists_turn notNull
  rw [returnedEq, ← running.2]
  apply follows.saved
  rw [scheduled.current_eq]
  exact rota.current_mem

end Scheduling

/-- What is known of a process: its blocks, how it has left the machine, and the context
that the scheduler keeps for it. -/
structure Known (trace : List KernelRecord) (pid : Nat) (new : NewProcess) (left : Machine)
    (context : Word) : Prop where
  blocks : blocksOf trace pid = some new
  left : leftBy trace pid = some left
  saved : savedContext (schedTrace trace) pid = some context

/-- The processes have their blocks for themselves, and each of them finds the machine
as it has left it: the running one in the registers, the others in their contexts. -/
structure Shared (switchPml : Word → Word) (trace : List KernelRecord) (kernel : Kernel) :
    Prop where
  run : SchedRun switchPml (schedTrace trace) kernel.sched
  disjoint : ∀ pid new other blocks, Lives trace pid new → Lives trace other blocks → pid ≠ other →
    ∀ address, new.Owns address → ¬blocks.Owns address
  known : ∀ pid ∈ livePids (schedTrace trace), ∃ new left context, Known trace pid new left context ∧
    (kernel.sched.Running pid → AsLeft new left kernel.machine) ∧
    (¬kernel.sched.Running pid → Parked new left kernel.machine.memory context)

section Sharing

variable {trace : List KernelRecord} {record : KernelRecord} {tables : HandlerTables}
variable {call : (handler frame : Word) → RawMemory → Word × RawMemory}
variable {wrapper function arg : Word}

theorem lives_congr {other : List KernelRecord} (sameTrace : schedTrace other = schedTrace trace)
    (sameBlocks : blocksOf other = blocksOf trace) : Lives other = Lives trace := by
  funext pid new
  rw [Lives, Lives, sameTrace, sameBlocks]

theorem Shared.exists_current (shared : Shared switchPml trace kernel)
    (running : kernel.sched.currentProcess ≠ 0#64) :
    ∃ pid new, Lives trace pid new ∧ kernel.sched.Running pid := by
  have live := shared.run.exists_running running
  obtain ⟨new, left, context, known, -⟩ := shared.known _ live
  exact ⟨_, new, ⟨live, known.blocks⟩, running, rfl⟩

/-- An interrupt parks every process: the running one at the new frame, the others where
they are. -/
theorem Shared.parked (shared : Shared switchPml trace kernel)
    (interrupted : Interrupted tables call (Lives trace) kernel line machine) {pid : Nat}
    (live : pid ∈ livePids (schedTrace trace)) :
    ∃ new left context, Known trace pid new left context ∧
      Parked new left (kernel.dispatch tables call line).memory
        (if kernel.sched.Running pid then (kernel.saved line).2 else context) := by
  obtain ⟨new, left, context, known, current, waiting⟩ := shared.known pid live
  refine ⟨new, left, context, known, ?_⟩
  have isLive : Lives trace pid new := ⟨live, known.blocks⟩
  by_cases running : kernel.sched.Running pid
  · rw [if_pos running]
    exact interrupted.parks isLive running (current running)
  · rw [if_neg running]
    apply (waiting running).congr
    exact interrupted.untouched shared.disjoint shared.exists_current isLive running

/-- The running process, or `process_create` on its behalf, has changed the machine: the
running process has left it so, and the others are parked where they were. -/
theorem Shared.worked {next : Kernel} {later : List KernelRecord}
    (shared : Shared switchPml trace kernel)
    (untouched : ∀ pid new, Lives trace pid new → ¬kernel.sched.Running pid →
      Untouched new kernel.machine.memory next.machine.memory) {pid : Nat}
    (live : pid ∈ livePids (schedTrace trace))
    (sameRunning : next.sched.Running pid ↔ kernel.sched.Running pid)
    (sameBlocks : blocksOf later pid = blocksOf trace pid)
    (leftEq : leftBy later pid =
      if kernel.sched.Running pid then some next.machine else leftBy trace pid)
    (sameSaved : savedContext (schedTrace later) pid = savedContext (schedTrace trace) pid) :
    ∃ new left context, Known later pid new left context ∧
      (next.sched.Running pid → AsLeft new left next.machine) ∧
      (¬next.sched.Running pid → Parked new left next.machine.memory context) := by
  obtain ⟨new, left, context, known, -, waiting⟩ := shared.known pid live
  have blocks := sameBlocks.trans known.blocks
  have saved := sameSaved.trans known.saved
  rw [sameRunning]
  by_cases running : kernel.sched.Running pid
  · rw [if_pos running] at leftEq
    exact ⟨new, next.machine, context, ⟨blocks, leftEq, saved⟩, fun _ => ⟨rfl, fun _ _ => rfl⟩,
      fun waits => absurd running waits⟩
  · rw [if_neg running] at leftEq
    exact ⟨new, left, context, ⟨blocks, leftEq.trans known.left, saved⟩,
      fun runs => absurd runs running,
      fun _ => (waiting running).congr (untouched pid new ⟨live, known.blocks⟩ running)⟩

theorem Shared.work (shared : Shared switchPml trace record.before) (event_eq : record.event = .work)
    (valid : record.Valid switchPml (Lives trace)) :
    Shared switchPml (record :: trace) record.after := by
  rw [KernelRecord.Valid, event_eq] at valid
  obtain ⟨sameSched, untouched⟩ := valid
  have sameTrace : schedTrace (record :: trace) = schedTrace trace := by
    rw [schedTrace, event_eq]
  have sameBlocks : blocksOf (record :: trace) = blocksOf trace := by
    funext pid
    rw [blocksOf, event_eq]
  refine ⟨?_, ?_, ?_⟩
  · rw [sameTrace, sameSched]
    exact shared.run
  · rw [lives_congr sameTrace sameBlocks]
    exact shared.disjoint
  · intro pid live
    rw [sameTrace] at live
    apply shared.worked untouched live
    · rw [sameSched]
    · rw [sameBlocks]
    · rw [leftBy, event_eq]
    · rw [sameTrace]

def KernelEvent.IsInterrupt : KernelEvent → Prop
  | .tick _ | .exit _ | .device _ => True
  | .work | .create _ _ _ _ => False

theorem blocksOf_interrupt (isInterrupt : record.event.IsInterrupt) :
    blocksOf (record :: trace) = blocksOf trace := by
  funext pid
  rw [blocksOf]
  cases event_eq : record.event <;> rw [event_eq] at isInterrupt
  trivial

theorem leftBy_interrupt (isInterrupt : record.event.IsInterrupt) :
    leftBy (record :: trace) = leftBy trace := by
  funext pid
  rw [leftBy]
  cases event_eq : record.event <;> rw [event_eq] at isInterrupt <;> trivial

/-- After an interrupt the process that runs next is loaded from where it was parked. -/
theorem Shared.interrupt (shared : Shared switchPml trace record.before)
    (interrupted : Interrupted tables call (Lives trace) record.before line record.after.machine)
    (isInterrupt : record.event.IsInterrupt)
    (run : SchedRun switchPml (schedTrace (record :: trace)) record.after.sched)
    (subset : livePids (schedTrace (record :: trace)) ⊆ livePids (schedTrace trace))
    (places : ∀ pid ∈ livePids (schedTrace (record :: trace)), ∀ context,
      savedContext (schedTrace trace) pid = some context →
        ∃ next, savedContext (schedTrace (record :: trace)) pid = some next ∧
          (record.after.sched.Running pid → (record.before.dispatch tables call line).frame =
            if record.before.sched.Running pid then (record.before.saved line).2 else context) ∧
          (¬record.after.sched.Running pid → next =
            if record.before.sched.Running pid then (record.before.saved line).2 else context)) :
    Shared switchPml (record :: trace) record.after := by
  refine ⟨run, ?_, ?_⟩
  · intro pid new other blocks isLive otherLive
    rw [Lives, blocksOf_interrupt isInterrupt] at isLive otherLive
    exact shared.disjoint pid new other blocks ⟨subset isLive.1, isLive.2⟩
      ⟨subset otherLive.1, otherLive.2⟩
  · intro pid live
    obtain ⟨new, left, context, known, parked⟩ := shared.parked interrupted (subset live)
    obtain ⟨next, saved, loaded, kept⟩ := places pid live context known.saved
    refine ⟨new, left, next, ⟨?_, ?_, saved⟩, ?_, ?_⟩
    · rw [blocksOf_interrupt isInterrupt, known.blocks]
    · rw [leftBy_interrupt isInterrupt, known.left]
    · intro running
      rw [interrupted.machine_eq, loaded running]
      exact parked.asLeft
    · intro waits
      rw [interrupted.machine_eq, kept waits]
      exact parked

theorem Shared.device (shared : Shared switchPml trace record.before)
    (event_eq : record.event = .device line) (valid : record.Valid switchPml (Lives trace)) :
    Shared switchPml (record :: trace) record.after := by
  rw [KernelRecord.Valid, event_eq] at valid
  obtain ⟨positive, below, sameSched, tables, call, interrupted⟩ := valid
  have sameTrace : schedTrace (record :: trace) = schedTrace trace := by
    rw [schedTrace, event_eq]
  apply shared.interrupt interrupted
  · rw [event_eq]
    trivial
  · rw [sameTrace, sameSched]
    exact shared.run
  · rw [sameTrace]
    exact List.Subset.refl _
  · rw [sameTrace, sameSched, dispatch_frame_device positive below]
    intro pid live context saved
    refine ⟨context, saved, ?_, ?_⟩
    · intro running
      exact (if_pos running).symm
    · intro waits
      exact (if_neg waits).symm

theorem Shared.timer {returned : Word} {event : SchedEvent}
    (shared : Shared switchPml trace record.before) (isInterrupt : record.event.IsInterrupt)
    (interrupted : TimerInterrupted tables call (Lives trace) record.before returned
      record.after.machine)
    (recorded : schedTrace (record :: trace) =
      ⟨record.before.sched, event, returned, record.after.sched⟩ :: schedTrace trace)
    (called : event = .tick (record.before.saved 0).2 ∨ event = .exit (record.before.saved 0).2)
    (valid : SchedRecord.Valid switchPml
      ⟨record.before.sched, event, returned, record.after.sched⟩) :
    Shared switchPml (record :: trace) record.after := by
  obtain ⟨installed, answer, interrupted⟩ := interrupted
  have run : SchedRun switchPml (schedTrace (record :: trace)) record.after.sched := by
    rw [recorded]
    exact .step shared.run valid
  have isCall : SchedRecord.IsCall
      ⟨record.before.sched, event, returned, record.after.sched⟩ := by
    obtain rfl | rfl := called <;> trivial
  have savedEq : ∀ pid, savedContext (schedTrace (record :: trace)) pid =
      if record.before.sched.Running pid then some (record.before.saved 0).2
      else savedContext (schedTrace trace) pid := by
    intro pid
    rw [recorded]
    obtain rfl | rfl := called <;> rfl
  apply shared.interrupt interrupted isInterrupt run
  · rw [recorded]
    obtain rfl | rfl := called
    · exact List.Subset.refl _
    · exact List.erase_subset
  · intro pid live context saved
    have next : savedContext (schedTrace (record :: trace)) pid =
        some (if record.before.sched.Running pid then (record.before.saved 0).2 else context) := by
      rw [savedEq, saved]
      split <;> rfl
    refine ⟨_, next, ?_, fun _ => rfl⟩
    intro running
    have returnedEq := (recorded ▸ run).returned_saved isCall running
    rw [← recorded, next] at returnedEq
    rw [dispatch_frame_timer installed, answer]
    exact (Option.some.inj returnedEq).symm

theorem contextField_blank (context : Word) (field : ContextField) :
    contextField (fun _ => 0#8) context field = 0#64 := by
  simp [contextField, loadWord, view, ByteMemory.readWord]

theorem parked_initial {memory : RawMemory}
    (context : ∀ field, contextField memory new.context field =
      contextField (createContext (fun _ => 0#8) new.context new.kstack wrapper function arg)
        new.context field) :
    Parked new (new.initial wrapper function arg memory) memory new.context where
  asLeft := by
    have loaded : (new.initial wrapper function arg memory).resume new.context =
        new.initial wrapper function arg memory := by
      rw [Machine.resume, NewProcess.initial]
      congr 1
      · funext target
        rw [context]
        cases target <;> simp [createContext, Register.field, contextField_blank]
      · simp [context, createContext]
      · simp [context, createContext]
      · simp [context, createContext]
      · simp [context, createContext]
    exact loaded ▸ ⟨rfl, fun _ _ => rfl⟩
  owned := by
    intro offset below
    right
    have distance : new.context + BitVec.ofNat 64 offset - new.context =
        BitVec.ofNat 64 offset := by
      rw [BitVec.add_comm, BitVec.add_sub_cancel]
    rw [contextSize] at below
    rw [NewProcess.InContext, distance, BitVec.toNat_ofNat, contextSize]
    omega

theorem Shared.create (shared : Shared switchPml trace record.before)
    (event_eq : record.event = .create new wrapper function arg)
    (valid : record.Valid switchPml (Lives trace)) :
    Shared switchPml (record :: trace) record.after := by
  rw [KernelRecord.Valid, event_eq] at valid
  obtain ⟨notNull, unlisted, returns, fresh, context, untouched⟩ := valid
  have recorded : schedTrace (record :: trace) =
      ⟨record.before.sched, .create new, 0#64, record.after.sched⟩ :: schedTrace trace := by
    rw [schedTrace, event_eq]
  have schedValid : SchedRecord.Valid switchPml
      ⟨record.before.sched, .create new, 0#64, record.after.sched⟩ := ⟨notNull, unlisted, returns⟩
  have sameRunning := fun pid =>
    @SchedRun.running_create pid switchPml _ _ new shared.run schedValid rfl
  have liveEq : livePids (schedTrace (record :: trace)) =
      livePids (schedTrace trace) ++ [record.before.sched.nextPid] := by
    rw [recorded]
    rfl
  have blocksEq : ∀ pid, blocksOf (record :: trace) pid =
      if record.before.sched.nextPid = pid then some new else blocksOf trace pid := by
    intro pid
    rw [blocksOf, event_eq]
  have savedEq : ∀ pid, savedContext (schedTrace (record :: trace)) pid =
      if record.before.sched.nextPid = pid then some new.context
      else savedContext (schedTrace trace) pid := by
    intro pid
    rw [recorded]
    rfl
  have leftEq : ∀ pid, leftBy (record :: trace) pid =
      if record.before.sched.nextPid = pid then
        some (new.initial wrapper function arg record.after.machine.memory)
      else if record.before.sched.Running pid then some record.after.machine
      else leftBy trace pid := by
    intro pid
    rw [leftBy, event_eq]
  have isNew := shared.run.nextPid_notMem
  have oldNe : ∀ pid ∈ livePids (schedTrace trace), record.before.sched.nextPid ≠ pid := by
    rintro pid live rfl
    exact isNew live
  -- a living process is the new one or an old one
  have livesCases : ∀ pid blocks, Lives (record :: trace) pid blocks →
      pid = record.before.sched.nextPid ∧ blocks = new ∨ Lives trace pid blocks := by
    rintro pid blocks ⟨live, blocksPid⟩
    rw [liveEq] at live
    rw [blocksEq] at blocksPid
    obtain old | new := List.mem_append.mp live
    · rw [if_neg (oldNe pid old)] at blocksPid
      exact .inr ⟨old, blocksPid⟩
    · have isNext := List.mem_singleton.mp new
      rw [if_pos isNext.symm] at blocksPid
      exact .inl ⟨isNext, (Option.some.inj blocksPid).symm⟩
  refine ⟨?_, ?_, ?_⟩
  · rw [recorded]
    exact .step shared.run schedValid
  · intro pid blocks other others isLive otherLive different address owned
    obtain ⟨rfl, rfl⟩ | old := livesCases pid blocks isLive
    · obtain ⟨rfl, rfl⟩ | otherOld := livesCases other others otherLive
      · exact absurd rfl different
      · exact fun alsoOwned => fresh other others otherOld address alsoOwned owned
    · obtain ⟨rfl, rfl⟩ | otherOld := livesCases other others otherLive
      · exact fresh pid blocks old address owned
      · exact shared.disjoint pid blocks other others old otherOld different address owned
  · intro pid live
    rw [liveEq] at live
    obtain old | isNext := List.mem_append.mp live
    · have notNext := oldNe pid old
      apply shared.worked untouched old (sameRunning pid)
      · rw [blocksEq, if_neg notNext]
      · rw [leftEq, if_neg notNext]
      · rw [savedEq, if_neg notNext]
    · obtain rfl := List.mem_singleton.mp isNext
      have waits : ¬record.before.sched.Running record.before.sched.nextPid := by
        intro running
        apply isNew
        have live := shared.run.exists_running running.1
        rwa [running.2] at live
      refine ⟨new, _, new.context, ⟨?_, ?_, ?_⟩, ?_, fun _ => parked_initial context⟩
      · rw [blocksEq, if_pos rfl]
      · rw [leftEq, if_pos rfl]
      · rw [savedEq, if_pos rfl]
      · exact fun runs => absurd ((sameRunning _).mp runs) waits

theorem Shared.step (shared : Shared switchPml trace record.before)
    (valid : record.Valid switchPml (Lives trace)) :
    Shared switchPml (record :: trace) record.after := by
  cases event_eq : record.event with
  | work => exact shared.work event_eq valid
  | create new wrapper function arg => exact shared.create event_eq valid
  | device line => exact shared.device event_eq valid
  | tick returned =>
      rw [KernelRecord.Valid, event_eq] at valid
      obtain ⟨returns, tables, call, interrupted⟩ := valid
      apply shared.timer (by rw [event_eq]; trivial) interrupted _ (.inl rfl) returns
      rw [schedTrace, event_eq]
  | exit returned =>
      rw [KernelRecord.Valid, event_eq] at valid
      obtain ⟨running, notIdle, returns, tables, call, interrupted⟩ := valid
      apply shared.timer (by rw [event_eq]; trivial) interrupted _ (.inr rfl)
        ⟨running, notIdle, returns⟩
      rw [schedTrace, event_eq]

theorem KernelRun.shared (run : KernelRun switchPml trace kernel) :
    Shared switchPml trace kernel := by
  induction run with
  | boot noList noCurrent firstPid =>
      refine ⟨.boot noList noCurrent firstPid, ?_, ?_⟩
      · rintro pid new other blocks ⟨live, -⟩
        cases live
      · intro pid live
        cases live
  | step _ valid shared => exact shared.step valid

/-- Whenever a process runs, the registers and the part of its stack that is in use are
as the process itself has left them, whatever interrupts and other processes there have
been since.  A process that waits is parked, so that this is what it will find. -/
theorem process_finds_machine (run : KernelRun switchPml trace kernel) {pid : Nat}
    (live : pid ∈ livePids (schedTrace trace)) :
    ∃ new left, blocksOf trace pid = some new ∧ leftBy trace pid = some left ∧
      (kernel.sched.Running pid → AsLeft new left kernel.machine) ∧
      (¬kernel.sched.Running pid → ∃ context, savedContext (schedTrace trace) pid = some context ∧
        AsLeft new left (kernel.machine.resume context)) := by
  obtain ⟨new, left, context, known, running, waiting⟩ := run.shared.known pid live
  exact ⟨new, left, known.blocks, known.left, running,
    fun waits => ⟨context, known.saved, (waiting waits).asLeft⟩⟩

end Sharing

section FirstProcess

def firstBlocks : NewProcess := ⟨0x1000#64, 0x2000#64, 0x20000#64, 0x3000#64⟩

def bootKernel : Kernel :=
  { machine :=
      { register := fun _ => 0x80000#64
        rip := 0#64
        rflags := 0x202#64
        cs := 0x28#16
        ss := 0x30#16
        memory := fun _ => 0#8 }
    sched := bootState }

def firstCreated : Kernel :=
  { machine :=
      { bootKernel.machine with
        memory := createContext (fun _ => 0#8) 0x2000#64 0x20000#64 0x100#64 0x200#64 0#64 }
    sched := (processCreate 2 bootState firstBlocks).getD bootState }

def chooseFirst : (handler frame : Word) → RawMemory → Word × RawMemory :=
  fun _ _ memory => (0x2000#64, memory)

def firstStarted : Kernel :=
  { machine := Machine.resume { bootKernel.machine with memory := (firstCreated.saved 0).1 } 0x2000#64
    sched := (((timerHandler freed id 4 firstCreated.sched (firstCreated.saved 0).2).bind
      Except.toOption).getD (0#64, bootState)).2 }

def firstRecords : List KernelRecord :=
  [⟨firstCreated, .tick 0x2000#64, firstStarted⟩,
    ⟨bootKernel, .create firstBlocks 0x100#64 0x200#64 0#64, firstCreated⟩]

theorem firstCreated_run :
    KernelRun id [⟨bootKernel, .create firstBlocks 0x100#64 0x200#64 0#64, firstCreated⟩]
      firstCreated := by
  have returns : Returns (fun fuel => processCreate fuel bootState firstBlocks)
      firstCreated.sched :=
    .of_add 2 fun _ => rfl
  have unlisted : bootState.Unlisted firstBlocks.process := by
    intro pointers listed
    have noProcess : bootState.Listed [] := rfl
    rw [LinkedList.Links.unique listed noProcess]
    exact List.not_mem_nil
  have nobody : ∀ pid new, ¬Lives [] pid new := by
    rintro pid new ⟨live, -⟩
    cases live
  exact @KernelRun.step id [] ⟨bootKernel, .create firstBlocks 0x100#64 0x200#64 0#64, firstCreated⟩
    (.boot rfl rfl rfl) ⟨by decide, unlisted, returns, fun pid new lives => absurd lives (nobody _ _),
      fun _ => rfl, fun pid new lives => absurd lives (nobody _ _)⟩

theorem firstRecords_run : KernelRun id firstRecords firstStarted := by
  have returns : Returns (fun fuel => timerHandler freed id fuel firstCreated.sched
      (firstCreated.saved 0).2) (.ok (0x2000#64, firstStarted.sched)) :=
    .of_add 4 fun _ => rfl
  have sameMemory : (firstCreated.dispatch ⟨fun _ => 1#64, fun _ => 0#64⟩ chooseFirst 0).memory =
      (firstCreated.saved 0).1 := by
    rw [Kernel.dispatch, irqHandler]
    dsimp only
    rw [if_neg (by decide), chooseFirst]
  refine .step firstCreated_run ⟨returns, ⟨fun _ => 1#64, fun _ => 0#64⟩, chooseFirst, by decide, rfl,
    rfl, ?_, ?_, ?_, ?_⟩
  · rintro pid new - ⟨running, -⟩
    exact absurd rfl running
  · rintro - pid new ⟨-, blocks⟩ address owned
    have isFirst : new = firstBlocks := by
      rw [blocksOf, blocksOf] at blocks
      dsimp only at blocks
      split at blocks
      · exact (Option.some.inj blocks).symm
      · cases blocks
    apply saved_of_outside
    rw [saved_frame rfl]
    rw [isFirst, NewProcess.Owns, NewProcess.InStack, NewProcess.InContext, NewProcess.stackBase,
      stackSize, contextSize, firstBlocks] at owned
    rw [contextSize]
    have top : firstCreated.machine.stackTop = 0x80000#64 := by decide
    rw [top]
    bv_omega
  · intro pid new _ address _ _
    rw [sameMemory]
  · refine ⟨fun _ => 0#64, ?_⟩
    rw [run_irqCall, sameMemory, dispatch_frame_timer (by decide)]
    rfl

end FirstProcess

section SecondProcess

def Interruptible (trace : List KernelRecord) (pid : Nat) : Prop :=
  ∃ new left, blocksOf trace pid = some new ∧ leftBy trace pid = some left ∧
    left.cs.setWidth 2 = 0#2 ∧ contextSize ≤ (left.stackTop - new.stackBase).toNat ∧
      (left.stackTop - new.stackBase).toNat ≤ stackSize

variable {trace : List KernelRecord}

section

variable (run : KernelRun switchPml trace kernel) (running : kernel.sched.Running pid)
  (ready : Interruptible trace pid)
include run running ready

/-- The timer may interrupt the running process, and `schedule` return any context. -/
theorem KernelRun.exists_timer (returned : Word) :
    ∃ tables call machine, TimerInterrupted tables call (Lives trace) kernel returned machine := by
  obtain ⟨new, left, blocks, leftEq, kernelMode, room⟩ := ready
  have live := run.shared.run.exists_running running.1
  rw [running.2] at live
  obtain ⟨new', left', context, known, found, -⟩ := run.shared.known pid live
  obtain rfl := Option.some.inj (leftEq.symm.trans known.left)
  have registers := (found running).registers
  have sameMemory : (kernel.dispatch ⟨fun _ => 1#64, fun _ => 0#64⟩
      (fun _ _ memory => (returned, memory)) 0).memory = (kernel.saved 0).1 := by
    rw [Kernel.dispatch, irqHandler]
    dsimp only
    rw [if_neg (by decide)]
  refine ⟨⟨fun _ => 1#64, fun _ => 0#64⟩, fun _ _ memory => (returned, memory), _, by decide, rfl,
    ?_, ?_, ?_, ?_, fun _ => 0#64, run_irqCall _ _ _ _ _⟩
  · rwa [← registers] at kernelMode
  · rintro other others ⟨-, otherBlocks⟩ otherRuns
    obtain rfl : pid = other := running.2.symm.trans otherRuns.2
    obtain rfl := Option.some.inj (blocks.symm.trans otherBlocks)
    rwa [← registers] at room
  · intro booting
    exact absurd booting running.1
  · intro other others _ address _ _
    rw [sameMemory]

theorem KernelRun.exists_tick :
    ∃ returned next, KernelRun switchPml (⟨kernel, .tick returned, next⟩ :: trace) next := by
  obtain ⟨turns, follows⟩ := run.shared.run.follows
  obtain ⟨rota, left, rfl, scheduled⟩ := follows.inTurns.exists_turn running.1
  have admits : kernel.sched.Admits (.tick (kernel.saved 0).2) :=
    follows.inTurns.listed.ne_null (List.ne_nil_of_mem rota.current_mem)
  obtain ⟨returned, sched, returns⟩ := follows.exists_valid admits
  obtain ⟨tables, call, machine, interrupted⟩ := run.exists_timer running ready returned
  exact ⟨returned, ⟨machine, sched⟩, @KernelRun.step _ _ ⟨kernel, .tick returned, ⟨machine, sched⟩⟩
    run ⟨returns, tables, call, interrupted⟩⟩

theorem KernelRun.exists_exit (notIdle : pid ≠ 1) :
    ∃ returned next, KernelRun switchPml (⟨kernel, .exit returned, next⟩ :: trace) next := by
  obtain ⟨turns, follows⟩ := run.shared.run.follows
  have admits : kernel.sched.Admits (.exit (kernel.saved 0).2) :=
    ⟨running.1, fun isIdle => notIdle (running.2.symm.trans isIdle)⟩
  obtain ⟨returned, sched, notNull, other, returns⟩ := follows.exists_valid admits
  obtain ⟨tables, call, machine, interrupted⟩ := run.exists_timer running ready returned
  exact ⟨returned, ⟨machine, sched⟩, @KernelRun.step _ _ ⟨kernel, .exit returned, ⟨machine, sched⟩⟩
    run ⟨notNull, other, returns, tables, call, interrupted⟩⟩

end

theorem KernelRun.running_turn {rota : Rota Nat} {left : Nat} (run : KernelRun switchPml trace kernel)
    (turns : turnsOf (schedTrace trace) = .turn rota left) : kernel.sched.Running rota.current :=
  run.shared.run.running_iff.mpr ⟨rota, left, turns, rfl⟩

/-- The timer ticks on. -/
theorem KernelRun.exists_ticks (run : KernelRun switchPml trace kernel)
    (running : kernel.sched.currentProcess ≠ 0#64)
    (ready : ∀ pid ∈ livePids (schedTrace trace), Interruptible trace pid) (count : Nat) :
    ∃ ticks next, KernelRun switchPml (ticks ++ trace) next ∧ next.sched.currentProcess ≠ 0#64 ∧
      turnsOf (schedTrace (ticks ++ trace)) = (Turns.tick 3)^[count] (turnsOf (schedTrace trace)) ∧
      livePids (schedTrace (ticks ++ trace)) = livePids (schedTrace trace) ∧
      blocksOf (ticks ++ trace) = blocksOf trace ∧ leftBy (ticks ++ trace) = leftBy trace := by
  induction count with
  | zero => exact ⟨[], kernel, run, running, rfl, rfl, rfl, rfl⟩
  | succ count ih =>
      obtain ⟨ticks, next, ticked, running, turns, live, blocks, left⟩ := ih
      have current := ready _ (live ▸ ticked.shared.run.exists_running running)
      rw [Interruptible, ← blocks, ← left] at current
      obtain ⟨returned, after, again⟩ := ticked.exists_tick ⟨running, rfl⟩ current
      obtain ⟨turns', follows⟩ := again.shared.run.follows
      refine ⟨⟨next, .tick returned, after⟩ :: ticks, after, again,
        (follows.called _ rfl trivial).1, ?_, live, blocks, left⟩
      rw [Function.iterate_succ_apply', ← turns]
      rfl

def secondBlocks : NewProcess := ⟨0x4000#64, 0x5000#64, 0x40000#64, 0x6000#64⟩

def secondCreated : Kernel :=
  { machine :=
      { firstStarted.machine with
        memory := fun address =>
          if (address - 0x5000#64).toNat < contextSize then
            createContext (fun _ => 0#8) 0x5000#64 0x40000#64 0x100#64 0x300#64 0#64 address
          else firstStarted.machine.memory address }
    sched := (processCreate 2 firstStarted.sched secondBlocks).getD bootState }

def firstWorked : Kernel :=
  { secondCreated with
    machine :=
      { secondCreated.machine with
        register
          | .rbx => 7#64
          | .rsp => 0x1ff00#64
          | other => secondCreated.machine.register other
        rip := 0x150#64 } }

def workRecords : List KernelRecord :=
  ⟨secondCreated, .work, firstWorked⟩ ::
    ⟨firstStarted, .create secondBlocks 0x100#64 0x300#64 0#64, secondCreated⟩ :: firstRecords

theorem workRecords_run : KernelRun id workRecords firstWorked := by
  have returns : Returns (fun fuel => processCreate fuel firstStarted.sched secondBlocks)
      secondCreated.sched :=
    .of_add 2 fun _ => rfl
  have unlisted : firstStarted.sched.Unlisted secondBlocks.process := by
    intro pointers listed
    have one : firstStarted.sched.Listed [0x1000#64] := ⟨rfl, by decide, rfl⟩
    rw [LinkedList.Links.unique listed one]
    decide
  have onlyFirst : ∀ other others, Lives firstRecords other others →
      others = firstBlocks ∧ firstStarted.sched.Running other := by
    rintro other others ⟨live, blocks⟩
    obtain rfl := List.mem_singleton.mp (show other ∈ [1] from live)
    exact ⟨(Option.some.inj blocks).symm, by decide⟩
  have context : ∀ field, contextField secondCreated.machine.memory 0x5000#64 field =
      contextField (createContext (fun _ => 0#8) 0x5000#64 0x40000#64 0x100#64 0x300#64 0#64)
        0x5000#64 field := by
    apply contextField_congr
    intro offset below
    rw [secondCreated]
    dsimp only
    rw [if_pos]
    rw [contextSize] at below ⊢
    bv_omega
  have fresh : FreshBlocks (Lives firstRecords) secondBlocks := by
    intro other others lives address owned
    rw [(onlyFirst other others lives).1, NewProcess.Owns, NewProcess.InStack, NewProcess.InContext,
      NewProcess.stackBase, stackSize, contextSize, firstBlocks] at owned
    rw [NewProcess.Owns, NewProcess.InStack, NewProcess.InContext, NewProcess.stackBase, stackSize,
      contextSize, secondBlocks]
    bv_omega
  have created := @KernelRun.step id _
    ⟨firstStarted, .create secondBlocks 0x100#64 0x300#64 0#64, secondCreated⟩ firstRecords_run
    ⟨by decide, unlisted, returns, fresh, context,
      fun other others lives waits => absurd (onlyFirst other others lives).2 waits⟩
  exact @KernelRun.step id _ ⟨secondCreated, .work, firstWorked⟩ created
    ⟨rfl, fun _ _ _ _ _ _ => rfl⟩

/-- The first process is preempted in the middle of its work; it is resumed there when
the second one, which has run meanwhile, exits. -/
theorem process_finds_machine_preempted :
    ∃ trace waiting returned resumed, KernelRun id (trace ++ workRecords) waiting ∧
      waiting.sched.Running 2 ∧ waiting.machine.register .rdi = 0x300#64 ∧
      KernelRun id (⟨waiting, .exit returned, resumed⟩ :: (trace ++ workRecords)) resumed ∧
      resumed.sched.Running 1 ∧ resumed.machine.rip = 0x150#64 ∧
      resumed.machine.register .rbx = 7#64 ∧ resumed.machine.register .rsp = 0x1ff00#64 := by
  have start : turnsOf (schedTrace workRecords) = .turn ⟨[], 1, [2]⟩ 3 := rfl
  have firstLeft : leftBy workRecords 1 = some firstWorked.machine := rfl
  have secondLeft : leftBy workRecords 2 =
      some (secondBlocks.initial 0x100#64 0x300#64 0#64 secondCreated.machine.memory) := rfl
  have ready : ∀ pid ∈ [1, 2], Interruptible workRecords pid := by
    intro pid member
    obtain rfl | rfl : pid = 1 ∨ pid = 2 := by simpa using member
    · exact ⟨firstBlocks, _, rfl, firstLeft, rfl, by decide, by decide⟩
    · exact ⟨secondBlocks, _, rfl, secondLeft, rfl, by decide, by decide⟩
  obtain ⟨ticks, waiting, waits, -, turns, live, blocks, left⟩ :=
    workRecords_run.exists_ticks (by decide) ready 3
  rw [start] at turns
  have secondRuns : waiting.sched.Running 2 := waits.running_turn turns
  have secondReady := ready 2 (by decide)
  rw [Interruptible, ← blocks, ← left] at secondReady
  obtain ⟨returned, resumed, exited⟩ := waits.exists_exit secondRuns secondReady (by decide)
  have firstRuns : resumed.sched.Running 1 :=
    exited.running_turn (congrArg (Turns.leave 3) turns)
  obtain ⟨_, second, -, secondEq, started, -⟩ := process_finds_machine waits
    (show 2 ∈ livePids (schedTrace (ticks ++ workRecords)) from live ▸ by decide)
  obtain ⟨_, first, -, firstEq, found, -⟩ := process_finds_machine exited
    (show 1 ∈ livePids (schedTrace (_ :: (ticks ++ workRecords))) from firstRuns.2 ▸
      exited.shared.run.exists_running firstRuns.1)
  rw [left, secondLeft] at secondEq
  change leftBy (ticks ++ workRecords) 1 = _ at firstEq
  rw [left, firstLeft] at firstEq
  have secondRegisters := (started secondRuns).registers
  have firstRegisters := (found firstRuns).registers
  rw [← Option.some.inj secondEq] at secondRegisters
  rw [← Option.some.inj firstEq] at firstRegisters
  exact ⟨ticks, waiting, returned, resumed, waits, secondRuns,
    congrArg (fun machine => machine.register .rdi) secondRegisters, exited, firstRuns,
    congrArg Machine.rip firstRegisters,
    congrArg (fun machine => machine.register .rbx) firstRegisters,
    congrArg (fun machine => machine.register .rsp) firstRegisters⟩

end SecondProcess

end MmdOS
