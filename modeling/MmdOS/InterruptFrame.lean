import MmdOS.MachineWord
import MmdOS.WordStack
import Mathlib.Data.List.Basic

/-!
# Interrupt frames

An interrupt leaves the registers of the interrupted program on the stack: the
processor pushes what `iretq` takes back, the entry points push an error code
and the vector, and the stubs push the general registers.  The C code sees
these words as an `execution_context`, and the stubs pop the registers from the
context that the handler returns.

Three orders have to agree: that of the pushes, that of the fields and that of
the pops.
-/

namespace MmdOS

open WordStack
open Function (update update_self update_of_ne update_idem update_eq_self)

variable {callee : Handler → Machine → Option Machine}

inductive Register
  | rax | rbx | rcx | rdx | rdi | rsi | r8 | r9 | r10 | r11 | r12 | r13 | r14 | r15 | rbp | rsp
  deriving DecidableEq

/-- The state of the processor and the memory.  Within the stubs `rip` is left
as it is. -/
structure Machine where
  register : Register → Word
  rip : Word
  rflags : Word
  cs : BitVec 16
  ss : BitVec 16
  memory : RawMemory

inductive Handler
  | irqHandler
  | syscallHandler

inductive Instruction
  | cli
  | sti
  | pushImmediate (value : Word)
  | push (register : Register)
  | pop (register : Register)
  | mov (target source : Register)
  | add (target : Register) (value : Word)
  | call (handler : Handler)
  | iretq

namespace Machine

def set (machine : Machine) (target : Register) (value : Word) : Machine :=
  { machine with register := update machine.register target value }

@[simp]
theorem register_set (machine : Machine) (target : Register) (value : Word) :
    (machine.set target value).register = update machine.register target value :=
  rfl

def pushWord (machine : Machine) (value : Word) : Machine :=
  let top := machine.register .rsp - 8#64
  { machine.set .rsp top with memory := storeWord machine.memory top value }

def iretq (machine : Machine) : Machine :=
  let top := machine.register .rsp
  { machine.set .rsp (loadWord machine.memory (slot top 3)) with
    rip := loadWord machine.memory top
    cs := (loadWord machine.memory (slot top 1)).setWidth 16
    rflags := loadWord machine.memory (slot top 2)
    ss := (loadWord machine.memory (slot top 4)).setWidth 16 }

/-- One instruction.  The flags that an addition sets are left out: `iretq`
loads all of them. -/
def step (callee : Handler → Machine → Option Machine) (machine : Machine) :
    Instruction → Option Machine
  | .cli => some { machine with rflags := machine.rflags &&& ~~~0x200#64 }
  | .sti => some { machine with rflags := machine.rflags ||| 0x200#64 }
  | .pushImmediate value => some (machine.pushWord value)
  | .push source => some (machine.pushWord (machine.register source))
  | .pop target =>
      let top := machine.register .rsp
      some ((machine.set .rsp (top + 8#64)).set target (loadWord machine.memory top))
  | .mov target source => some (machine.set target (machine.register source))
  | .add target value => some (machine.set target (machine.register target + value))
  | .call handler => callee handler machine
  | .iretq => some machine.iretq

def run (callee : Handler → Machine → Option Machine) :
    List Instruction → Machine → Option Machine
  | [], machine => some machine
  | instruction :: rest, machine => (machine.step callee instruction).bind (run callee rest)

/-- The stack on which an interrupt puts its frame.  From user mode it is the
one in the task state segment; it is aligned to sixteen bytes. -/
def interruptStack (machine : Machine) (rsp0 : Word) : Word :=
  (if machine.cs.setWidth 2 = 0#2 then machine.register .rsp else rsp0) &&& ~~~15#64

def iretFrame (machine : Machine) : List Word :=
  [machine.ss.setWidth 64, machine.register .rsp, machine.rflags, machine.cs.setWidth 64,
    machine.rip]

def interrupt (machine : Machine) (rsp0 : Word) : Machine :=
  let pushed := pushAll machine.iretFrame machine.memory (machine.interruptStack rsp0)
  { machine.set .rsp pushed.2 with
    rflags := machine.rflags &&& ~~~0x34300#64
    cs := 0x28#16
    ss := if machine.cs.setWidth 2 = 0#2 then machine.ss else 0#16
    memory := pushed.1 }

end Machine

section Stubs

def pushOrder : List Register :=
  [.rax, .rbx, .rcx, .rdx, .rdi, .rsi, .r8, .r9, .r10, .r11, .r12, .r13, .r14, .r15, .rbp]

def popOrder : List Register :=
  [.rbp, .r15, .r14, .r13, .r12, .r11, .r10, .r9, .r8, .rsi, .rdi, .rdx, .rcx, .rbx, .rax]

def pushVector (vector : Word) : List Instruction :=
  [.cli, .pushImmediate 0#64, .pushImmediate vector]

def saveContext : List Instruction :=
  pushOrder.map Instruction.push ++ [Instruction.mov .rdi .rsp]

def restoreContext : List Instruction :=
  Instruction.mov .rsp .rax :: popOrder.map Instruction.pop ++
    [Instruction.add .rsp 16#64, Instruction.sti, Instruction.iretq]

def contextStub (handler : Handler) : List Instruction :=
  saveContext ++ Instruction.call handler :: restoreContext

def irqStub : List Instruction := contextStub .irqHandler

def syscallStub : List Instruction := contextStub .syscallHandler

def irq (line : Nat) : List Instruction :=
  pushVector (BitVec.ofNat 64 (32 + line)) ++ irqStub

def isr128 : List Instruction :=
  pushVector 0x80#64 ++ syscallStub

end Stubs

inductive ContextField
  | rbp | r15 | r14 | r13 | r12 | r11 | r10 | r9 | r8 | rsi | rdi | rdx | rcx | rbx | rax
  | intNumber | errorCode | iretRip | iretCs | iretFlags | iretRsp | iretSs
  deriving DecidableEq

namespace ContextField

def structOrder : List ContextField :=
  [rbp, r15, r14, r13, r12, r11, r10, r9, r8, rsi, rdi, rdx, rcx, rbx, rax,
    intNumber, errorCode, iretRip, iretCs, iretFlags, iretRsp, iretSs]

/-- The structure is packed, and every field is a word. -/
def index (field : ContextField) : Nat :=
  structOrder.idxOf field

theorem index_lt (field : ContextField) : field.index < 22 := by
  cases field <;> decide

theorem index_injective {field other : ContextField} (same : field.index = other.index) :
    field = other := by
  have member : ∀ field : ContextField, field ∈ structOrder := by
    intro field
    cases field <;> decide
  exact (List.idxOf_inj (member field)).mp same

end ContextField

def contextField (memory : RawMemory) (frame : Word) (field : ContextField) : Word :=
  loadWord memory (slot frame field.index)

def setContextField (memory : RawMemory) (frame : Word) (field : ContextField)
    (value : Word) : RawMemory :=
  storeWord memory (slot frame field.index) value

@[simp]
theorem contextField_setContextField (memory : RawMemory) (frame : Word)
    (field other : ContextField) (value : Word) :
    contextField (setContextField memory frame field value) frame other =
      if other = field then value else contextField memory frame other := by
  have fieldLt := field.index_lt
  have otherLt := other.index_lt
  rw [contextField, setContextField, loadWord_storeWord_slot (by omega) (by omega)]
  by_cases same : other = field
  · rw [if_pos (congrArg _ same), if_pos same]
  · rw [if_neg (fun sameIndex => same (ContextField.index_injective sameIndex)), if_neg same,
      contextField]

section Handlers

/-- A system call gets the frame and four arguments.  No result means that it
does not return. -/
abbrev SyscallFunction := (frame a0 a1 a2 a3 : Word) → RawMemory → Option (Word × RawMemory)

/-- `syscall_handler`; no handler stands for a null pointer. -/
def syscallHandler (handlers : Word → Option SyscallFunction) (frame : Word) (memory : RawMemory) :
    Option (Word × RawMemory) := do
  let handler ← handlers (contextField memory frame .rdi)
  let (value, memory) ← handler frame (contextField memory frame .rsi)
    (contextField memory frame .rdx) (contextField memory frame .rcx)
    (contextField memory frame .r8) memory
  some (frame, setContextField memory frame .rax value)

/-- The loop of `_syscall_memcpy`. -/
def memcpyLoop (dest src : Word) : (left : Nat) → (i : Word) → RawMemory → RawMemory
  | 0, _, memory => memory
  | left + 1, i, memory =>
      memcpyLoop dest src left (i + 1#64)
        (update memory (dest + i) (memory (src + i)))

def syscallMemcpy : SyscallFunction := fun _ dest src size _ memory =>
  some (size, memcpyLoop dest src size.toNat 0#64 memory)

/-- The context that `process_create` sets up. -/
def createContext (memory : RawMemory) (context kstack wrapper function arg : Word) : RawMemory :=
  let memory := setContextField memory context .iretSs 0x30#64
  let memory := setContextField memory context .iretRsp kstack
  let memory := setContextField memory context .iretFlags 0x202#64
  let memory := setContextField memory context .iretCs 0x28#64
  let memory := setContextField memory context .iretRip wrapper
  let memory := setContextField memory context .rdi function
  let memory := setContextField memory context .rsi arg
  setContextField memory context .rbp 0#64

/-- A call of a C function: the first argument is in `rdi` and the result in
`rax`, and the other registers may have any values behind it. -/
def callFunction (function : Word → RawMemory → Option (Word × RawMemory))
    (clobbered : Register → Word) (machine : Machine) : Option Machine :=
  (function (machine.register .rdi) machine.memory).map fun (value, memory) =>
    { machine with register := update clobbered .rax value, memory }

end Handlers

namespace Machine

theorem run_append (first second : List Instruction) (machine : Machine) :
    run callee (first ++ second) machine = (run callee first machine).bind (run callee second) := by
  induction first generalizing machine with
  | nil => rfl
  | cons instruction rest ih =>
      rw [List.cons_append, run, run, Option.bind_assoc]
      congr 1
      funext next
      exact ih next

def pushWords (machine : Machine) (words : List Word) : Machine :=
  let pushed := pushAll words machine.memory (machine.register .rsp)
  { machine.set .rsp pushed.2 with memory := pushed.1 }

theorem pushWords_nil (machine : Machine) : machine.pushWords [] = machine := by
  rw [pushWords, pushAll, set, update_eq_self]

theorem pushWords_cons (machine : Machine) (word : Word) (rest : List Word) :
    machine.pushWords (word :: rest) = (machine.pushWord word).pushWords rest := by
  simp only [pushWords, pushWord, set, pushAll, update_self, update_idem]

theorem pushWords_append (machine : Machine) (first second : List Word) :
    machine.pushWords (first ++ second) = (machine.pushWords first).pushWords second := by
  simp only [pushWords, set, pushAll_append, update_self, update_idem]

theorem run_push {registers : List Register} (noStack : .rsp ∉ registers) (machine : Machine) :
    run callee (registers.map Instruction.push) machine =
      some (machine.pushWords (registers.map machine.register)) := by
  induction registers generalizing machine with
  | nil => exact congrArg some machine.pushWords_nil.symm
  | cons first rest ih =>
      rw [List.mem_cons, not_or] at noStack
      have kept : rest.map (machine.pushWord (machine.register first)).register =
          rest.map machine.register := by
        apply List.map_congr_left
        intro other member
        have notStack : other ≠ .rsp := by
          rintro rfl
          exact noStack.2 member
        exact update_of_ne notStack _ _
      rw [List.map_cons, List.map_cons, pushWords_cons, run, step, Option.bind_some, ih noStack.2,
        kept]

/-- Registers that are popped hold the words of the stack, and the other ones
keep their values. -/
theorem run_pop {registers : List Register} (noStack : .rsp ∉ registers)
    (nodup : registers.Nodup) (machine : Machine) :
    ∃ register, run callee (registers.map Instruction.pop) machine = some { machine with register } ∧
      register .rsp = slot (machine.register .rsp) registers.length ∧
      (∀ (index : Nat) popped, registers[index]? = some popped →
        register popped = loadWord machine.memory (slot (machine.register .rsp) index)) ∧
      ∀ other, other ≠ .rsp → other ∉ registers → register other = machine.register other := by
  induction registers generalizing machine with
  | nil =>
      refine ⟨machine.register, rfl, (slot_zero _).symm, ?_, fun _ _ _ => rfl⟩
      intro index popped found
      simp at found
  | cons first rest ih =>
      rw [List.mem_cons, not_or] at noStack
      rw [List.nodup_cons] at nodup
      obtain ⟨firstNotStack, restNoStack⟩ := noStack
      obtain ⟨register, runEq, stackEq, popped, kept⟩ := ih restNoStack nodup.2
        ((machine.set .rsp (machine.register .rsp + 8#64)).set first
          (loadWord machine.memory (machine.register .rsp)))
      have top : ((machine.set .rsp (machine.register .rsp + 8#64)).set first
          (loadWord machine.memory (machine.register .rsp))).register .rsp =
            slot (machine.register .rsp) 1 := by
        rw [register_set, register_set, update_of_ne firstNotStack, update_self]
        rfl
      rw [top] at stackEq popped
      refine ⟨register, ?_, ?_, ?_, ?_⟩
      · rw [List.map_cons, run, step, Option.bind_some, runEq]
        rfl
      · rw [stackEq, slot_slot, List.length_cons, Nat.add_comm]
      · intro index other found
        cases index with
        | zero =>
            rw [List.getElem?_cons_zero, Option.some.injEq] at found
            rw [← found, kept first (Ne.symm firstNotStack) nodup.1, slot_zero]
            exact update_self _ _ _
        | succ index =>
            rw [List.getElem?_cons_succ] at found
            rw [popped index other found, slot_slot, Nat.add_comm]
            rfl
      · intro other notStack notMember
        rw [List.mem_cons, not_or] at notMember
        rw [kept other notStack notMember.2]
        exact (update_of_ne notMember.1 _ _).trans
          (update_of_ne notStack _ _)

def savedWords (machine : Machine) (vector : Word) : List Word :=
  machine.iretFrame ++ [0#64, vector] ++ pushOrder.map machine.register

def savedFrame (machine : Machine) (rsp0 vector : Word) : RawMemory × Word :=
  pushAll (machine.savedWords vector) machine.memory (machine.interruptStack rsp0)

/-- What each field of the context is named after. -/
def saved (machine : Machine) (vector : Word) : ContextField → Word
  | .rbp => machine.register .rbp
  | .r15 => machine.register .r15
  | .r14 => machine.register .r14
  | .r13 => machine.register .r13
  | .r12 => machine.register .r12
  | .r11 => machine.register .r11
  | .r10 => machine.register .r10
  | .r9 => machine.register .r9
  | .r8 => machine.register .r8
  | .rsi => machine.register .rsi
  | .rdi => machine.register .rdi
  | .rdx => machine.register .rdx
  | .rcx => machine.register .rcx
  | .rbx => machine.register .rbx
  | .rax => machine.register .rax
  | .intNumber => vector
  | .errorCode => 0#64
  | .iretRip => machine.rip
  | .iretCs => machine.cs.setWidth 64
  | .iretFlags => machine.rflags
  | .iretRsp => machine.register .rsp
  | .iretSs => machine.ss.setWidth 64

theorem contextField_savedFrame (machine : Machine) (rsp0 vector : Word) (field : ContextField) :
    contextField (machine.savedFrame rsp0 vector).1 (machine.savedFrame rsp0 vector).2 field =
      machine.saved vector field := by
  have stacked := (Stacked.nil machine.memory (machine.interruptStack rsp0)).pushAll
    (machine.savedWords vector) (by simp [savedWords, iretFrame, pushOrder])
  apply stacked
  cases field <;> rfl

def called (machine : Machine) (rsp0 vector : Word) : Machine :=
  let frame := machine.savedFrame rsp0 vector
  { register := update (update machine.register .rsp frame.2) .rdi frame.2
    rip := machine.rip
    rflags := machine.rflags &&& ~~~0x34300#64 &&& ~~~0x200#64
    cs := 0x28#16
    ss := if machine.cs.setWidth 2 = 0#2 then machine.ss else 0#16
    memory := frame.1 }

end Machine

def Register.field : Register → ContextField
  | .rax => .rax
  | .rbx => .rbx
  | .rcx => .rcx
  | .rdx => .rdx
  | .rdi => .rdi
  | .rsi => .rsi
  | .r8 => .r8
  | .r9 => .r9
  | .r10 => .r10
  | .r11 => .r11
  | .r12 => .r12
  | .r13 => .r13
  | .r14 => .r14
  | .r15 => .r15
  | .rbp => .rbp
  | .rsp => .iretRsp

namespace Machine

def resume (machine : Machine) (frame : Word) : Machine :=
  { register := fun target => contextField machine.memory frame target.field
    rip := contextField machine.memory frame .iretRip
    rflags := contextField machine.memory frame .iretFlags
    cs := (contextField machine.memory frame .iretCs).setWidth 16
    ss := (contextField machine.memory frame .iretSs).setWidth 16
    memory := machine.memory }

theorem run_save (machine : Machine) (rsp0 vector : Word) :
    run callee (pushVector vector ++ saveContext) (machine.interrupt rsp0) =
      some (machine.called rsp0 vector) := by
  let entry : Machine :=
    { machine.set .rsp (machine.interruptStack rsp0) with
      rflags := machine.rflags &&& ~~~0x34300#64 &&& ~~~0x200#64
      cs := 0x28#16
      ss := if machine.cs.setWidth 2 = 0#2 then machine.ss else 0#16 }
  have vectorPushed : run callee (pushVector vector) (machine.interrupt rsp0) =
      some (entry.pushWords (machine.iretFrame ++ [0#64, vector])) := by
    rw [pushWords_append, pushWords_cons, pushWords_cons, pushWords_nil]
    simp only [pushVector, run, step, Option.bind_some, interrupt, entry, pushWords, set,
      update_self, update_idem]
  have registers : pushOrder.map
      (entry.pushWords (machine.iretFrame ++ [0#64, vector])).register =
        pushOrder.map machine.register := rfl
  rw [saveContext, run_append, vectorPushed, Option.bind_some, run_append, run_push (by decide),
    Option.bind_some, registers, ← pushWords_append, ← savedWords, run, step, Option.bind_some,
    run]
  simp only [pushWords, called, savedFrame, entry, set, update_self,
    update_idem]

theorem run_restore (machine : Machine) :
    run callee restoreContext machine = some (machine.resume (machine.register .rax)) := by
  obtain ⟨register, runEq, stackEq, popped, -⟩ := @run_pop callee popOrder (by decide) (by decide)
    (machine.set .rsp (machine.register .rax))
  have frameEq : (machine.set .rsp (machine.register .rax)).register .rsp =
      machine.register .rax := by
    rw [register_set, update_self]
  rw [frameEq] at stackEq popped
  have top : register .rsp + 16#64 = slot (machine.register .rax) 17 := by
    rw [stackEq]
    exact slot_slot _ 15 2
  rw [restoreContext, List.cons_append, run, step, Option.bind_some, run_append, runEq,
    Option.bind_some]
  simp only [run, step, Option.bind_some, iretq, set, top, slot_slot, update_self,
    update_idem]
  rw [resume]
  congr 2
  funext target
  by_cases isStack : target = .rsp
  · rw [isStack, update_self]
    rfl
  · rw [update_of_ne isStack]
    have position : popOrder[target.field.index]? = some target := by
      cases target <;> first | rfl | exact absurd rfl isStack
    exact popped _ target position

/-- An interrupt saves all registers, calls the handler, and loads all registers
from the context that the handler returns. -/
theorem run_interrupt (handler : Handler) (machine : Machine) (rsp0 vector : Word) :
    run callee (pushVector vector ++ contextStub handler) (machine.interrupt rsp0) =
      (callee handler (machine.called rsp0 vector)).map fun after =>
        after.resume (after.register .rax) := by
  rw [contextStub, ← List.append_assoc, run_append, run_save, Option.bind_some, run, step,
    Option.map_eq_bind]
  congr 1
  funext after
  exact run_restore after

/-- The handler is called with a context that has every register in the field of
its name, and all registers are loaded from the context that it returns. -/
def SavesAndRestores (program : List Instruction) (handler : Handler) (vector : Word) : Prop :=
  ∀ (callee : Handler → Machine → Option Machine) (machine : Machine) (rsp0 : Word),
    (∀ field, contextField (machine.called rsp0 vector).memory
      ((machine.called rsp0 vector).register .rdi) field = machine.saved vector field) ∧
    run callee program (machine.interrupt rsp0) =
      (callee handler (machine.called rsp0 vector)).map fun after =>
        after.resume (after.register .rax)

theorem savesAndRestores (handler : Handler) (vector : Word) :
    SavesAndRestores (pushVector vector ++ contextStub handler) handler vector :=
  fun _ machine rsp0 =>
    ⟨machine.contextField_savedFrame rsp0 vector, machine.run_interrupt handler rsp0 vector⟩

theorem resume_eq {machine before : Machine} {frame vector value : Word}
    (intact : ∀ field, contextField machine.memory frame field =
      if field = .rax then value else before.saved vector field) :
    machine.resume frame =
      { before.set .rax value with memory := machine.memory } := by
  have segment : ∀ selector : BitVec 16, (selector.setWidth 64).setWidth 16 = selector := by
    intro selector
    rw [BitVec.setWidth_setWidth_of_le _ (by omega), BitVec.setWidth_eq]
  have registers : (fun target : Register => contextField machine.memory frame target.field) =
      update before.register .rax value := by
    funext target
    rw [intact]
    cases target <;> rfl
  rw [resume, registers, intact, intact, intact, intact, if_neg (by decide), if_neg (by decide),
    if_neg (by decide), if_neg (by decide), saved, saved, saved, saved, segment, segment]
  rfl

section Syscall

variable {handlers : Word → Option SyscallFunction} {handler : SyscallFunction}
  {machine : Machine} {rsp0 value : Word} {memory : RawMemory}

theorem run_syscall (installed : handlers (machine.register .rdi) = some handler)
    (returned : handler (machine.savedFrame rsp0 0x80#64).2 (machine.register .rsi)
      (machine.register .rdx) (machine.register .rcx) (machine.register .r8)
      (machine.savedFrame rsp0 0x80#64).1 = some (value, memory))
    (clobbered : Register → Word) :
    run (fun _ => callFunction (syscallHandler handlers) clobbered) isr128
      (machine.interrupt rsp0) =
        some (resume { machine with
          memory := setContextField memory (machine.savedFrame rsp0 0x80#64).2 .rax value }
            (machine.savedFrame rsp0 0x80#64).2) := by
  have fields := machine.contextField_savedFrame rsp0 0x80#64
  generalize frameEq : machine.savedFrame rsp0 0x80#64 = frame at returned fields ⊢
  have handled : syscallHandler handlers frame.2 frame.1 =
      some (frame.2, setContextField memory frame.2 .rax value) := by
    simp only [syscallHandler, fields, saved, installed, returned, Option.bind_eq_bind,
      Option.bind_some]
  have called : callFunction (syscallHandler handlers) clobbered
      (machine.called rsp0 0x80#64) = some { machine.called rsp0 0x80#64 with
        register := update clobbered .rax frame.2
        memory := setContextField memory frame.2 .rax value } := by
    rw [callFunction, Machine.called, frameEq]
    dsimp only
    rw [update_self, handled, Option.map_some]
  rw [isr128, syscallStub, run_interrupt, called, Option.map_some]
  dsimp only
  rw [update_self]
  rfl

end Syscall

end Machine

/-- A program that copies the byte at `0x20000` to `dest` by a system call. -/
def copyCall (dest : Word) : Machine :=
  { register
      | .rsi => dest
      | .rdx => 0x20000#64
      | .rcx => 1#64
      | .rsp => 0x10000#64
      | _ => 0#64
    rip := 0x1000#64
    rflags := 0x202#64
    cs := 0x28#16
    ss := 0x30#16
    memory := fun _ => 0x41#8 }

def copyHandlers (number : Word) : Option SyscallFunction :=
  if number = 0#64 then some syscallMemcpy else none

/-- The orders of the pushes, of the fields and of the pops agree: a handler gets
a context with every register in the field of its name, and all registers are
loaded from the context that it returns.  So a system call whose handler leaves
the frame alone changes no register but `rax`, and a process that was created
and has never run starts in the wrapper, with its function and argument, on its
own stack. -/
theorem interrupt_frame_agrees :
    (∀ line, Machine.SavesAndRestores (irq line) .irqHandler (BitVec.ofNat 64 (32 + line))) ∧
    Machine.SavesAndRestores isr128 .syscallHandler 0x80#64 ∧
    (∀ (handlers : Word → Option SyscallFunction) (handler : SyscallFunction)
      (machine : Machine) (rsp0 value : Word) (memory : RawMemory) (clobbered : Register → Word),
      handlers (machine.register .rdi) = some handler →
      handler (machine.savedFrame rsp0 0x80#64).2 (machine.register .rsi)
        (machine.register .rdx) (machine.register .rcx) (machine.register .r8)
        (machine.savedFrame rsp0 0x80#64).1 = some (value, memory) →
      (∀ field, contextField memory (machine.savedFrame rsp0 0x80#64).2 field =
        contextField (machine.savedFrame rsp0 0x80#64).1 (machine.savedFrame rsp0 0x80#64).2
          field) →
      Machine.run (fun _ => callFunction (syscallHandler handlers) clobbered) isr128
        (machine.interrupt rsp0) =
          some { machine.set .rax value with
            memory := setContextField memory (machine.savedFrame rsp0 0x80#64).2 .rax value }) ∧
    ∀ (callee : Handler → Machine → Option Machine) (line : Nat) (machine after : Machine)
      (rsp0 kstack wrapper function arg : Word) (memory : RawMemory),
      callee .irqHandler (machine.called rsp0 (BitVec.ofNat 64 (32 + line))) = some after →
      (∀ field, contextField after.memory (after.register .rax) field =
        contextField (createContext memory (after.register .rax) kstack wrapper function arg)
          (after.register .rax) field) →
      ∃ final, Machine.run callee (irq line) (machine.interrupt rsp0) = some final ∧
        final.rip = wrapper ∧ final.register .rdi = function ∧ final.register .rsi = arg ∧
        final.register .rsp = kstack := by
  refine ⟨?_, ?_, ?_, ?_⟩
  · intro line
    rw [irq, irqStub]
    exact Machine.savesAndRestores .irqHandler _
  · rw [isr128, syscallStub]
    exact Machine.savesAndRestores .syscallHandler 0x80#64
  · intro handlers handler machine rsp0 value memory clobbered installed returned intact
    rw [Machine.run_syscall installed returned]
    congr 1
    apply @Machine.resume_eq _ machine _ 0x80#64
    intro field
    rw [contextField_setContextField, intact, Machine.contextField_savedFrame]
  · intro callee line machine after rsp0 kstack wrapper function arg memory returned untouched
    refine ⟨after.resume (after.register .rax), ?_, ?_⟩
    · rw [irq, irqStub, Machine.run_interrupt, returned, Option.map_some]
    · -- the new process starts in the function that it was created with
      simp [Machine.resume, Register.field, untouched, createContext]

theorem interrupt_frame_agrees_copy :
    ∃ final, Machine.run (fun _ => callFunction (syscallHandler copyHandlers) fun _ => 0#64) isr128
        ((copyCall 0x30000#64).interrupt 0#64) = some final ∧
      final.register .rbx = (copyCall 0x30000#64).register .rbx := by
  have intact : ∀ field, contextField (memcpyLoop 0x30000#64 0x20000#64 1 0#64
      ((copyCall 0x30000#64).savedFrame 0#64 0x80#64).1)
        ((copyCall 0x30000#64).savedFrame 0#64 0x80#64).2 field =
      contextField ((copyCall 0x30000#64).savedFrame 0#64 0x80#64).1
        ((copyCall 0x30000#64).savedFrame 0#64 0x80#64).2 field := by
    intro field
    apply loadWord_update_of_outside
    cases field <;> decide
  exact ⟨_, interrupt_frame_agrees.2.2.1 copyHandlers syscallMemcpy (copyCall 0x30000#64) 0#64
    1#64 _ (fun _ => 0#64) rfl rfl intact, rfl⟩

/-- A system call can overwrite the frame on the stack: if `_syscall_memcpy`
copies to the saved `rbx`, the program continues with another value in it. -/
theorem syscall_overwrites_rbx :
    ∃ final, Machine.run (fun _ => callFunction (syscallHandler copyHandlers) fun _ => 0#64) isr128
        ((copyCall 0xffb8#64).interrupt 0#64) = some final ∧
      final.register .rbx = 0x41#64 ∧ (copyCall 0xffb8#64).register .rbx = 0#64 := by
  have returned : syscallMemcpy ((copyCall 0xffb8#64).savedFrame 0#64 0x80#64).2 0xffb8#64
      0x20000#64 1#64 0#64 ((copyCall 0xffb8#64).savedFrame 0#64 0x80#64).1 =
        some (1#64, memcpyLoop 0xffb8#64 0x20000#64 1 0#64
          ((copyCall 0xffb8#64).savedFrame 0#64 0x80#64).1) := rfl
  have continued := @Machine.run_syscall copyHandlers syscallMemcpy (copyCall 0xffb8#64) 0#64 1#64
    _ rfl returned fun _ => 0#64
  refine ⟨_, continued, ?_, rfl⟩
  rw [Machine.resume]
  dsimp only
  rw [contextField_setContextField, if_neg (by decide)]
  decide +kernel

end MmdOS
