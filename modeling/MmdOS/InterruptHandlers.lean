import MmdOS.InterruptFrame
import Mathlib.Data.List.Induction

/-!
# Handlers of exceptions and devices

Two tables hold the handlers that the kernel has installed: one for the 32
exceptions of the processor and one for the 16 lines of the interrupt controller.
`irq_handler` takes the entry for its line.  `isr_handler` looks into the table of the
devices as well, at the number of the exception.
-/

namespace MmdOS

open WordStack

variable {behind : HandlerTables} {calls : List HandlerCall}

/-- The pointers in the two tables, and whatever memory holds behind them. -/
structure HandlerTables where
  irqHandlers : Nat → Word
  isrHandlers : Nat → Word

inductive HandlerTable
  | irq
  | isr
  deriving DecidableEq

def HandlerTable.size : HandlerTable → Nat
  | .irq => 16
  | .isr => 32

/-- What a call of a dispatcher does: the entry that it looks at, the handler that it
invokes, the frame that it returns, the message of its panic, and the ports to which
it sends the end of the interrupt. -/
structure Dispatch where
  table : HandlerTable
  index : Nat
  invoked : Option Word
  frame : Word
  memory : RawMemory
  message : Option String
  ports : List (BitVec 8)

def exceptionMessages : List String :=
  ["Division By Zero", "Debug", "Non Maskable Interrupt", "Breakpoint", "Into Detected Overflow",
    "Out of Bounds", "Invalid Opcode", "No Coprocessor", "Double Fault",
    "Coprocessor Segment Overrun", "Bad TSS", "Segment Not Present", "Stack Fault",
    "General Protection Fault", "Page Fault", "Unknown Interrupt", "Coprocessor Fault",
    "Alignment Check", "Machine Check", "SIMD floating-point exception",
    "Virtualization exception"] ++ List.replicate 11 "Reserved" ++ ["Timer"]

example : exceptionMessages.length = 33 := by decide

def picEoi (offset : BitVec 8) : List (BitVec 8) :=
  if 40 ≤ offset.toNat then [0xa0#8, 0x20#8] else [0x20#8]

def invokable (handler : Word) : Option Word :=
  if handler = 0#64 then none else some handler

section Dispatchers

-- what a handler does when it is called with a frame
variable (call : (handler frame : Word) → RawMemory → Word × RawMemory) (tables : HandlerTables)

/-- `isr_handler`; what the handler returns is not used. -/
def isrHandler (frame : Word) (memory : RawMemory) : Dispatch :=
  let index := (contextField memory frame .intNumber).toNat
  let handler := tables.irqHandlers index
  let after := if handler = 0#64 then memory else (call handler frame memory).2
  let number := (contextField after frame .intNumber).toNat
  { table := .irq
    index := index
    invoked := invokable handler
    frame := frame
    memory := after
    message := if number < 32 then exceptionMessages[number]? else none
    ports := [] }

/-- `irq_handler`; only the handler of the timer chooses the frame. -/
def irqHandler (frame : Word) (memory : RawMemory) : Dispatch :=
  let number := contextField memory frame .intNumber
  let index := (number - 32#64).toNat
  let handler := tables.irqHandlers index
  let returned := if handler = 0#64 then (frame, memory) else call handler frame memory
  let chosen := if number = 32#64 then returned.1 else frame
  { table := .irq
    index := index
    invoked := invokable handler
    frame := chosen
    memory := returned.2
    message := none
    ports := picEoi ((contextField returned.2 chosen .intNumber).setWidth 8) }

end Dispatchers

section Calls

def isrInstallHandler (offset : BitVec 8) (handler : Word) (tables : HandlerTables) : HandlerTables :=
  { tables with isrHandlers := Function.update tables.isrHandlers offset.toNat handler }

def irqInstallHandler (offset : BitVec 8) (handler : Word) (tables : HandlerTables) : HandlerTables :=
  { tables with irqHandlers := Function.update tables.irqHandlers offset.toNat handler }

def irqUninstallHandler (offset : BitVec 8) (tables : HandlerTables) : HandlerTables :=
  { tables with irqHandlers := Function.update tables.irqHandlers offset.toNat 0#64 }

inductive HandlerCall
  | isrInstall (offset : Fin 32) (handler : Word)
  | irqInstall (offset : Fin 16) (handler : Word)
  | irqUninstall (offset : Fin 16)

def HandlerCall.apply (tables : HandlerTables) : HandlerCall → HandlerTables
  | .isrInstall offset handler => isrInstallHandler (BitVec.ofNat 8 offset) handler tables
  | .irqInstall offset handler => irqInstallHandler (BitVec.ofNat 8 offset) handler tables
  | .irqUninstall offset => irqUninstallHandler (BitVec.ofNat 8 offset) tables

def emptyTables (behind : HandlerTables) : HandlerTables where
  irqHandlers := fun i => if i < 16 then 0#64 else behind.irqHandlers i
  isrHandlers := fun i => if i < 32 then 0#64 else behind.isrHandlers i

def tablesAfter (behind : HandlerTables) (calls : List HandlerCall) : HandlerTables :=
  calls.foldl HandlerCall.apply (emptyTables behind)

def HandlerCall.forException (n : Nat) : HandlerCall → Option Word
  | .isrInstall offset handler => if offset.val = n then some handler else none
  | .irqInstall _ _ => none
  | .irqUninstall _ => none

def HandlerCall.forLine (k : Nat) : HandlerCall → Option Word
  | .isrInstall _ _ => none
  | .irqInstall offset handler => if offset.val = k then some handler else none
  | .irqUninstall offset => if offset.val = k then some 0#64 else none

/-- What the last call that concerns an entry has put in place, or the null
pointer. -/
def lastInstalled (concerns : HandlerCall → Option Word) (calls : List HandlerCall) : Word :=
  (calls.reverse.findSome? concerns).getD 0#64

end Calls

/-- An exception invokes the handler that was installed for it last, from the table
of the exceptions, and looks at no entry outside the tables. -/
structure IsrCorrect (calls : List HandlerCall) (n : Nat) (dispatch : Dispatch) : Prop where
  inside : dispatch.index < dispatch.table.size
  last : dispatch.invoked = invokable (lastInstalled (HandlerCall.forException n) calls)
  own : dispatch.invoked ≠ none → dispatch.table = .isr

structure IrqCorrect (calls : List HandlerCall) (k : Nat) (dispatch : Dispatch) : Prop where
  inside : dispatch.index < dispatch.table.size
  last : dispatch.invoked = invokable (lastInstalled (HandlerCall.forLine k) calls)

section Histories

theorem lastInstalled_append (concerns : HandlerCall → Option Word) (call : HandlerCall) :
    lastInstalled concerns (calls ++ [call]) =
      (concerns call).getD (lastInstalled concerns calls) := by
  rw [lastInstalled, List.reverse_append, List.reverse_singleton, List.singleton_append,
    List.findSome?_cons]
  cases concerns call <;> rfl

theorem toNat_offset {size : Nat} (sizeLe : size ≤ 256) (offset : Fin size) :
    (BitVec.ofNat 8 offset.val).toNat = offset.val :=
  Nat.mod_eq_of_lt (by omega)

theorem irqHandlers_apply (call : HandlerCall) (tables : HandlerTables) (k : Nat) :
    (call.apply tables).irqHandlers k = (call.forLine k).getD (tables.irqHandlers k) := by
  have update : ∀ (offset : Fin 16) (handler : Word),
      Function.update tables.irqHandlers (BitVec.ofNat 8 offset.val).toNat handler k =
        (if offset.val = k then some handler else none).getD (tables.irqHandlers k) := by
    intro offset handler
    rw [toNat_offset (by decide), Function.update_apply]
    by_cases same : offset.val = k
    · rw [if_pos same.symm, if_pos same, Option.getD_some]
    · rw [if_neg (Ne.symm same), if_neg same, Option.getD_none]
  cases call with
  | isrInstall offset handler => rfl
  | irqInstall offset handler => exact update offset handler
  | irqUninstall offset => exact update offset 0#64

theorem irqHandlers_tablesAfter {k : Nat} (kLt : k < 16) :
    (tablesAfter behind calls).irqHandlers k = lastInstalled (HandlerCall.forLine k) calls := by
  induction calls using List.reverseRecOn with
  | nil => exact if_pos kLt
  | append_singleton calls call ih =>
      rw [lastInstalled_append, ← ih, tablesAfter, List.foldl_append]
      exact irqHandlers_apply call _ k

theorem invokable_eq_none {handler : Word} : invokable handler = none ↔ handler = 0#64 := by
  unfold invokable
  split <;> simp_all

end Histories

section Separation

variable {call : (handler frame : Word) → RawMemory → Word × RawMemory} {frame : Word}
variable {memory : RawMemory}

theorem irqHandler_correct {k : Fin 16}
    (isLine : contextField memory frame .intNumber = BitVec.ofNat 64 (32 + k)) :
    IrqCorrect calls k (irqHandler call (tablesAfter behind calls) frame memory) := by
  have index : (contextField memory frame .intNumber - 32#64).toNat = k := by
    have := k.isLt
    rw [isLine, BitVec.toNat_sub, BitVec.toNat_ofNat, BitVec.toNat_ofNat]
    omega
  constructor
  · change (contextField memory frame .intNumber - 32#64).toNat < 16
    rw [index]
    exact k.isLt
  · simp only [irqHandler, index]
    rw [irqHandlers_tablesAfter k.isLt]

/-- `isr_handler` is right only where there is nothing to invoke. -/
theorem isrHandler_correct_iff {n : Fin 32}
    (isException : contextField memory frame .intNumber = BitVec.ofNat 64 n) :
    IsrCorrect calls n (isrHandler call (tablesAfter behind calls) frame memory) ↔
      n.val < 16 ∧ lastInstalled (HandlerCall.forLine n) calls = 0#64 ∧
        lastInstalled (HandlerCall.forException n) calls = 0#64 := by
  have index : (contextField memory frame .intNumber).toNat = n := by
    rw [isException]
    have := n.isLt
    exact Nat.mod_eq_of_lt (by omega)
  constructor
  · intro correct
    have inside : n.val < 16 := by
      have inside := correct.inside
      change (contextField memory frame .intNumber).toNat < 16 at inside
      rwa [index] at inside
    -- the entry belongs to the table of the devices, so nothing may be invoked
    have nothing : (isrHandler call (tablesAfter behind calls) frame memory).invoked = none := by
      by_contra invoked
      cases correct.own invoked
    refine ⟨inside, ?_, ?_⟩
    · rw [← irqHandlers_tablesAfter inside, ← invokable_eq_none]
      simpa only [isrHandler, index] using nothing
    · rw [← invokable_eq_none, ← correct.last]
      exact nothing
  · rintro ⟨inside, noDevice, noException⟩
    have nothing : (isrHandler call (tablesAfter behind calls) frame memory).invoked = none := by
      simp only [isrHandler, index]
      rw [irqHandlers_tablesAfter inside, invokable_eq_none]
      exact noDevice
    constructor
    · change (contextField memory frame .intNumber).toNat < 16
      rwa [index]
    · rw [nothing, noException]
      rfl
    · intro invoked
      exact absurd nothing invoked

/-- Lines get their handlers in every case; exceptions are kept apart from them only
if nothing is in place for the exception and for the line of the same number. -/
theorem handlers_separate_iff {n : Fin 32} {k : Fin 16} {irqFrame : Word} {irqMemory : RawMemory}
    (isException : contextField memory frame .intNumber = BitVec.ofNat 64 n)
    (isLine : contextField irqMemory irqFrame .intNumber = BitVec.ofNat 64 (32 + k)) :
    IsrCorrect calls n (isrHandler call (tablesAfter behind calls) frame memory) ∧
        IrqCorrect calls k (irqHandler call (tablesAfter behind calls) irqFrame irqMemory) ↔
      n.val < 16 ∧ lastInstalled (HandlerCall.forLine n) calls = 0#64 ∧
        lastInstalled (HandlerCall.forException n) calls = 0#64 := by
  rw [and_iff_left (irqHandler_correct isLine)]
  exact isrHandler_correct_iff isException

def interruptMemory (number : Word) : RawMemory :=
  setContextField (fun _ => 0#8) 0x1000#64 .intNumber number

theorem interruptMemory_number (number : Word) :
    contextField (interruptMemory number) 0x1000#64 .intNumber = number := by
  rw [interruptMemory, contextField_setContextField, if_pos rfl]

def keyboardTables : HandlerTables :=
  tablesAfter ⟨fun _ => 0#64, fun _ => 0#64⟩ [.irqInstall 1 0x5000#64]

def keyboardException (number : Word) : Dispatch :=
  isrHandler (fun _ frame memory => (frame, memory)) keyboardTables 0x1000#64
    (interruptMemory number)

theorem handlers_separate_keyboard :
    IsrCorrect [.irqInstall 1 0x5000#64] 0 (keyboardException 0#64) ∧
      IrqCorrect [.irqInstall 1 0x5000#64] 1
        (irqHandler (fun _ frame memory => (frame, memory)) keyboardTables 0x1000#64
          (interruptMemory 33#64)) := by
  refine (@handlers_separate_iff _ _ _ _ _ 0 1 _ _ ?_ ?_).mpr (by decide)
  · exact interruptMemory_number 0#64
  · exact interruptMemory_number 33#64

/-- The handler of the keyboard is invoked for the exception 1, and the exception 20
takes an entry behind the table. -/
theorem exception_invokes_keyboard :
    (keyboardException 1#64).invoked = some 0x5000#64 ∧ (keyboardException 20#64).index = 20 ∧
      ¬IsrCorrect [.irqInstall 1 0x5000#64] 1 (keyboardException 1#64) ∧
      ¬IsrCorrect [.irqInstall 1 0x5000#64] 20 (keyboardException 20#64) := by
  have keyboard : (keyboardException 1#64).invoked = some 0x5000#64 := by
    simp only [keyboardException, isrHandler, interruptMemory_number]
    decide
  have behind : (keyboardException 20#64).index = 20 := by
    simp only [keyboardException, isrHandler, interruptMemory_number]
    decide
  refine ⟨keyboard, behind, fun correct => ?_, fun correct => ?_⟩
  · cases keyboard.symm.trans correct.last
  · have inside := correct.inside
    rw [behind] at inside
    exact absurd inside (by decide)

/-- The stub of a line calls `irq_handler` with a frame for which it invokes the
handler of this line. -/
theorem irq_invokes_line (machine : Machine) (rsp0 : Word) (k : Fin 16) :
    (irqHandler call (tablesAfter behind calls)
        ((machine.called rsp0 (BitVec.ofNat 64 (32 + k))).register .rdi)
        (machine.called rsp0 (BitVec.ofNat 64 (32 + k))).memory).invoked =
      invokable (lastInstalled (HandlerCall.forLine k) calls) := by
  have isLine := machine.contextField_savedFrame rsp0 (BitVec.ofNat 64 (32 + k)) .intNumber
  exact (irqHandler_correct isLine).last

end Separation

end MmdOS
