import MmdOS.InterruptHandlers

/-!
# Frames of exceptions

For some exceptions the processor pushes an error code behind its frame.  The entry
points made by the macro `isr` push a zero in its place, those made by `isr_err` do not.
Whether the two agree decides which words `isr_handler` finds in the fields of the
context.
-/

namespace MmdOS

open WordStack

inductive Stub
  | isr (number : Nat)
  | isrErr (number : Nat)
  | irq (line : Nat)
  | isr128
  deriving DecidableEq

def Stub.pushed : Stub → List Word
  | .isr number => [0#64, BitVec.ofNat 64 number]
  | .isrErr number => [BitVec.ofNat 64 number]
  | .irq line => [0#64, BitVec.ofNat 64 (32 + line)]
  | .isr128 => [0#64, 0x80#64]

def Stub.entry (stub : Stub) : List Instruction :=
  .cli :: stub.pushed.map Instruction.pushImmediate

example (line : Nat) : (Stub.irq line).entry ++ irqStub = irq line := rfl

example : Stub.isr128.entry ++ syscallStub = isr128 := rfl

/-- The calls of `set_interrupt_descriptor` in `idt_init`. -/
def idtEntries : List (Nat × Stub) :=
  (List.range 8).map (fun n => (n, .isr n)) ++ [(8, .isrErr 8), (9, .isr 9)] ++
    (List.range' 10 5).map (fun n => (n, .isrErr n)) ++
    (List.range' 15 17).map (fun n => (n, .isr n)) ++
    (List.range 16).map (fun line => (32 + line, .irq line)) ++ [(128, .isr128)]

def idtStub (vector : Nat) : Option Stub :=
  (idtEntries.reverse.find? fun entry => entry.1 == vector).map Prod.snd

/-- The exceptions for which the processor pushes an error code. -/
def errorCodeVectors : List Nat := [8, 10, 11, 12, 13, 14, 17, 21, 29, 30]

/-- The exceptions with an error code of the processor and a zero of the entry point. -/
def doubleCodeVectors : List Nat := [17, 21, 29, 30]

namespace Machine

def raise (machine : Machine) (rsp0 : Word) (code : Option Word) : Machine :=
  (machine.interrupt rsp0).pushWords code.toList

/-- The memory and the top of the stack at the call, with some words between the frame
of the processor and the registers. -/
def framed (machine : Machine) (rsp0 : Word) (words : List Word) : RawMemory × Word :=
  pushAll (machine.iretFrame ++ words ++ pushOrder.map machine.register) machine.memory
    (machine.interruptStack rsp0)

def raised (machine : Machine) (vector code : Word) : ContextField → Word
  | .errorCode => code
  | field => machine.saved vector field

/-- The context that the handler sees if there are two words for the error code: the
fields behind the number are those of their neighbours. -/
def shifted (machine : Machine) (vector code : Word) : ContextField → Word
  | .errorCode => 0#64
  | .iretRip => code
  | .iretCs => machine.rip
  | .iretFlags => machine.cs.setWidth 64
  | .iretRsp => machine.rflags
  | .iretSs => machine.register .rsp
  | field => machine.saved vector field

variable {callee : Handler → Machine → Option Machine}

theorem run_pushImmediate (words : List Word) (machine : Machine) :
    run callee (words.map Instruction.pushImmediate) machine = some (machine.pushWords words) := by
  induction words generalizing machine with
  | nil => exact congrArg some machine.pushWords_nil.symm
  | cons word rest ih => rw [List.map_cons, run, step, Option.bind_some, ih, pushWords_cons]

theorem run_entry (machine : Machine) (rsp0 : Word) (code : Option Word) (stub : Stub) :
    ∃ called, run callee (stub.entry ++ saveContext) (machine.raise rsp0 code) = some called ∧
      called.memory = (machine.framed rsp0 (code.toList ++ stub.pushed)).1 ∧
      called.register .rdi = (machine.framed rsp0 (code.toList ++ stub.pushed)).2 := by
  let entry : Machine :=
    { machine.set .rsp (machine.interruptStack rsp0) with
      rflags := machine.rflags &&& ~~~0x34300#64 &&& ~~~0x200#64
      cs := 0x28#16
      ss := if machine.cs.setWidth 2 = 0#2 then machine.ss else 0#16 }
  have disabled : (machine.raise rsp0 code).step callee .cli =
      some (entry.pushWords (machine.iretFrame ++ code.toList)) := by
    rw [pushWords_append]
    simp only [step, raise, interrupt, entry, pushWords, set, Function.update_self,
      Function.update_idem]
  have pushed : run callee stub.entry (machine.raise rsp0 code) =
      some (entry.pushWords (machine.iretFrame ++ (code.toList ++ stub.pushed))) := by
    rw [Stub.entry, run, disabled, Option.bind_some, run_pushImmediate, ← pushWords_append,
      List.append_assoc]
  have registers : pushOrder.map
      (entry.pushWords (machine.iretFrame ++ (code.toList ++ stub.pushed))).register =
        pushOrder.map machine.register := rfl
  rw [saveContext, run_append, pushed, Option.bind_some, run_append, run_push (by decide),
    Option.bind_some, registers, ← pushWords_append, run, step, Option.bind_some, run]
  refine ⟨_, rfl, ?_⟩
  simp only [pushWords, framed, entry, set, Function.update_self, true_and]

theorem contextField_framed (machine : Machine) (rsp0 : Word) {words : List Word}
    (few : words.length ≤ 3) {field : ContextField} {word : Word}
    (found : (machine.iretFrame ++ words ++ pushOrder.map machine.register).reverse[field.index]? =
      some word) :
    contextField (machine.framed rsp0 words).1 (machine.framed rsp0 words).2 field = word := by
  have stacked := (Stacked.nil machine.memory (machine.interruptStack rsp0)).pushAll
    (machine.iretFrame ++ words ++ pushOrder.map machine.register)
    (by simp [iretFrame, pushOrder]; omega)
  rw [List.append_nil] at stacked
  exact stacked _ _ found

end Machine

section Exceptions

variable {n : Nat}

theorem idtStub_exception : ∀ n < 32, idtStub n =
    some (if n = 8 ∨ 10 ≤ n ∧ n ≤ 14 then .isrErr n else .isr n) := by
  decide

theorem exception_words (isException : n < 32) {code : Option Word}
    (pushes : code.isSome = true ↔ n ∈ errorCodeVectors) :
    ∃ stub, idtStub n = some stub ∧ code.toList ++ stub.pushed =
      if n ∈ doubleCodeVectors then [code.getD 0#64, 0#64, BitVec.ofNat 64 n]
      else [code.getD 0#64, BitVec.ofNat 64 n] := by
  refine ⟨_, idtStub_exception n isException, ?_⟩
  simp only [errorCodeVectors, doubleCodeVectors, List.mem_cons, List.not_mem_nil, or_false]
    at pushes ⊢
  cases code with
  | none =>
      have noCode := mt pushes.mpr (by decide)
      rw [if_neg (by omega), if_neg (by omega)]
      rfl
  | some code =>
      have hasCode := pushes.mp rfl
      by_cases double : n = 17 ∨ n = 21 ∨ n = 29 ∨ n = 30
      · rw [if_neg (by omega), if_pos double]
        rfl
      · rw [if_pos (by omega), if_neg double]
        rfl

/-- `isr_handler` names the exception in its panic, whichever handler it invokes before,
if that handler leaves the number alone. -/
theorem isrHandler_message (isException : n < 32)
    (call : (handler frame : Word) → RawMemory → Word × RawMemory) (tables : HandlerTables)
    {frame : Word} {memory : RawMemory}
    (number : contextField memory frame .intNumber = BitVec.ofNat 64 n)
    (kept : ∀ handler, contextField (call handler frame memory).2 frame .intNumber =
      BitVec.ofNat 64 n) :
    (isrHandler call tables frame memory).message = exceptionMessages[n]? := by
  have after : contextField (if tables.irqHandlers (contextField memory frame .intNumber).toNat =
      0#64 then memory else
        (call (tables.irqHandlers (contextField memory frame .intNumber).toNat) frame memory).2)
      frame .intNumber = BitVec.ofNat 64 n := by
    split
    · exact number
    · exact kept _
  have toNat : (BitVec.ofNat 64 n).toNat = n := Nat.mod_eq_of_lt (by omega)
  simp only [isrHandler, after, toNat]
  rw [if_pos isException]

/-- Every exception reaches `isr_handler` with its own number and ends in the panic with
its message.  The other fields of the context are right for all exceptions but four: for
those both the processor and the entry point push an error code. -/
theorem exceptions_reported (isException : n < 32) {code : Option Word}
    (pushes : code.isSome = true ↔ n ∈ errorCodeVectors) (machine : Machine) (rsp0 : Word)
    (callee : Handler → Machine → Option Machine) :
    ∃ stub called text, idtStub n = some stub ∧
      Machine.run callee (stub.entry ++ saveContext) (machine.raise rsp0 code) = some called ∧
      (∀ field, contextField called.memory (called.register .rdi) field =
        if n ∈ doubleCodeVectors then machine.shifted (BitVec.ofNat 64 n) (code.getD 0#64) field
        else machine.raised (BitVec.ofNat 64 n) (code.getD 0#64) field) ∧
      exceptionMessages[n]? = some text ∧
      ∀ call tables, (∀ handler, contextField (call handler (called.register .rdi)
          called.memory).2 (called.register .rdi) .intNumber = BitVec.ofNat 64 n) →
        (isrHandler call tables (called.register .rdi) called.memory).message = some text := by
  obtain ⟨stub, stubEq, words⟩ := exception_words isException pushes
  obtain ⟨called, ran, memoryEq, frameEq⟩ := @Machine.run_entry callee machine rsp0 code stub
  obtain ⟨text, textEq⟩ : ∃ text, exceptionMessages[n]? = some text :=
    ⟨_, List.getElem?_eq_getElem (Nat.lt_trans isException (by decide))⟩
  have fields : ∀ field, contextField called.memory (called.register .rdi) field =
        if n ∈ doubleCodeVectors then machine.shifted (BitVec.ofNat 64 n) (code.getD 0#64) field
        else machine.raised (BitVec.ofNat 64 n) (code.getD 0#64) field := by
    intro field
    rw [memoryEq, frameEq, words]
    split
    · exact machine.contextField_framed rsp0 (by simp) (by cases field <;> rfl)
    · exact machine.contextField_framed rsp0 (by simp) (by cases field <;> rfl)
  refine ⟨stub, called, text, stubEq, ran, fields, textEq, ?_⟩
  intro call tables kept
  rw [← textEq]
  refine isrHandler_message isException call tables ?_ kept
  rw [fields]
  split <;> rfl

theorem exceptions_reported_alignment :
    ∃ stub called, idtStub 17 = some stub ∧
      Machine.run (fun _ _ => none) (stub.entry ++ saveContext) (Machine.raise
        ⟨fun _ => 0x7000#64, 0x6000#64, 0x202#64, 0x3b#16, 0x43#16, fun _ => 0#8⟩ 0x9000#64
          (some 5#64)) = some called ∧
      contextField called.memory (called.register .rdi) .errorCode = 0#64 ∧
      contextField called.memory (called.register .rdi) .iretRip = 5#64 ∧
      contextField called.memory (called.register .rdi) .iretCs = 0x6000#64 := by
  obtain ⟨stub, called, text, stubEq, ran, fields, -⟩ :=
    @exceptions_reported 17 (by decide) (some 5#64) (by decide)
      ⟨fun _ => 0x7000#64, 0x6000#64, 0x202#64, 0x3b#16, 0x43#16, fun _ => 0#8⟩ 0x9000#64
      fun _ _ => none
  exact ⟨stub, called, stubEq, ran, fields .errorCode, fields .iretRip, fields .iretCs⟩

end Exceptions

end MmdOS
