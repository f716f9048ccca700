import MmdOS.MachineWord
import MmdOS.Transitions

/-!
# The lock of the keyboard buffer

`keyboard_getch` and `keyboard_handler` share one spinlock.  The handler runs
with interrupts disabled, so when it finds the lock taken it waits for ever.
`snake` and `gol` call `keyboard_getch` as a plain function, with interrupts
enabled; the system call makes the same call with interrupts disabled.
-/

namespace MmdOS

open Function (update update_eq_self)

section Keys

/-- The enumeration `Special_Keys`, counted down from `0xffffffff`. -/
def specialKey (index : Nat) : Word :=
  BitVec.ofNat 64 (0xffffffff - index)

def plainKeys (text : String) : List Word :=
  text.toList.map fun key => BitVec.ofNat 64 key.toNat

def commonKeys : List Word :=
  [specialKey 5, 0x20#64, specialKey 29, specialKey 6, specialKey 7, specialKey 8, specialKey 9,
    specialKey 10, specialKey 11, specialKey 12, specialKey 13, specialKey 14, specialKey 15,
    specialKey 32, specialKey 18, specialKey 19, specialKey 20, specialKey 24, 0x2d#64,
    specialKey 21, specialKey 0, specialKey 22, 0x2b#64, specialKey 26, specialKey 23,
    specialKey 25, specialKey 27, specialKey 28, specialKey 0, specialKey 0, specialKey 0,
    specialKey 16, specialKey 17] ++ List.replicate 39 (specialKey 0)

def lowerCase : List Word :=
  [specialKey 0, specialKey 1] ++ plainKeys "1234567890-=\x08\tqwertyuiop[]\n" ++
    [specialKey 2] ++ plainKeys "asdfghjkl;'\x60" ++ [specialKey 3] ++
    plainKeys "\\zxcvbnm,./" ++ [specialKey 4] ++ plainKeys "*" ++ commonKeys

def upperCase : List Word :=
  [specialKey 0, specialKey 1] ++ plainKeys "!@#$%^&*()_+\x08\tQWERTYUIOP\x7b\x7d\n" ++
    [specialKey 2] ++ plainKeys "ASDFGHJKL:\"~" ++ [specialKey 3] ++
    plainKeys "|ZXCVBNM<>?" ++ [specialKey 4] ++ plainKeys "*" ++ commonKeys

example : lowerCase.length = 128 ∧ upperCase.length = 128 := by
  simp [lowerCase, upperCase, plainKeys, commonKeys]

end Keys

structure KeyboardVariables where
  keyboardLock : Bool
  keyboardBuffer : BitVec 8
  keyboardHasChar : Bool
  shift : Bool
  capsLock : Bool

inductive KeyAction
  | ignore
  | shift (pressed : Bool)
  | capsLock (pressed : Bool)
  | store (scancode : BitVec 8)

/-- What `keyboard_handler` does with the byte it reads from the port. -/
def keyAction (byte : BitVec 8) : KeyAction :=
  let scancode := byte &&& 0x7f#8
  let pressed := byte &&& 0x80#8 == 0#8
  if scancode ∈ [1#8, 29#8, 56#8, 59#8, 60#8, 61#8, 62#8, 63#8, 64#8, 65#8, 66#8, 67#8, 68#8,
    87#8, 88#8] then .ignore
  else if scancode = 42#8 then .shift pressed
  else if scancode = 58#8 then .capsLock pressed
  else if pressed then .store scancode
  else .ignore

/-- The character for a key; only its low byte is stored. -/
def keyChar (globals : KeyboardVariables) (scancode : BitVec 8) : BitVec 8 :=
  let table :=
    if globals.shift && globals.capsLock then lowerCase
    else if globals.shift || globals.capsLock then upperCase
    else lowerCase
  (table.getD scancode.toNat 0#64).setWidth 8

inductive GetchPc
  | outside
  | check
  | acquire
  | load
  | clearBuffer (res : BitVec 8)
  | clearHasChar (res : BitVec 8)
  | release (res : BitVec 8)

inductive HandlerPc
  | dispatch (byte : BitVec 8)
  | acquire (scancode : BitVec 8)
  | store (scancode : BitVec 8)
  | setHasChar
  | release

/-- One processor: the process that runs, whether it can be interrupted, and
the handler when it is active. -/
structure KeyboardState where
  globals : KeyboardVariables
  pc : Word → GetchPc
  current : Word
  interrupts : Bool
  handler : Option HandlerPc

inductive KeyboardEvent
  /-- The running process calls `keyboard_getch`. -/
  | call
  /-- The running process makes the system call. -/
  | gate
  /-- The running process makes its next step. -/
  | step
  /-- The timer interrupt switches to another process. -/
  | preempt (pid : Word)
  /-- The keyboard interrupt. -/
  | irq (byte : BitVec 8)
  /-- The handler makes its next step. -/
  | handle

namespace KeyboardState

def start : KeyboardState :=
  ⟨⟨false, 0#8, false, false, false⟩, fun _ => .outside, 1#64, true, none⟩

def goto (state : KeyboardState) (pc : GetchPc) : KeyboardState :=
  { state with pc := update state.pc state.current pc }

def setGlobals (state : KeyboardState) (globals : KeyboardVariables) : KeyboardState :=
  { state with globals }

def setHandler (state : KeyboardState) (handler : Option HandlerPc) : KeyboardState :=
  { state with handler }

def setInterrupts (state : KeyboardState) (interrupts : Bool) : KeyboardState :=
  { state with interrupts }

def advance (state : KeyboardState) : Option KeyboardState :=
  match state.pc state.current with
  | .outside => none
  | .check =>
      if state.globals.keyboardHasChar then some (state.goto .acquire)
      else some ((state.goto .outside).setInterrupts true)
  | .acquire =>
      if state.globals.keyboardLock then some state
      else some ((state.setGlobals { state.globals with keyboardLock := true }).goto .load)
  | .load => some (state.goto (.clearBuffer state.globals.keyboardBuffer))
  | .clearBuffer res =>
      some ((state.setGlobals { state.globals with keyboardBuffer := 0#8 }).goto
        (.clearHasChar res))
  | .clearHasChar res =>
      some ((state.setGlobals { state.globals with keyboardHasChar := false }).goto (.release res))
  | .release _ =>
      some (((state.setGlobals { state.globals with keyboardLock := false }).goto
        .outside).setInterrupts true)

def handle (state : KeyboardState) : HandlerPc → KeyboardState
  | .dispatch byte =>
      match keyAction byte with
      | .ignore => state.setHandler none
      | .shift pressed => (state.setGlobals { state.globals with shift := pressed }).setHandler none
      | .capsLock pressed =>
          let capsLock := if pressed then !state.globals.capsLock else state.globals.capsLock
          (state.setGlobals { state.globals with capsLock }).setHandler none
      | .store scancode => state.setHandler (some (.acquire scancode))
  | .acquire scancode =>
      if state.globals.keyboardLock then state
      else (state.setGlobals { state.globals with keyboardLock := true }).setHandler
        (some (.store scancode))
  | .store scancode =>
      (state.setGlobals { state.globals with
        keyboardBuffer := keyChar state.globals scancode }).setHandler (some .setHasChar)
  | .setHasChar =>
      (state.setGlobals { state.globals with keyboardHasChar := true }).setHandler (some .release)
  | .release =>
      (state.setGlobals { state.globals with keyboardLock := false }).setHandler none

def step : KeyboardEvent → KeyboardState → Option KeyboardState
  | .handle, state => state.handler.map state.handle
  | .irq byte, state =>
      if state.handler.isNone ∧ state.interrupts = true then
        some (state.setHandler (some (.dispatch byte)))
      else none
  | .preempt pid, state =>
      if state.handler.isNone ∧ state.interrupts = true then some { state with current := pid }
      else none
  | .call, state =>
      match state.handler, state.pc state.current with
      | none, .outside => some (state.goto .acquire)
      | _, _ => none
  | .gate, state =>
      match state.handler, state.pc state.current with
      | none, .outside => some ((state.goto .check).setInterrupts false)
      | _, _ => none
  | .step, state =>
      match state.handler with
      | none => state.advance
      | some _ => none

end KeyboardState

namespace GetchPc

def locked : GetchPc → Bool
  | load | clearBuffer _ | clearHasChar _ | release _ => true
  | _ => false

end GetchPc

namespace HandlerPc

def locked : HandlerPc → Bool
  | store _ | setHasChar | release => true
  | _ => false

end HandlerPc

namespace KeyboardState

/-- The handler waits for a lock that a process holds, which does not run before
the handler returns. -/
def Deadlocked (state : KeyboardState) : Prop :=
  ∃ scancode pid, state.handler = some (.acquire scancode) ∧
    state.globals.keyboardLock = true ∧ (state.pc pid).locked

/-- The key that arrives does not make the handler take the lock, or the lock is
free. -/
def Allowed : KeyboardEvent → KeyboardState → Prop
  | .irq byte, state =>
      match keyAction byte with
      | .store _ => state.globals.keyboardLock = false
      | _ => True
  | _, _ => True

/-- A handler that is going to take the lock will find it free. -/
def HandlerPc.Finds (lock : Bool) : HandlerPc → Prop
  | .dispatch byte => ∀ scancode, keyAction byte = .store scancode → lock = false
  | .acquire _ => lock = false
  | _ => True

def Inv (state : KeyboardState) : Prop :=
  ∀ pc, state.handler = some pc → HandlerPc.Finds state.globals.keyboardLock pc

theorem start_inv : start.Inv := by
  intro pc active
  cases active

variable {state : KeyboardState} {pc : HandlerPc}

theorem Inv.of_idle (idle : state.handler = none) : state.Inv := by
  intro pc active
  rw [idle] at active
  cases active

theorem advance_handler {next : KeyboardState} (stepEq : state.advance = some next) :
    next.handler = state.handler := by
  unfold advance at stepEq
  cases here : state.pc state.current with
  | outside => simp [here] at stepEq
  | check =>
      simp only [here] at stepEq
      split at stepEq <;> simp [← Option.some.inj stepEq, goto, setInterrupts]
  | acquire =>
      simp only [here] at stepEq
      split at stepEq <;> simp [← Option.some.inj stepEq, goto, setGlobals]
  | load =>
      simp only [here, Option.some.injEq] at stepEq
      simp [← stepEq, goto]
  | clearBuffer res =>
      simp only [here, Option.some.injEq] at stepEq
      simp [← stepEq, goto, setGlobals]
  | clearHasChar res =>
      simp only [here, Option.some.injEq] at stepEq
      simp [← stepEq, goto, setGlobals]
  | release res =>
      simp only [here, Option.some.injEq] at stepEq
      simp [← stepEq, goto, setGlobals, setInterrupts]

theorem Inv.handle (inv : state.Inv) (active : state.handler = some pc) :
    (state.handle pc).Inv := by
  have finds := inv pc active
  cases pc with
  | dispatch byte =>
      cases action : keyAction byte with
      | ignore => exact .of_idle (by simp [KeyboardState.handle, action, setHandler])
      | shift pressed => exact .of_idle (by simp [KeyboardState.handle, action, setHandler])
      | capsLock pressed => exact .of_idle (by simp [KeyboardState.handle, action, setHandler])
      | store scancode =>
          rintro pc next
          simp only [KeyboardState.handle, action, setHandler, Option.some.injEq] at next ⊢
          rw [← next]
          exact finds scancode action
  | acquire scancode =>
      have free : state.globals.keyboardLock = false := finds
      rintro pc next
      simp only [KeyboardState.handle, free, Bool.false_eq_true, if_false, setHandler,
        Option.some.injEq] at next
      rw [← next]
      trivial
  | store scancode =>
      rintro pc next
      simp only [KeyboardState.handle, setHandler, Option.some.injEq] at next
      rw [← next]
      trivial
  | setHasChar =>
      rintro pc next
      simp only [KeyboardState.handle, setHandler, Option.some.injEq] at next
      rw [← next]
      trivial
  | release => exact .of_idle rfl

theorem Inv.step {event : KeyboardEvent} {state next : KeyboardState} (inv : state.Inv)
    (allowed : Allowed event state) (stepEq : step event state = some next) : next.Inv := by
  cases event with
  | call =>
      simp only [KeyboardState.step] at stepEq
      split at stepEq
      · next idle _ =>
        rw [← Option.some.inj stepEq]
        exact .of_idle idle
      · cases stepEq
  | gate =>
      simp only [KeyboardState.step] at stepEq
      split at stepEq
      · next idle _ =>
        rw [← Option.some.inj stepEq]
        exact .of_idle idle
      · cases stepEq
  | step =>
      simp only [KeyboardState.step] at stepEq
      split at stepEq
      · next idle => exact .of_idle ((advance_handler stepEq).trans idle)
      · cases stepEq
  | preempt pid =>
      simp only [KeyboardState.step, Option.ite_none_right_eq_some] at stepEq
      obtain ⟨enabled, stepEq⟩ := stepEq
      rw [← Option.some.inj stepEq]
      exact .of_idle (Option.isNone_iff_eq_none.mp enabled.1)
  | irq byte =>
      simp only [KeyboardState.step, Option.ite_none_right_eq_some] at stepEq
      obtain ⟨-, stepEq⟩ := stepEq
      rw [← Option.some.inj stepEq]
      rintro pc started
      simp only [setHandler, Option.some.injEq] at started
      rw [← started]
      intro scancode action
      simpa only [Allowed, action, setHandler] using allowed
  | handle =>
      simp only [KeyboardState.step, Option.map_eq_some_iff] at stepEq
      obtain ⟨pc, active, rfl⟩ := stepEq
      exact inv.handle active

theorem Inv.not_deadlocked (inv : state.Inv) : ¬state.Deadlocked := by
  rintro ⟨scancode, pid, waiting, taken, -⟩
  have free : state.globals.keyboardLock = false := inv _ waiting
  rw [free] at taken
  cases taken

/-- A process, or the handler, stands between its acquire and its release. -/
def holds (state : KeyboardState) : Option Word → Bool
  | some pid => (state.pc pid).locked
  | none => state.handler.any HandlerPc.locked

/-- The lock is taken when somebody holds it, and nobody else does then. -/
def Held (state : KeyboardState) : Prop :=
  ∃ owner : Option (Option Word), state.globals.keyboardLock = owner.isSome ∧
    ∀ party, state.holds party ↔ owner = some party

section Held

variable {state next : KeyboardState} {party : Option Word}

theorem holds_goto (state : KeyboardState) (pc : GetchPc) :
    (state.goto pc).holds = update state.holds (some state.current) pc.locked := by
  funext party
  cases party with
  | none => simp [holds, goto]
  | some pid =>
      by_cases same : pid = state.current
      · simp [holds, goto, same]
      · simp [holds, goto, same]

theorem holds_setHandler (state : KeyboardState) (handler : Option HandlerPc) :
    (state.setHandler handler).holds =
      update state.holds none (handler.any HandlerPc.locked) := by
  funext party
  cases party with
  | none => simp [holds, setHandler]
  | some pid => simp [holds, setHandler]

section

variable (held : state.Held)
include held

theorem Held.setGlobals {globals : KeyboardVariables}
    (lockEq : globals.keyboardLock = state.globals.keyboardLock) :
    (state.setGlobals globals).Held := by
  obtain ⟨owner, ownerEq, owns⟩ := held
  exact ⟨owner, lockEq.trans ownerEq, owns⟩

theorem Held.goto {pc : GetchPc} (same : pc.locked = (state.pc state.current).locked) :
    (state.goto pc).Held := by
  have holdsEq : (state.goto pc).holds = state.holds := by
    rw [holds_goto, same]
    exact update_eq_self _ _
  rwa [Held, holdsEq]

theorem Held.setHandler {handler : Option HandlerPc}
    (same : handler.any HandlerPc.locked = state.handler.any HandlerPc.locked) :
    (state.setHandler handler).Held := by
  have holdsEq : (state.setHandler handler).holds = state.holds := by
    rw [holds_setHandler, same]
    exact update_eq_self _ _
  rwa [Held, holdsEq]

theorem Held.acquire (free : state.globals.keyboardLock = false)
    (taken : next.globals.keyboardLock = true)
    (holdsEq : next.holds = update state.holds party true) : next.Held := by
  obtain ⟨_ | owner, lockEq, owns⟩ := held
  · refine ⟨some party, taken, ?_⟩
    intro other
    rw [holdsEq, Option.some.injEq]
    by_cases same : other = party
    · simp [same]
    · simp [same, owns, Ne.symm same]
  · simp [free] at lockEq

theorem Held.release (holding : state.holds party) (free : next.globals.keyboardLock = false)
    (holdsEq : next.holds = update state.holds party false) : next.Held := by
  obtain ⟨owner, -, owns⟩ := held
  obtain rfl := (owns party).mp holding
  refine ⟨none, free, ?_⟩
  intro other
  rw [holdsEq]
  by_cases same : other = party
  · simp [same]
  · simp [same, owns, Ne.symm same]

theorem Held.advance (stepEq : state.advance = some next) : next.Held := by
  unfold KeyboardState.advance at stepEq
  cases here : state.pc state.current with
  | outside => simp [here] at stepEq
  | check =>
      simp only [here] at stepEq
      split at stepEq
      · rw [← Option.some.inj stepEq]
        exact held.goto (by rw [here]; rfl)
      · rw [← Option.some.inj stepEq]
        exact held.goto (by rw [here]; rfl)
  | acquire =>
      simp only [here] at stepEq
      split at stepEq
      · rwa [← Option.some.inj stepEq]
      · next free =>
        rw [← Option.some.inj stepEq]
        exact held.acquire (Bool.not_eq_true _ ▸ free) rfl (holds_goto _ _)
  | load =>
      rw [here] at stepEq
      rw [← Option.some.inj stepEq]
      exact held.goto (by rw [here]; rfl)
  | clearBuffer res =>
      rw [here] at stepEq
      rw [← Option.some.inj stepEq]
      exact (held.setGlobals rfl).goto (by rw [KeyboardState.setGlobals, here]; rfl)
  | clearHasChar res =>
      rw [here] at stepEq
      rw [← Option.some.inj stepEq]
      exact (held.setGlobals rfl).goto (by rw [KeyboardState.setGlobals, here]; rfl)
  | release res =>
      rw [here] at stepEq
      rw [← Option.some.inj stepEq]
      have holding : state.holds (some state.current) := by rw [holds, here]; rfl
      exact held.release holding rfl (holds_goto _ _)

theorem Held.handle (active : state.handler = some pc) :
    (state.handle pc).Held := by
  cases pc with
  | dispatch byte =>
      simp only [KeyboardState.handle]
      split
      · exact held.setHandler (by rw [active]; rfl)
      · exact (held.setGlobals rfl).setHandler (by rw [KeyboardState.setGlobals, active])
      · exact (held.setGlobals rfl).setHandler (by rw [KeyboardState.setGlobals, active])
      · exact held.setHandler (by rw [active]; rfl)
  | acquire scancode =>
      simp only [KeyboardState.handle]
      split
      · exact held
      · next free => exact held.acquire (Bool.not_eq_true _ ▸ free) rfl (holds_setHandler _ _)
  | store scancode =>
      exact (held.setGlobals rfl).setHandler (by rw [KeyboardState.setGlobals, active])
  | setHasChar => exact (held.setGlobals rfl).setHandler (by rw [KeyboardState.setGlobals, active])
  | release =>
      have holding : state.holds none := by rw [holds, active]; rfl
      exact held.release holding rfl (holds_setHandler _ _)

end

theorem Held.step {event : KeyboardEvent} (held : state.Held)
    (stepEq : KeyboardState.step event state = some next) : next.Held := by
  cases event with
  | call =>
      simp only [KeyboardState.step] at stepEq
      split at stepEq
      · next outside =>
        rw [← Option.some.inj stepEq]
        exact held.goto (by rw [outside]; rfl)
      · cases stepEq
  | gate =>
      simp only [KeyboardState.step] at stepEq
      split at stepEq
      · next outside =>
        rw [← Option.some.inj stepEq]
        exact held.goto (by rw [outside]; rfl)
      · cases stepEq
  | step =>
      simp only [KeyboardState.step] at stepEq
      split at stepEq
      · exact held.advance stepEq
      · cases stepEq
  | preempt pid =>
      simp only [KeyboardState.step, Option.ite_none_right_eq_some] at stepEq
      rwa [← Option.some.inj stepEq.2]
  | irq byte =>
      simp only [KeyboardState.step, Option.ite_none_right_eq_some] at stepEq
      obtain ⟨⟨idle, -⟩, stepEq⟩ := stepEq
      rw [← Option.some.inj stepEq]
      exact held.setHandler (by rw [Option.isNone_iff_eq_none.mp idle]; rfl)
  | handle =>
      simp only [KeyboardState.step, Option.map_eq_some_iff] at stepEq
      obtain ⟨pc, active, rfl⟩ := stepEq
      exact held.handle active

theorem start_held : start.Held := by
  refine ⟨none, rfl, ?_⟩
  intro party
  cases party <;> simp [holds, start, GetchPc.locked]

/-- Outside the handler the lock is free when no process is between its acquire and its
release. -/
theorem Held.free_iff (held : state.Held) (idle : state.handler = none) :
    state.globals.keyboardLock = false ↔ ∀ pid, (state.pc pid).locked = false := by
  obtain ⟨owner, lockEq, owns⟩ := held
  have notHandler : owner ≠ some none := by
    intro isHandler
    simpa [holds, idle] using (owns none).mpr isHandler
  rw [lockEq]
  rcases owner with _ | _ | pid
  · simpa [holds] using fun pid => owns (some pid)
  · exact absurd rfl notHandler
  · have locked : (state.pc pid).locked := (owns (some pid)).mpr rfl
    simp only [Option.isSome_some, Bool.true_eq_false, false_iff, not_forall]
    exact ⟨pid, by simp [locked]⟩

end Held

/-- When every key that makes the handler take the lock arrives while the lock
is free, the handler never waits for a process.  The lock is free where no process is
between its acquire and its release. -/
theorem keyboard_never_deadlocks {state : KeyboardState}
    (reaches : Transitions.Reaches step Allowed start state) :
    ¬state.Deadlocked ∧ (state.handler = none →
      (state.globals.keyboardLock = false ↔ ∀ pid, (state.pc pid).locked = false)) := by
  have inv := reaches.invariant start_inv Inv.step
  have held := reaches.invariant start_held fun held _ => held.step
  exact ⟨inv.not_deadlocked, held.free_iff⟩

theorem keyboard_never_deadlocks_release : ∃ state : KeyboardState,
    state.handler = some (.dispatch 0x9e#8) ∧ (state.pc 1#64).locked ∧ ¬state.Deadlocked := by
  have callAllowed : Allowed .call start := trivial
  have called : Transitions.Reaches step Allowed start (start.goto .acquire) :=
    .tail .refl callAllowed rfl
  have stepAllowed : Allowed .step (start.goto .acquire) := trivial
  have acquired := called.tail stepAllowed rfl
  have irqAllowed : ∀ state, Allowed (.irq 0x9e#8) state := fun _ => trivial
  have interrupted := acquired.tail (irqAllowed _) rfl
  exact ⟨_, rfl, rfl, (keyboard_never_deadlocks interrupted).1⟩

/-- The key A is pressed while `keyboard_getch` holds the lock: the handler
waits, and its next step leaves everything as it is. -/
theorem keyboard_deadlock : ∃ state,
    Transitions.Reaches step (fun _ _ => True) start state ∧ state.Deadlocked ∧
      step .handle state = some state := by
  have ran : Transitions.run step [.call, .step, .irq 0x1e#8, .handle] start = some _ := rfl
  exact ⟨_, Transitions.Reaches.refl.run ran, ⟨0x1e#8, 1#64, rfl, rfl, rfl⟩, rfl⟩

end KeyboardState

end MmdOS
