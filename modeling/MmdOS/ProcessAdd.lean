import MmdOS.SchedulerFuel
import MmdOS.SchedulerRuns
import MmdOS.Transitions

/-!
# Adding a process while the timer ticks

`process_add` walks to the end of the process list and links the new process
there, with interrupts enabled.  Between any two of its statements the timer
may tick, and the process that runs then may exit or add a process of its own.
A new process is lost when the process at which the walk has stopped is
deleted before the link is made.
-/

namespace MmdOS

open LinkedList RoundRobin Transitions
open Function (update update_self update_of_ne)

variable {sched : SchedState}
variable {switchPml : Word → Word} {state : AddState} {fuel : Nat}

inductive AddPc
  /-- `iterator = processes_list` -/
  | load
  /-- `process->status = READY` -/
  | setReady
  /-- `iterator == NULL` -/
  | head
  /-- `iterator->next != NULL` -/
  | test
  /-- `iterator = iterator->next` -/
  | advance
  /-- `iterator->next = process` -/
  | link
  deriving DecidableEq

structure Adding where
  process : Word
  iterator : Word
  pc : AddPc

/-- The state of the scheduler, the calls of `process_add` of the processes
that are in the list, and the process that the last step has added. -/
structure AddState where
  sched : SchedState
  adding : Word → Option Adding
  added : Option Word

inductive AddEvent
  /-- The running process calls `process_create` and comes to `process_add`. -/
  | create (new : NewProcess)
  /-- The next statement of the running process in `process_add`. -/
  | next
  | tick (fuel : Nat) (frame : Word)
  | exit (fuel : Nat) (frame : Word)

namespace AddState

def goto (state : AddState) (runner : Word) (call : Adding) : AddState :=
  { state with
    adding := update state.adding runner (some call)
    added := none }

def finish (state : AddState) (runner process : Word) (sched : SchedState) : AddState :=
  { sched
    adding := update state.adding runner none
    added := some process }

def statement (state : AddState) (runner : Word) (call : Adding) : AddState :=
  match call.pc with
  | .load =>
      state.goto runner { call with iterator := state.sched.processesList, pc := .setReady }
  | .setReady =>
      { state with sched := state.sched.setStatus call.process .ready }.goto runner
        { call with pc := .head }
  | .head =>
      if call.iterator = 0#64 then
        state.finish runner call.process { state.sched with processesList := call.process }
      else state.goto runner { call with pc := .test }
  | .test =>
      if (state.sched.process call.iterator).next ≠ 0#64 then
        state.goto runner { call with pc := .advance }
      else state.goto runner { call with pc := .link }
  | .advance =>
      state.goto runner
        { call with iterator := (state.sched.process call.iterator).next, pc := .test }
  | .link => state.finish runner call.process (state.sched.setNext call.iterator call.process)

def called (state : AddState) (result : Option (Except SchedPanic (Word × SchedState))) :
    Option AddState :=
  match result with
  | some (.ok (_, sched)) => some { state with sched, added := none }
  | some (.error _) => none
  | none => none

def step (switchPml : Word → Word) : AddEvent → AddState → Option AddState
  | .create new, state =>
      if state.sched.currentProcess ≠ 0#64 ∧ (state.adding state.sched.currentProcess).isNone then
        some ({ state with sched := newBlock state.sched new }.goto state.sched.currentProcess
          ⟨new.process, 0#64, .load⟩)
      else none
  | .next, state =>
      if state.sched.currentProcess ≠ 0#64 then
        (state.adding state.sched.currentProcess).map (state.statement state.sched.currentProcess)
      else none
  | .tick fuel frame, state => state.called (timerHandler freed switchPml fuel state.sched frame)
  | .exit fuel frame, state =>
      if state.sched.currentProcess ≠ 0#64 ∧ state.sched.pid state.sched.currentProcess ≠ 1 ∧
          (state.adding state.sched.currentProcess).isNone then
        state.called (processExit freed switchPml fuel state.sched frame)
      else none

section Uninterrupted

variable {process iterator last : Word}

theorem finish_goto (call : Adding) (sched : SchedState) (runner : Word) :
    (state.goto runner call).finish runner process sched = state.finish runner process sched := by
  simp [finish, goto]

theorem step_next {call : Adding} (running : state.sched.currentProcess ≠ 0#64)
    (isAdding : state.adding state.sched.currentProcess = some call) :
    step switchPml .next state = some (state.statement state.sched.currentProcess call) := by
  simp [step, running, isAdding]

theorem walk_tailScan (running : state.sched.currentProcess ≠ 0#64)
    (isAdding : state.adding state.sched.currentProcess = some ⟨process, iterator, .test⟩)
    (scanned : tailScan state.sched fuel iterator = some last) :
    ∃ count, run (step switchPml) (List.replicate count .next) state =
      some (state.finish state.sched.currentProcess process (state.sched.setNext last process)) := by
  induction fuel generalizing state iterator with
  | zero => simp [tailScan] at scanned
  | succ fuel ih =>
      by_cases more : (state.sched.process iterator).next ≠ 0#64
      · rw [tailScan, if_pos more] at scanned
        let tested := state.goto state.sched.currentProcess ⟨process, iterator, .advance⟩
        let advanced := tested.goto state.sched.currentProcess
          ⟨process, (state.sched.process iterator).next, .test⟩
        have test : step switchPml .next state = some tested := by
          rw [step_next running isAdding, statement, if_pos more]
        have testedAdding : tested.adding tested.sched.currentProcess =
            some ⟨process, iterator, .advance⟩ := by
          simp [tested, goto]
        have advancedAdding : advanced.adding advanced.sched.currentProcess =
            some ⟨process, (state.sched.process iterator).next, .test⟩ := by
          simp [advanced, tested, goto]
        have testedRunning : tested.sched.currentProcess ≠ 0#64 := running
        have advancedRunning : advanced.sched.currentProcess ≠ 0#64 := running
        have advance : step switchPml .next tested = some advanced :=
          step_next testedRunning testedAdding
        obtain ⟨count, ran⟩ := ih advancedRunning advancedAdding scanned
        refine ⟨count + 2, ?_⟩
        simp only [List.replicate_succ, run, test, advance, Option.bind_some, ran]
        exact congrArg some ((finish_goto _ _ _).trans (finish_goto _ _ _))
      · rw [tailScan, if_neg more, Option.some.injEq] at scanned
        let tested := state.goto state.sched.currentProcess ⟨process, iterator, .link⟩
        have test : step switchPml .next state = some tested := by
          rw [step_next running isAdding, statement, if_neg more]
        have testedAdding : tested.adding tested.sched.currentProcess =
            some ⟨process, iterator, .link⟩ := by
          simp [tested, goto]
        have testedRunning : tested.sched.currentProcess ≠ 0#64 := running
        have link := @step_next switchPml _ _ testedRunning testedAdding
        refine ⟨2, ?_⟩
        simp only [List.replicate_succ, List.replicate_zero, run, test, link, Option.bind_some]
        rw [← scanned]
        exact congrArg some (finish_goto _ _ _)

/-- A call that nothing interrupts does what `process_add` does. -/
theorem uninterrupted_add (running : state.sched.currentProcess ≠ 0#64)
    (isAdding : state.adding state.sched.currentProcess = some ⟨process, iterator, .load⟩)
    (added : processAdd fuel state.sched process = some sched) :
    ∃ count, run (step switchPml) (List.replicate count .next) state =
      some (state.finish state.sched.currentProcess process sched) := by
  let runner := state.sched.currentProcess
  let list := state.sched.processesList
  let loaded := state.goto runner ⟨process, list, .setReady⟩
  let readied := { loaded with sched := state.sched.setStatus process .ready }.goto runner
    ⟨process, list, .head⟩
  have load : step switchPml .next state = some loaded := step_next running isAdding
  have loadedAdding : loaded.adding runner = some ⟨process, list, .setReady⟩ := by
    simp [loaded, goto]
  have ready : step switchPml .next loaded = some readied :=
    @step_next _ loaded _ running loadedAdding
  have readiedAdding : readied.adding runner = some ⟨process, list, .head⟩ := by
    simp [readied, goto]
  have test := @step_next switchPml readied _ running readiedAdding
  by_cases isEmpty : state.sched.processesList = 0#64
  · simp only [processAdd, if_pos isEmpty, Option.some.injEq] at added
    have first : step switchPml .next readied = some (readied.finish runner process sched) := by
      rw [test, statement, if_pos isEmpty, ← added]
      rfl
    refine ⟨3, ?_⟩
    simp only [List.replicate_succ, List.replicate_zero, run, load, ready, first, Option.bind_some]
    simp [finish, readied, loaded, goto, runner]
  · simp only [processAdd, if_neg isEmpty, Option.bind_eq_bind, Option.bind_eq_some_iff,
      Option.some.injEq] at added
    obtain ⟨last, scanned, rfl⟩ := added
    let tested := readied.goto runner ⟨process, list, .test⟩
    have toWalk : step switchPml .next readied = some tested := by
      rw [test, statement, if_neg isEmpty]
      rfl
    have testedAdding : tested.adding runner = some ⟨process, list, .test⟩ := by
      simp [tested, goto]
    obtain ⟨count, ran⟩ := @walk_tailScan switchPml tested _ _ _ _ running testedAdding scanned
    rw [show tested.sched.currentProcess = runner from rfl] at ran
    refine ⟨count + 3, ?_⟩
    simp only [List.replicate_succ, run, load, ready, toWalk, Option.bind_some, ran]
    simp [finish, tested, readied, loaded, goto, runner]

end Uninterrupted

/-- `kalloc` hands out a block that is not in use. -/
def Valid : AddEvent → AddState → Prop
  | .create new, state => new.process ≠ 0#64 ∧ state.sched.Unlisted new.process ∧
      ∀ runner call, state.adding runner = some call → call.process ≠ new.process
  | .next, _ | .tick _ _, _ | .exit _ _, _ => True

def Safe (state : AddState) : Prop :=
  ∀ process, state.added = some process →
    ∃ pointers, state.sched.Listed pointers ∧ pointers.count process = 1

/-- No call of `process_add` is disturbed: the process that exits is not the
one at which a walk stands, nor the last one that a walk is about to step to,
and the link is made where the list still ends. -/
def Allowed : AddEvent → AddState → Prop
  | .exit _ _, state => ∀ runner call, state.adding runner = some call → call.pc ≠ .load →
      call.iterator ≠ state.sched.currentProcess ∧
      (call.pc = .advance →
        (state.sched.process call.iterator).next = state.sched.currentProcess →
          (state.sched.process state.sched.currentProcess).next ≠ 0#64)
  | .next, state => ∀ call, state.adding state.sched.currentProcess = some call →
      call.pc = .link → (state.sched.process call.iterator).next = 0#64
  | .create _, _ | .tick _ _, _ => True

end AddState

structure Adding.Sound (call : Adding) (sched : SchedState) (pointers : List Word) : Prop where
  notNull : call.process ≠ 0#64
  outside : call.process ∉ pointers
  unlinked : (sched.process call.process).next = 0#64
  ready : call.pc ≠ .load → call.pc ≠ .setReady → (sched.process call.process).status = .ready
  iterator_mem : call.pc ≠ .load → call.iterator ∈ pointers
  more : call.pc = .advance → (sched.process call.iterator).next ≠ 0#64

structure AddState.Inv (switchPml : Word → Word) (state : AddState) (turns : Turns Word) : Prop where
  inTurns : InTurns switchPml state.sched turns
  head : ∀ pointer ∈ turns.members.head?, state.sched.pid pointer = 1
  sound : ∀ runner call, state.adding runner = some call →
    call.Sound state.sched turns.members
  distinct : ∀ first second firstCall secondCall, state.adding first = some firstCall →
    state.adding second = some secondCall → firstCall.process = secondCall.process →
      first = second
  added : ∀ process, state.added = some process → process ∈ turns.members

theorem Adding.Sound.congr {call : Adding} {after : SchedState} {pointers pointers' : List Word}
    (sound : call.Sound sched pointers)
    (process_eq : after.process call.process = sched.process call.process)
    (outside : call.process ∉ pointers')
    (iterator_mem : call.pc ≠ .load → call.iterator ∈ pointers')
    (more : call.pc = .advance → (after.process call.iterator).next ≠ 0#64) :
    call.Sound after pointers' := by
  refine ⟨sound.notNull, outside, ?_, ?_, iterator_mem, more⟩
  · rw [process_eq]
    exact sound.unlinked
  · rw [process_eq]
    exact sound.ready

theorem Adding.Sound.walk {call : Adding} {sched : SchedState} {pointers : List Word}
    {iterator : Word} {pc : AddPc} (sound : call.Sound sched pointers)
    (walks : call.pc = .head ∨ call.pc = .test ∨ call.pc = .advance)
    (member : iterator ∈ pointers)
    (more : pc = .advance → (sched.process iterator).next ≠ 0#64) :
    Adding.Sound ⟨call.process, iterator, pc⟩ sched pointers := by
  refine ⟨sound.notNull, sound.outside, sound.unlinked, fun _ _ => ?_, fun _ => member, more⟩
  rcases walks with pc_eq | pc_eq | pc_eq
  · exact sound.ready (by simp [pc_eq]) (by simp [pc_eq])
  · exact sound.ready (by simp [pc_eq]) (by simp [pc_eq])
  · exact sound.ready (by simp [pc_eq]) (by simp [pc_eq])

namespace AddState

section Preservation

variable {next : AddState} {turns : Turns Word}

theorem Inv.safe (inv : state.Inv switchPml turns) : state.Safe := by
  intro process isAdded
  have listed := inv.inTurns.listed
  exact ⟨turns.members, listed,
    List.count_eq_one_of_mem (Links.nodup listed) (inv.added process isAdded)⟩

theorem called_eq_some {result : Option (Except SchedPanic (Word × SchedState))}
    (calledEq : state.called result = some next) :
    ∃ returned sched, result = some (.ok (returned, sched)) ∧
      next = { state with sched, added := none } := by
  rcases result with _ | ⟨_ | ⟨returned, sched⟩⟩
  · cases calledEq
  · cases calledEq
  · exact ⟨returned, sched, rfl, (Option.some.inj calledEq).symm⟩

section

variable (inv : state.Inv switchPml turns)
variable {runner : Word}
include inv

theorem Inv.tick {frame : Word} (stepEq : step switchPml (.tick fuel frame) state = some next) :
    next.Inv switchPml (turns.tick 3) := by
  obtain ⟨returned, sched, ended, rfl⟩ := called_eq_some stepEq
  obtain ⟨-, called⟩ := inv.inTurns.called (.timerHandler ended)
  refine ⟨called.inTurns, ?_, ?_, inv.distinct, nofun⟩
  · intro pointer isHead
    rw [Turns.members_tick] at isHead
    exact (called.frame.pid_eq pointer).trans (inv.head pointer isHead)
  · intro runner call isAdding
    have sound := inv.sound runner call isAdding
    rw [Turns.members_tick]
    refine sound.congr (called.frame.outside_eq _ sound.outside) sound.outside sound.iterator_mem ?_
    intro isAdvance
    have listed := called.inTurns.listed
    rw [Turns.members_tick] at listed
    exact Links.next_ne_null inv.inTurns.listed listed
      (sound.iterator_mem (by simp [isAdvance])) (sound.more isAdvance)

theorem Inv.exit {frame : Word} (allowed : Allowed (.exit fuel frame) state)
    (stepEq : step switchPml (.exit fuel frame) state = some next) :
    ∃ turns, next.Inv switchPml turns := by
  simp only [step, Option.ite_none_right_eq_some] at stepEq
  obtain ⟨⟨running, notIdle, -⟩, calledEq⟩ := stepEq
  obtain ⟨returned, sched, ended, rfl⟩ := called_eq_some calledEq
  obtain ⟨rota, rest, left, rfl, scheduled, isLeft, notFirst⟩ :=
    inv.inTurns.exists_leave inv.head running notIdle
  obtain ⟨returned', sched', returns, called⟩ := processExit_returns scheduled isLeft
    (freed_apply _) frame
  obtain ⟨rfl, rfl⟩ := Prod.mk.inj (Except.ok.inj (Returns.unique (.timerHandler ended) returns))
  have restMembers := Rota.members_leave isLeft
  refine ⟨.turn rest 3, called.inTurns, ?_, ?_, inv.distinct, nofun⟩
  · intro pointer isHead
    rw [Turns.members, Rota.head?_leave isLeft notFirst] at isHead
    exact (called.frame.pid_eq pointer).trans (inv.head pointer isHead)
  · intro runner call isAdding
    have sound := inv.sound runner call isAdding
    have stillOutside : call.process ∉ rest.members := by
      have outside := sound.outside
      rw [restMembers]
      simp only [Turns.members, Rota.members, List.mem_append, List.mem_cons] at outside ⊢
      tauto
    have stillThere : call.pc ≠ .load → call.iterator ∈ rest.members := by
      intro started
      obtain ⟨elsewhere, -⟩ := allowed runner call isAdding started
      rw [scheduled.current_eq] at elsewhere
      have member := sound.iterator_mem started
      rw [restMembers]
      simp only [Turns.members, Rota.members, List.mem_append, List.mem_cons] at member ⊢
      tauto
    refine sound.congr (called.frame.outside_eq _ sound.outside) stillOutside stillThere ?_
    intro isAdvance
    have started : call.pc ≠ .load := by simp [isAdvance]
    obtain ⟨-, notLast⟩ := allowed runner call isAdding started
    rw [scheduled.current_eq] at notLast
    have listed := called.inTurns.listed
    have member := stillThere started
    rw [Turns.members, restMembers] at listed
    rw [restMembers] at member
    exact Links.next_ne_null_of_removed scheduled.listed listed member (sound.more isAdvance)
      (notLast isAdvance)

theorem Inv.goto {call : Adding} (inTurns : InTurns switchPml sched turns)
    (pid_eq : ∀ pointer ∈ turns.members, sched.pid pointer = state.sched.pid pointer)
    (others : ∀ other otherCall, other ≠ runner → state.adding other = some otherCall →
      otherCall.Sound sched turns.members ∧ otherCall.process ≠ call.process)
    (sound : call.Sound sched turns.members) :
    ({ state with sched }.goto runner call).Inv switchPml turns := by
  refine ⟨inTurns, ?_, ?_, ?_, nofun⟩
  · intro pointer isHead
    exact (pid_eq pointer (List.mem_of_mem_head? isHead)).trans (inv.head pointer isHead)
  · intro other otherCall isAdding
    by_cases isRunner : other = runner
    · simp only [AddState.goto, isRunner, update_self, Option.some.injEq] at isAdding
      rw [← isAdding]
      exact sound
    · simp only [AddState.goto, update_of_ne isRunner] at isAdding
      exact (others other otherCall isRunner isAdding).1
  · intro first second firstCall secondCall firstAdding secondAdding same
    by_cases isFirst : first = runner
    · by_cases isSecond : second = runner
      · rw [isFirst, isSecond]
      · simp only [AddState.goto, isFirst, update_self, Option.some.injEq,
          update_of_ne isSecond] at firstAdding secondAdding
        rw [← firstAdding] at same
        exact absurd same.symm (others second secondCall isSecond secondAdding).2
    · by_cases isSecond : second = runner
      · simp only [AddState.goto, isSecond, update_self, Option.some.injEq,
          update_of_ne isFirst] at firstAdding secondAdding
        rw [← secondAdding] at same
        exact absurd same (others first firstCall isFirst firstAdding).2
      · simp only [AddState.goto, update_of_ne isFirst,
          update_of_ne isSecond] at firstAdding secondAdding
        exact inv.distinct first second firstCall secondCall firstAdding secondAdding same

/-- The other calls add other processes. -/
theorem Inv.process_ne {other : Word} {call otherCall : Adding}
    (isAdding : state.adding runner = some call) (different : other ≠ runner)
    (otherAdding : state.adding other = some otherCall) :
    otherCall.process ≠ call.process :=
  fun same => different (inv.distinct other runner otherCall call otherAdding isAdding same)

theorem Inv.goto_local {call moved : Adding} (isAdding : state.adding runner = some call)
    (process_eq : moved.process = call.process) (sound : moved.Sound state.sched turns.members) :
    (state.goto runner moved).Inv switchPml turns := by
  refine inv.goto inv.inTurns (fun _ _ => rfl) ?_ sound
  intro other otherCall different otherAdding
  rw [process_eq]
  exact ⟨inv.sound other otherCall otherAdding, inv.process_ne isAdding different otherAdding⟩

theorem Inv.create {new : NewProcess} (valid : Valid (.create new) state)
    (stepEq : step switchPml (.create new) state = some next) : next.Inv switchPml turns := by
  simp only [step, Option.ite_none_right_eq_some, Option.some.injEq] at stepEq
  obtain ⟨-, rfl⟩ := stepEq
  obtain ⟨notNull, unlisted, unused⟩ := valid
  have fresh := unlisted _ inv.inTurns.listed
  have others : ∀ pointer, pointer ≠ new.process →
      (newBlock state.sched new).process pointer = state.sched.process pointer := by
    intro pointer different
    simp [newBlock, different]
  have members : ∀ pointer ∈ turns.members,
      (newBlock state.sched new).process pointer = state.sched.process pointer :=
    fun pointer member => others pointer fun equal => fresh (equal ▸ member)
  refine inv.goto (inv.inTurns.congr members rfl rfl rfl rfl)
    (fun pointer member => congrArg Process.pid (members pointer member)) ?_
    ⟨notNull, fresh, by simp [newBlock], by simp, by simp, by simp⟩
  intro other otherCall _ otherAdding
  have sound := inv.sound other otherCall otherAdding
  have notNew := unused other otherCall otherAdding
  refine ⟨sound.congr (others _ notNew) sound.outside sound.iterator_mem ?_, notNew⟩
  intro isAdvance
  rw [members _ (sound.iterator_mem (by simp [isAdvance]))]
  exact sound.more isAdvance

theorem Inv.setReady {call : Adding} (isAdding : state.adding runner = some call)
    (isSetReady : call.pc = .setReady) :
    ({ state with sched := state.sched.setStatus call.process .ready }.goto runner
      { call with pc := .head }).Inv switchPml turns := by
  have sound := inv.sound runner call isAdding
  have others : ∀ pointer, pointer ≠ call.process →
      (state.sched.setStatus call.process .ready).process pointer = state.sched.process pointer :=
    fun pointer different => modify_of_ne _ _ _ _ different
  have members : ∀ pointer ∈ turns.members,
      (state.sched.setStatus call.process .ready).process pointer = state.sched.process pointer :=
    fun pointer member => others pointer fun equal => sound.outside (equal ▸ member)
  refine inv.goto (inv.inTurns.congr members rfl rfl rfl rfl)
    (fun pointer member => congrArg Process.pid (members pointer member)) ?_ ?_
  · intro other otherCall different otherAdding
    have otherSound := inv.sound other otherCall otherAdding
    have notSame := inv.process_ne isAdding different otherAdding
    refine ⟨otherSound.congr (others _ notSame) otherSound.outside otherSound.iterator_mem ?_,
      notSame⟩
    intro isAdvance
    rw [members _ (otherSound.iterator_mem (by simp [isAdvance]))]
    exact otherSound.more isAdvance
  · refine ⟨sound.notNull, sound.outside, ?_, fun _ _ => by simp [SchedState.setStatus],
      fun _ => sound.iterator_mem (by simp [isSetReady]), nofun⟩
    simp [SchedState.setStatus, sound.unlinked]

/-- The link is made where the list ends. -/
theorem Inv.link {call : Adding} (isAdding : state.adding runner = some call)
    (isLink : call.pc = .link) (isLast : (state.sched.process call.iterator).next = 0#64) :
    (state.finish runner call.process (state.sched.setNext call.iterator call.process)).Inv
      switchPml (turns.join call.process) := by
  have sound := inv.sound runner call isAdding
  have member := sound.iterator_mem (by simp [isLink])
  have listed := inv.inTurns.listed
  obtain ⟨before, after, split⟩ := List.append_of_mem member
  have linked : Linked state.sched call.process
      (state.sched.setNext call.iterator call.process) := by
    rw [split] at listed
    obtain rfl := (Links.next_eq_null listed).mp isLast
    have fresh := sound.outside
    rw [split] at fresh
    exact linked_setNext listed sound.notNull fresh sound.unlinked
      (sound.ready (by simp [isLink]) (by simp [isLink]))
  refine ⟨inv.inTurns.link linked sound.outside, ?_, ?_, ?_, ?_⟩
  · intro pointer isHead
    have old : pointer ∈ turns.members.head? := by
      rw [Turns.members_join, split] at isHead
      rw [split]
      cases before <;> simpa using isHead
    have different : pointer ≠ call.process := fun equal =>
      sound.outside (equal ▸ List.mem_of_mem_head? old)
    exact (linked.field Process.pid (fun _ => rfl) different).trans (inv.head pointer old)
  · intro other otherCall otherAdding
    have different : other ≠ runner := by
      rintro rfl
      simp [finish] at otherAdding
    simp only [finish, update_of_ne different] at otherAdding
    have otherSound := inv.sound other otherCall otherAdding
    have notIterator : otherCall.process ≠ call.iterator := fun equal =>
      otherSound.outside (equal ▸ member)
    rw [Turns.members_join]
    change otherCall.Sound (state.sched.setNext call.iterator call.process) _
    refine otherSound.congr (modify_of_ne _ _ _ _ notIterator) ?_ ?_ ?_
    · simpa using ⟨otherSound.outside, inv.process_ne isAdding different otherAdding⟩
    · exact fun started => List.mem_append_left _ (otherSound.iterator_mem started)
    · intro isAdvance
      by_cases same : otherCall.iterator = call.iterator
      · simp [same, SchedState.setNext, sound.notNull]
      · simp only [SchedState.setNext, modify_of_ne _ _ _ _ same]
        exact otherSound.more isAdvance
  · intro first second firstCall secondCall firstAdding secondAdding same
    have firstNe : first ≠ runner := by
      rintro rfl
      simp [finish] at firstAdding
    have secondNe : second ≠ runner := by
      rintro rfl
      simp [finish] at secondAdding
    simp only [finish, update_of_ne firstNe, update_of_ne secondNe]
      at firstAdding secondAdding
    exact inv.distinct first second firstCall secondCall firstAdding secondAdding same
  · intro process isAdded
    simp only [finish, Option.some.injEq] at isAdded
    simp [← isAdded]

theorem Inv.statement {call : Adding}
    (isAdding : state.adding state.sched.currentProcess = some call)
    (running : state.sched.currentProcess ≠ 0#64)
    (allowed : call.pc = .link → (state.sched.process call.iterator).next = 0#64) :
    ∃ turns, (state.statement state.sched.currentProcess call).Inv switchPml turns := by
  have sound := inv.sound _ call isAdding
  have listed := inv.inTurns.listed
  unfold AddState.statement
  cases pc_eq : call.pc with
  | load =>
      obtain ⟨rota, left, rfl, -⟩ := inv.inTurns.exists_turn running
      have member := Links.head_mem listed (members_ne_nil rota)
      exact ⟨_, inv.goto_local isAdding rfl ⟨sound.notNull, sound.outside, sound.unlinked,
        fun _ past => absurd rfl past, fun _ => member, nofun⟩⟩
  | setReady => exact ⟨turns, inv.setReady isAdding pc_eq⟩
  | head =>
      have member := sound.iterator_mem (by simp [pc_eq])
      rw [if_neg (Links.ne_null listed member)]
      exact ⟨turns, inv.goto_local isAdding rfl (sound.walk (.inl pc_eq) member nofun)⟩
  | test =>
      have member := sound.iterator_mem (by simp [pc_eq])
      by_cases more : (state.sched.process call.iterator).next ≠ 0#64
      · rw [if_pos more]
        exact ⟨turns, inv.goto_local isAdding rfl
          (sound.walk (.inr (.inl pc_eq)) member fun _ => more)⟩
      · rw [if_neg more]
        exact ⟨turns, inv.goto_local isAdding rfl (sound.walk (.inr (.inl pc_eq)) member nofun)⟩
  | advance =>
      have member := sound.iterator_mem (by simp [pc_eq])
      have nextMember := Links.next_mem listed member (sound.more pc_eq)
      exact ⟨turns, inv.goto_local isAdding rfl
        (sound.walk (.inr (.inr pc_eq)) nextMember nofun)⟩
  | link => exact ⟨_, inv.link isAdding pc_eq (allowed pc_eq)⟩

end

theorem Inv.step {event : AddEvent} (inv : state.Inv switchPml turns) (valid : Valid event state)
    (allowed : Allowed event state) (stepEq : step switchPml event state = some next) :
    ∃ turns, next.Inv switchPml turns := by
  cases event with
  | create new => exact ⟨turns, inv.create valid stepEq⟩
  | next =>
      simp only [AddState.step, Option.ite_none_right_eq_some, Option.map_eq_some_iff] at stepEq
      obtain ⟨running, call, isAdding, rfl⟩ := stepEq
      exact inv.statement isAdding running (allowed call isAdding)
  | tick fuel frame => exact ⟨_, inv.tick stepEq⟩
  | exit fuel frame => exact inv.exit allowed stepEq

end Preservation

def Starts (switchPml : Word → Word) (state : AddState) : Prop :=
  (∃ trace, SchedRun switchPml trace state.sched) ∧ (∀ runner, state.adding runner = none) ∧
    state.added = none

theorem Starts.inv {switchPml : Word → Word} (starts : state.Starts switchPml) :
    ∃ turns, state.Inv switchPml turns := by
  obtain ⟨⟨trace, run⟩, nobody, noneAdded⟩ := starts
  obtain ⟨turns, follows⟩ := run.follows
  refine ⟨turns, follows.inTurns, follows.head_pid, ?_, ?_, ?_⟩
  · intro runner call isAdding
    simp [nobody] at isAdding
  · intro first second firstCall secondCall firstAdding
    simp [nobody] at firstAdding
  · intro process isAdded
    simp [noneAdded] at isAdded

/-- In every run in which no call of `process_add` is disturbed, the process
that a call has added is in the list exactly once when the call returns. -/
theorem created_process_kept {switchPml : Word → Word} {start state : AddState}
    (starts : start.Starts switchPml)
    (reaches : Reaches (step switchPml) (fun event state => Valid event state ∧ Allowed event state)
      start state) : state.Safe := by
  have inv : ∃ turns, state.Inv switchPml turns := by
    refine @Reaches.invariant _ _ _ _ _ _ (fun state => ∃ turns, state.Inv switchPml turns) reaches
      starts.inv ?_
    intro event state next inv isAllowed stepEq
    obtain ⟨turns, inv⟩ := inv
    exact inv.step isAllowed.1 isAllowed.2 stepEq
  obtain ⟨turns, inv⟩ := inv
  exact inv.safe

def lsProcess : NewProcess := ⟨0xa000#64, 0xa100#64, 0xb000#64, 0xc000#64⟩

def threeProcesses : AddState :=
  ⟨adderCreated, fun _ => none, none⟩

theorem threeProcesses_starts : threeProcesses.Starts id :=
  ⟨adderCreated_run, fun _ => rfl, rfl⟩

/-- Events about which there is nothing to say: no process is created, none
exits, and no link is made where the list goes on. -/
def undisturbed : AddEvent → AddState → Bool
  | .create _, _ | .exit _ _, _ => false
  | .next, state => (state.adding state.sched.currentProcess).all fun call =>
      call.pc ≠ .link || (state.sched.process call.iterator).next = 0#64
  | .tick _ _, _ => true

def noCreation : AddEvent → AddState → Bool
  | .create _, _ => false
  | .exit _ _, _ | .next, _ | .tick _ _, _ => true

theorem undisturbed_allowed (event : AddEvent) (state : AddState) (passes : undisturbed event state) :
    Valid event state ∧ Allowed event state := by
  cases event with
  | create new => cases passes
  | exit fuel frame => cases passes
  | tick fuel frame => exact ⟨trivial, trivial⟩
  | next =>
      refine ⟨trivial, fun call isAdding isLink => ?_⟩
      simpa [undisturbed, isAdding, isLink] using passes

theorem noCreation_valid (event : AddEvent) (state : AddState) (passes : noCreation event state) :
    Valid event state := by
  cases event with
  | create new => cases passes
  | exit fuel frame => trivial
  | tick fuel frame => trivial
  | next => trivial

def promptRuns : AddState :=
  after (checked undisturbed (step id)) (List.replicate 4 (.tick 9 0xd000#64)) threeProcesses

def promptCreates : AddState :=
  { promptRuns with sched := newBlock promptRuns.sched lsProcess }.goto 0x4000#64
    ⟨0xa000#64, 0#64, .load⟩

def promptAtEnd : AddState :=
  after (checked undisturbed (step id)) (List.replicate 8 .next) promptCreates

theorem adding_of_ticks {check : AddEvent → AddState → Bool} {count : Nat} {frame : Word}
    {next : AddState}
    (ran : run (checked check (step id)) (List.replicate count (.tick fuel frame)) state =
      some next) : next.adding = state.adding := by
  induction count generalizing state with
  | zero =>
      simp only [List.replicate_zero, run, Option.some.injEq] at ran
      rw [← ran]
  | succ count ih =>
      simp only [List.replicate_succ, run, checked, Option.bind_eq_some_iff,
        Option.ite_none_right_eq_some] at ran
      obtain ⟨middle, ⟨-, stepEq⟩, rest⟩ := ran
      obtain ⟨returned, sched, -, rfl⟩ := called_eq_some stepEq
      have kept := ih rest
      exact kept

theorem promptAtEnd_reached : Reaches (step id)
    (fun event state => Valid event state ∧ Allowed event state) threeProcesses promptAtEnd := by
  have ticks := run_eq_after (by decide +kernel : (run (checked undisturbed (step id))
    (List.replicate 4 (.tick 9 0xd000#64)) threeProcesses).isSome)
  have nobody : promptRuns.adding = fun _ => none := adding_of_ticks ticks
  have current : promptRuns.sched.currentProcess = 0x4000#64 := by decide +kernel
  have listed : promptRuns.sched.Listed [0x1000#64, 0x4000#64, 0x7000#64] := by
    have links : promptRuns.sched.processesList = 0x1000#64 ∧
        (promptRuns.sched.process 0x1000#64).next = 0x4000#64 ∧
        (promptRuns.sched.process 0x4000#64).next = 0x7000#64 ∧
        (promptRuns.sched.process 0x7000#64).next = 0#64 := by decide +kernel
    obtain ⟨head, second, third, last⟩ := links
    exact ⟨head, by decide, second, by decide, third, by decide, last⟩
  have creates : step id (.create lsProcess) promptRuns = some promptCreates := by
    simp [step, current, nobody, promptCreates, lsProcess]
  have valid : Valid (.create lsProcess) promptRuns := by
    refine ⟨by decide, fun pointers others => ?_, fun runner call isAdding => ?_⟩
    · rw [Links.unique others listed]
      simp [lsProcess]
    · simp [nobody] at isAdding
  have started : Reaches (step id) (fun event state => Valid event state ∧ Allowed event state)
      threeProcesses promptCreates :=
    (Reaches.refl.run_checked undisturbed_allowed ticks).tail ⟨valid, trivial⟩ creates
  exact started.run_checked undisturbed_allowed (run_eq_after (by decide +kernel))

def linkedInTime : AddState :=
  after (checked undisturbed (step id)) [.next] promptAtEnd

theorem created_process_kept_prompt :
    linkedInTime.added = some 0xa000#64 ∧ linkedInTime.Safe :=
  ⟨by decide +kernel, created_process_kept threeProcesses_starts
    (promptAtEnd_reached.run_checked undisturbed_allowed (run_eq_after (by decide +kernel)))⟩

def linkedTooLate : AddState :=
  after (checked noCreation (step id)) (List.replicate 3 (.tick 9 0xd000#64) ++ [.exit 9 0xe000#64] ++
    List.replicate 3 (.tick 9 0xd000#64) ++ [.next]) promptAtEnd

/-- The new process is linked behind one that has been deleted, and cannot be
reached any more. -/
theorem created_process_lost :
    threeProcesses.Starts id ∧ Reaches (step id) Valid threeProcesses linkedTooLate ∧
      ¬linkedTooLate.Safe := by
  refine ⟨threeProcesses_starts, ?_, fun safe => ?_⟩
  · exact (promptAtEnd_reached.mono fun _ _ allowed => allowed.1).run_checked noCreation_valid
      (run_eq_after (by decide +kernel))
  · have links : linkedTooLate.added = some 0xa000#64 ∧
        linkedTooLate.sched.processesList = 0x1000#64 ∧
        (linkedTooLate.sched.process 0x1000#64).next = 0x4000#64 ∧
        (linkedTooLate.sched.process 0x4000#64).next = 0#64 := by decide +kernel
    obtain ⟨isAdded, head, second, last⟩ := links
    have listed : linkedTooLate.sched.Listed [0x1000#64, 0x4000#64] :=
      ⟨head, by decide, second, by decide, last⟩
    obtain ⟨pointers, others, once⟩ := safe 0xa000#64 isAdded
    rw [Links.unique others listed] at once
    simp at once

end AddState

end MmdOS
