import MmdOS.SchedulerCalls

/-!
# Runs of the scheduler

A run consists of calls of `process_create`, timer ticks and exits of the
running process.  Each step is recorded with the states around it, and what a
run guarantees is read off the records: which processes are alive, where each
of them was interrupted, and who was given a quantum when.  In these runs `kfree`
comes back when a process exits.
-/

namespace MmdOS

open LinkedList RoundRobin
open Function (update update_self update_of_ne)

variable {pointer : Word} {pointers : List Word} {rota rest : Rota Word}
variable {kfree : Kfree} {switchPml : Word → Word} {state : SchedState} {turns : Turns Word}
variable {trace : List SchedRecord}

inductive SchedEvent
  | create (new : NewProcess)
  | tick (frame : Word)
  | exit (frame : Word)

/-- A step with the states around it.  The context that the call of `schedule`
returns is not used for `process_create`. -/
structure SchedRecord where
  before : SchedState
  event : SchedEvent
  returned : Word
  after : SchedState

namespace SchedState

def pid (state : SchedState) (pointer : Word) : Nat :=
  (state.process pointer).pid

def Unlisted (state : SchedState) (pointer : Word) : Prop :=
  ∀ pointers, state.Listed pointers → pointer ∉ pointers

def Running (state : SchedState) (pid : Nat) : Prop :=
  state.currentProcess ≠ 0#64 ∧ state.pid state.currentProcess = pid

instance (state : SchedState) (pid : Nat) : Decidable (state.Running pid) :=
  inferInstanceAs (Decidable (_ ∧ _))

end SchedState

namespace SchedRecord

/-- What may happen: `kalloc` hands out a block that is not in use, and the
idle process does not exit. -/
def Valid (switchPml : Word → Word) (record : SchedRecord) : Prop :=
  match record.event with
  | .create new => new.process ≠ 0#64 ∧ record.before.Unlisted new.process ∧
      Returns (fun fuel => processCreate fuel record.before new) record.after
  | .tick frame => Returns (fun fuel => timerHandler freed switchPml fuel record.before frame)
      (.ok (record.returned, record.after))
  | .exit frame => record.before.currentProcess ≠ 0#64 ∧
      record.before.pid record.before.currentProcess ≠ 1 ∧
      Returns (fun fuel => processExit freed switchPml fuel record.before frame)
        (.ok (record.returned, record.after))

def IsCall (record : SchedRecord) : Prop :=
  match record.event with
  | .create _ => False
  | .tick _ | .exit _ => True

instance (record : SchedRecord) : Decidable record.IsCall :=
  match record with
  | ⟨_, .create _, _, _⟩ => isFalse id
  | ⟨_, .tick _, _, _⟩ => isTrue trivial
  | ⟨_, .exit _, _, _⟩ => isTrue trivial

def Selects (record : SchedRecord) (pid : Nat) : Prop :=
  record.IsCall ∧ record.after.Running pid

def Begins (record : SchedRecord) (pid : Nat) : Prop :=
  record.Selects pid ∧
    (record.after.process record.after.currentProcess).remainingQuantum = defaultQuantum

end SchedRecord

inductive SchedRun (switchPml : Word → Word) : List SchedRecord → SchedState → Prop
  | boot {state : SchedState} : state.processesList = 0#64 → state.currentProcess = 0#64 →
      state.nextPid = 1 → SchedRun switchPml [] state
  | step {trace : List SchedRecord} {record : SchedRecord} :
      SchedRun switchPml trace record.before → record.Valid switchPml →
        SchedRun switchPml (record :: trace) record.after

/-- The processes that have been created and not deleted, in the order of their
creation. -/
def livePids : List SchedRecord → List Nat
  | [] => []
  | record :: trace =>
      match record.event with
      | .create _ => livePids trace ++ [record.before.nextPid]
      | .tick _ => livePids trace
      | .exit _ => (livePids trace).erase (record.before.pid record.before.currentProcess)

/-- The context passed to `schedule` at its last call made while the process
was running, or the one it was created with. -/
def savedContext : List SchedRecord → Nat → Option Word
  | [], _ => none
  | record :: trace, pid =>
      match record.event with
      | .create new =>
          if record.before.nextPid = pid then some new.context else savedContext trace pid
      | .tick frame | .exit frame =>
          if record.before.Running pid then some frame else savedContext trace pid

def turnsOf : List SchedRecord → Turns Nat
  | [] => .idle []
  | record :: trace =>
      match record.event with
      | .create _ => (turnsOf trace).join record.before.nextPid
      | .tick _ => (turnsOf trace).tick 3
      | .exit _ => (turnsOf trace).leave 3

def SchedState.contexts (state : SchedState) (pointer : Word) : Word :=
  (state.process pointer).context

/-- The state as turns of the processes in the list. -/
def InTurns (switchPml : Word → Word) (state : SchedState) : Turns Word → Prop
  | .idle pointers => Booting state pointers
  | .turn rota left => Scheduled switchPml state rota left

section Turns

variable {final base : SchedState}
variable {rota rest : Rota Word} {members visits : List Word} {selected context : Word} {flag : Bool}
variable {quantum : Nat} {contexts : Word → Word}

theorem endSchedule_returned :
    (endSchedule switchPml final selected flag).1 = (final.process selected).context := by
  cases flag <;> simp [endSchedule, schedulerContextSwitch, SchedState.setStatus,
    SchedState.modify, SchedState.processSetCurrent]

theorem endSchedule_of_ne (different : pointer ≠ selected) :
    (endSchedule switchPml final selected flag).2.process pointer = final.process pointer := by
  rw [endSchedule_state]
  exact update_of_ne different _ _

theorem endSchedule_field {β : Type} (field : Process → β)
    (same : ∀ (process : Process) status quantum,
      field { process with status, remainingQuantum := quantum } = field process)
    (pointer : Word) :
    field ((endSchedule switchPml final selected flag).2.process pointer) =
      field (final.process pointer) := by
  by_cases equal : pointer = selected
  · rw [equal, endSchedule_state]
    simp [same]
  · rw [endSchedule_of_ne equal]

/-- A search has ended at the current process of a rota, and the others are ready. -/
theorem Search.scheduled
    (search : Search kfree context state.started state.started.currentProcess false visits
      rota.current flag final) (listed : state.Listed members)
    (current : state.currentProcess = 0#64 ∨ state.currentProcess ∈ members)
    (member : rota.current ∈ members) (finalListed : final.Listed rota.members)
    (ready : ∀ pointer ∈ rota.waiting, (final.process pointer).status = .ready)
    (range : 1 ≤ quantum ∧ quantum ≤ 3)
    (left : (if flag then defaultQuantum else (final.process rota.current).remainingQuantum) =
      BitVec.ofNat 16 quantum)
    (place : flag = false → final.rsp0 = (final.process rota.current).kstack ∧
      final.cr3 = switchPml (final.process rota.current).vmm)
    (frame : Frame base members contexts final) :
    ∃ after, Returns (fun fuel => schedule kfree switchPml fuel state context)
        (.ok (contexts rota.current, after)) ∧
      Scheduled switchPml after rota quantum ∧ Frame base members contexts after := by
  have kept := fun {β : Type} => @endSchedule_field switchPml final rota.current flag β
  have own := congrArg (fun state => state.process rota.current)
    (endSchedule_state switchPml final rota.current flag)
  dsimp only at own
  rw [update_self] at own
  refine ⟨(endSchedule switchPml final rota.current flag).2, ?_, ?_, ?_⟩
  · rw [← frame.context_eq, ← @endSchedule_returned switchPml final rota.current flag]
    exact search.schedule_returns listed current switchPml
  · refine ⟨endSchedule_listed finalListed _ _ _, endSchedule_current _ _ _ _, by rw [own], ?_,
      by rw [own]; exact left, range, ?_, ?_⟩
    · intro pointer waits
      rw [endSchedule_of_ne (waiting_ne_current finalListed waits)]
      exact ready pointer waits
    · rw [kept Process.kstack fun _ _ _ => rfl, endSchedule_state]
      cases flag with
      | true => rfl
      | false => exact (place rfl).1
    · rw [kept Process.vmm fun _ _ _ => rfl, endSchedule_state]
      cases flag with
      | true => rfl
      | false => exact (place rfl).2
  · refine ⟨fun pointer => ?_, fun pointer => ?_, ?_, fun pointer outside => ?_⟩
    · rw [kept Process.pid fun _ _ _ => rfl, frame.pid_eq]
    · rw [kept Process.context fun _ _ _ => rfl, frame.context_eq]
    · rw [endSchedule_state]
      exact frame.nextPid_eq
    · rw [endSchedule_of_ne fun same : pointer = _ => outside (same ▸ member)]
      exact frame.outside_eq pointer outside

theorem Search.switched
    (search : Search kfree context state.started state.started.currentProcess false visits
      rota.current true final) (listed : state.Listed members)
    (current : state.currentProcess = 0#64 ∨ state.currentProcess ∈ members)
    (member : rota.current ∈ members) (finalListed : final.Listed rota.members)
    (ready : ∀ pointer ∈ rota.members, (final.process pointer).status = .ready)
    (frame : Frame base members contexts final) :
    ∃ after, Returns (fun fuel => schedule kfree switchPml fuel state context)
        (.ok ((after.process rota.current).context, after)) ∧
      Scheduled switchPml after rota 3 ∧ Frame base members contexts after := by
  obtain ⟨after, returns, scheduled, kept⟩ :=
    @Search.scheduled kfree switchPml _ _ _ _ _ _ _ _ 3 _ search
    listed current member finalListed
    (fun pointer waits => ready pointer
      (rota.perm_members.mem_iff.mp (List.mem_cons_of_mem _ waits)))
    ⟨by decide, le_rfl⟩ rfl (fun notSet => absurd notSet (by decide)) frame
  rw [← kept.context_eq] at returns
  exact ⟨after, returns, scheduled, kept⟩

/-- A search stops at a process that is ready. -/
theorem search_ready {switched : Bool} (listed : state.Listed rota.members)
    (isReady : (state.process rota.current).status = .ready) :
    Search kfree context state rota.current switched [rota.current] rota.current true state := by
  have stops : state.verdict rota.current = .stop := by
    rw [SchedState.verdict, Process.verdict, isReady]
  have search := @Search.stop kfree context state rota.current switched
    (processesList_ne_null listed) stops
  rwa [look_of_ready isReady, Process.switches, isReady, Bool.or_true] at search

/-- The first call of `schedule` switches to the head of the list. -/
theorem schedule_first {pointer : Word} {pointers : List Word}
    (booting : Booting state (pointer :: pointers)) (context : Word) :
    ∃ after, Returns (fun fuel => schedule kfree switchPml fuel state context)
        (.ok ((after.process pointer).context, after)) ∧
      Scheduled switchPml after ⟨[], pointer, pointers⟩ 3 ∧
      Frame state (pointer :: pointers) (fun pointer => (state.process pointer).context) after := by
  have startedEq : state.started = state.processSetCurrent pointer := by
    rw [SchedState.started, if_pos booting.current_eq, booting.listed.1]
  have listed : (state.processSetCurrent pointer).Listed (Rota.mk [] pointer pointers).members :=
    booting.listed
  have search : Search kfree context state.started state.started.currentProcess false [pointer]
      pointer true (state.processSetCurrent pointer) := by
    rw [startedEq]
    exact search_ready listed (booting.ready pointer List.mem_cons_self)
  exact search.switched booting.listed (.inl booting.current_eq) List.mem_cons_self listed
    booting.ready ⟨fun _ => rfl, fun _ => rfl, rfl, fun _ _ => rfl⟩

theorem Scheduled.started_eq (scheduled : Scheduled switchPml state rota quantum) :
    state.started = state := by
  rw [SchedState.started, if_neg scheduled.currentProcess_ne_null]

theorem Scheduled.current_mem (scheduled : Scheduled switchPml state rota quantum) :
    state.currentProcess ∈ rota.members := by
  rw [scheduled.current_eq]
  exact rota.current_mem

theorem quantum_left (quantum : Nat) (range : 1 ≤ quantum + 1 ∧ quantum + 1 ≤ 3) :
    BitVec.ofNat 16 (quantum + 1) - 1#16 = BitVec.ofNat 16 quantum ∧
      (0 < (BitVec.ofNat 16 quantum).toInt ↔ 1 ≤ quantum) := by
  obtain rfl | rfl | rfl : quantum = 0 ∨ quantum = 1 ∨ quantum = 2 := by omega
  · decide
  · decide
  · decide

section

variable (scheduled : Scheduled switchPml state rota (quantum + 1))
include scheduled

/-- The current process as a round leaves it. -/
theorem Scheduled.looked (context uptime : Word) :
    (state.process rota.current).looked context uptime =
      { state.process rota.current with
        status := if 1 ≤ quantum then .running else .ready
        remainingQuantum := BitVec.ofNat 16 quantum
        context } := by
  obtain ⟨left, positive⟩ := quantum_left quantum scheduled.quantum_range
  simp only [Process.looked, scheduled.running, scheduled.quantum_eq, left, positive]

theorem Scheduled.frame_look (context : Word) :
    Frame state rota.members (update (fun pointer => (state.process pointer).context)
      rota.current context) (state.look context rota.current) := by
  refine ⟨fun pointer => ?_, fun pointer => ?_, rfl, fun pointer outside => ?_⟩
  · exact modify_field _ _ _ _ Process.pid fun _ => Process.looked_field _ fun _ _ _ _ _ => rfl
  · by_cases equal : pointer = rota.current
    · rw [equal, look_self, scheduled.looked, update_self]
    · rw [look_of_ne equal, update_of_ne equal]
  · exact look_of_ne (rota.ne_current outside)

/-- While its quantum lasts, the process goes on. -/
theorem schedule_keep (more : 1 ≤ quantum) (context : Word) :
    ∃ after, Returns (fun fuel => schedule kfree switchPml fuel state context)
        (.ok (context, after)) ∧
      Scheduled switchPml after rota quantum ∧
      Frame state rota.members (update (fun pointer => (state.process pointer).context)
        rota.current context) after := by
  obtain ⟨left, positive⟩ := quantum_left quantum scheduled.quantum_range
  have lasts : 0 < ((state.process rota.current).remainingQuantum - 1#16).toInt := by
    rw [scheduled.quantum_eq, left]
    exact positive.mpr more
  have stops : state.verdict rota.current = .stop := by
    rw [SchedState.verdict, Process.verdict, scheduled.running]
    exact if_pos lasts
  have search := @Search.stop kfree context state rota.current false
    (processesList_ne_null scheduled.listed) stops
  have stays : (state.process rota.current).switches = false := by
    rw [Process.switches, scheduled.running]
    exact decide_eq_false (not_not_intro lasts)
  rw [stays, Bool.false_or] at search
  have ended := @Search.scheduled kfree switchPml state _ _ rota rota.members _ context
    false quantum _
    (by rw [scheduled.started_eq, scheduled.current_eq]; exact search) scheduled.listed
    (.inr scheduled.current_mem) rota.current_mem (scheduled.listed.look _) ?_
    ⟨more, by have := scheduled.quantum_range; omega⟩ ?_ ?_ (scheduled.frame_look context)
  · rwa [update_self] at ended
  · intro pointer waits
    rw [look_of_ne (waiting_ne_current scheduled.listed waits)]
    exact scheduled.ready pointer waits
  · rw [look_self, scheduled.looked]
    rfl
  · rw [look_self, scheduled.looked]
    exact fun _ => ⟨scheduled.rsp0_eq, scheduled.cr3_eq⟩

end

/-- At the end of its quantum the process hands the turn on. -/
theorem schedule_expire (scheduled : Scheduled switchPml state rota 1) (context : Word) :
    ∃ after, Returns (fun fuel => schedule kfree switchPml fuel state context)
        (.ok ((after.process rota.pass.current).context, after)) ∧
      Scheduled switchPml after rota.pass 3 ∧
      Frame state rota.members (update (fun pointer => (state.process pointer).context)
        rota.current context) after := by
  have spent : ¬0 < ((state.process rota.current).remainingQuantum - 1#16).toInt := by
    rw [scheduled.quantum_eq]
    decide
  have passes : state.verdict rota.current = .pass := by
    rw [SchedState.verdict, Process.verdict, scheduled.running]
    exact if_neg spent
  have listed : (state.look context rota.current).Listed rota.pass.members := by
    rw [Rota.members_pass]
    exact scheduled.listed.look _
  have ready : ∀ pointer ∈ rota.pass.members,
      ((state.look context rota.current).process pointer).status = .ready := by
    rw [Rota.members_pass]
    intro pointer member
    rcases List.mem_cons.mp (rota.perm_members.mem_iff.mpr member) with rfl | waits
    · rw [look_self, scheduled.looked]
      rfl
    · rw [look_of_ne (waiting_ne_current scheduled.listed waits)]
      exact scheduled.ready pointer waits
  have search : Search kfree context state.started state.started.currentProcess false
      [rota.current, rota.pass.current] rota.pass.current true (state.look context rota.current) := by
    rw [scheduled.started_eq, scheduled.current_eq]
    refine .pass (processesList_ne_null scheduled.listed) passes ?_
    rw [show nextInRing (state.look context rota.current) state.processesList rota.current =
      rota.pass.current from nextInRing_eq (scheduled.listed.look _)]
    exact search_ready listed (ready _ rota.pass.current_mem)
  exact search.switched scheduled.listed (.inr scheduled.current_mem)
    (rota.members_pass ▸ rota.pass.current_mem) listed ready (scheduled.frame_look context)

/-- When the current process is deleted, it leaves the rota. -/
theorem processDelete_current (listed : state.Listed rota.members)
    (current : state.currentProcess = rota.current) (left : rota.leave = some rest)
    (frees : kfree rota.current = some (.ok ())) :
    ∃ next, Returns (fun fuel => processDelete kfree fuel state rota.current) (.ok next) ∧
      next.Listed rest.members ∧ next.currentProcess = rest.current ∧
      next.nextPid = state.nextPid ∧
      (∀ pointer, (next.process pointer).unlinked = (state.process pointer).unlinked) ∧
      ∀ pointer, pointer ∉ rota.members → next.process pointer = state.process pointer := by
  obtain ⟨gone, unlinkEq, goneListed, sameNext, sameCurrent, samePid, sameRest, sameOutside⟩ :=
    unlinkProcess_eq listed
  have advanced := advanceCurrent_eq left (Links.behind listed) goneListed sameNext
    (sameCurrent.trans current)
  rw [← Rota.members_leave left] at goneListed
  refine ⟨gone.processSetCurrent rest.current, ⟨rota.before.length + 1, fun fuel enough => ?_⟩,
    goneListed, rfl, samePid, sameRest, sameOutside⟩
  dsimp only
  rw [processDelete, if_neg (Links.ne_null listed rota.current_mem), unlinkEq fuel enough]
  simp only [frees, advanced]

/-- A process that exits leaves the rota, and the turn passes on. -/
theorem schedule_exit (scheduled : Scheduled switchPml state rota quantum)
    (left : rota.leave = some rest) (frees : kfree rota.current = some (.ok ())) (context : Word) :
    ∃ after, Returns
        (fun fuel => schedule kfree switchPml fuel (state.setStatus rota.current .dead) context)
        (.ok ((after.process rest.current).context, after)) ∧
      Scheduled switchPml after rest 3 ∧
      Frame state rota.members (fun pointer => (state.process pointer).context) after := by
  let dead := state.setStatus rota.current .dead
  have deadField : ∀ {β : Type} (field : Process → β),
      (∀ process status, field { process with status } = field process) →
      ∀ pointer, field (dead.process pointer) = field (state.process pointer) :=
    fun field same _ => modify_field _ _ _ _ field fun process => same process _
  have listed : dead.Listed rota.members :=
    scheduled.listed.congr rfl fun pointer _ => deadField Process.next (fun _ _ => rfl) pointer
  have isDead : dead.verdict rota.current = .reap :=
    Process.verdict_eq_reap.mpr (by simp [dead, SchedState.setStatus])
  have current : dead.currentProcess = rota.current := scheduled.current_eq
  obtain ⟨next, deleted, nextListed, nextCurrent, samePid, sameRest, sameOutside⟩ :=
    processDelete_current listed current left frees
  have nextField : ∀ {β : Type} (field : Process → β),
      (∀ process, field process.unlinked = field process) →
      ∀ pointer, field (next.process pointer) = field (dead.process pointer) := by
    intro β field same pointer
    rw [← same, sameRest, same]
  have inRota : ∀ pointer ∈ rest.members, pointer ∈ rota.waiting := by
    intro pointer member
    rw [Rota.members_leave left] at member
    rw [Rota.waiting, List.mem_append, or_comm, ← List.mem_append]
    exact member
  have ready : ∀ pointer ∈ rest.members, (next.process pointer).status = .ready := by
    intro pointer member
    have different := waiting_ne_current scheduled.listed (inRota pointer member)
    rw [nextField Process.status fun _ => rfl]
    simp only [dead, SchedState.setStatus, modify_of_ne _ _ _ _ different]
    exact scheduled.ready pointer (inRota pointer member)
  have startedEq : dead.started = dead := by
    rw [SchedState.started, if_neg (by rw [current]; exact scheduled.current_ne_null)]
  have frame : Frame state rota.members (fun pointer => (state.process pointer).context) next := by
    refine ⟨fun pointer => ?_, fun pointer => ?_, samePid, fun pointer outside => ?_⟩
    · exact (nextField Process.pid (fun _ => rfl) _).trans (deadField _ (fun _ _ => rfl) _)
    · exact (nextField Process.context (fun _ => rfl) _).trans (deadField _ (fun _ _ => rfl) _)
    · exact (sameOutside pointer outside).trans (modify_of_ne _ _ _ _ (rota.ne_current outside))
  have search : Search kfree context dead.started dead.started.currentProcess false
      [rota.current, rest.current] rest.current true next := by
    rw [startedEq, current]
    refine .reap (processesList_ne_null listed) isDead deleted ?_
    rw [nextCurrent]
    exact search_ready nextListed (ready _ rest.current_mem)
  have inMembers : rest.current ∈ rota.members :=
    rota.perm_members.mem_iff.mp (List.mem_cons_of_mem _ (inRota _ rest.current_mem))
  exact search.switched listed (.inr (current ▸ rota.current_mem)) inMembers nextListed ready frame

end Turns

section Calls

section

variable (inTurns : InTurns switchPml state turns)
include inTurns

theorem InTurns.listed : state.Listed turns.members := by
  cases turns with
  | idle pointers => exact Booting.listed inTurns
  | turn rota left => exact Scheduled.listed inTurns

theorem InTurns.congr {after : SchedState}
    (agree : ∀ pointer ∈ turns.members, after.process pointer = state.process pointer)
    (list_eq : after.processesList = state.processesList)
    (current_eq : after.currentProcess = state.currentProcess) (rsp0_eq : after.rsp0 = state.rsp0)
    (cr3_eq : after.cr3 = state.cr3) : InTurns switchPml after turns := by
  have listed : after.Listed turns.members :=
    inTurns.listed.congr list_eq fun pointer member => by rw [agree pointer member]
  cases turns with
  | idle pointers =>
      refine ⟨listed, current_eq.trans inTurns.current_eq, fun pointer member => ?_⟩
      rw [agree pointer member]
      exact inTurns.ready pointer member
  | turn rota left =>
      have current : after.process rota.current = state.process rota.current :=
        agree _ rota.current_mem
      refine ⟨listed, current_eq.trans inTurns.current_eq, ?_, fun pointer waits => ?_, ?_,
        inTurns.quantum_range, ?_, ?_⟩
      · rw [current]
        exact inTurns.running
      · rw [agree pointer (rota.perm_members.mem_iff.mp (List.mem_cons_of_mem _ waits))]
        exact inTurns.ready pointer waits
      · rw [current]
        exact inTurns.quantum_eq
      · rw [current, rsp0_eq]
        exact inTurns.rsp0_eq
      · rw [current, cr3_eq]
        exact inTurns.cr3_eq

theorem InTurns.uptime (uptime : Word) :
    InTurns switchPml { state with uptime } turns :=
  inTurns.congr (fun _ _ => rfl) rfl rfl rfl rfl

theorem InTurns.link {process : Word} {after : SchedState} (linked : Linked state process after)
    (fresh : process ∉ turns.members) : InTurns switchPml after (turns.join process) := by
  cases turns with
  | idle pointers => exact linked.booting inTurns fresh
  | turn rota left => exact linked.scheduled inTurns fresh

end

def contextsAfter (state : SchedState) (frame : Word) : Turns Word → Word → Word
  | .idle _ => state.contexts
  | .turn rota _ => update state.contexts rota.current frame

/-- The state after a call of `schedule`, and the context the call returns. -/
structure Called (switchPml : Word → Word) (state : SchedState) (pointers : List Word)
    (contexts : Word → Word) (turns : Turns Word) (returned : Word) (after : SchedState) : Prop where
  inTurns : InTurns switchPml after turns
  frame : Frame state pointers contexts after
  running : after.currentProcess ≠ 0#64
  returned_eq : returned = after.contexts after.currentProcess

theorem Frame.of_uptime {uptime : Word} {contexts : Word → Word} {after : SchedState}
    (kept : Frame { state with uptime } pointers contexts after) :
    Frame state pointers contexts after :=
  ⟨kept.pid_eq, kept.context_eq, kept.nextPid_eq, kept.outside_eq⟩

section

variable (inTurns : InTurns switchPml state turns)
include inTurns

theorem timerHandler_returns (notEmpty : turns.members ≠ []) (frame : Word) :
    ∃ returned after,
      Returns (fun fuel => timerHandler kfree switchPml fuel state frame) (.ok (returned, after)) ∧
      Called switchPml state turns.members (contextsAfter state frame turns) (turns.tick 3) returned
        after := by
  have later := inTurns.uptime (state.uptime + 10#64)
  cases turns with
  | idle pointers =>
      cases pointers with
      | nil => exact absurd rfl notEmpty
      | cons pointer pointers =>
          obtain ⟨after, returns, scheduled, kept⟩ :=
            @schedule_first kfree switchPml _ _ _ later frame
          refine ⟨_, after, returns, scheduled, kept.of_uptime, scheduled.currentProcess_ne_null, ?_⟩
          rw [scheduled.current_eq]
          rfl
  | turn rota left =>
      obtain ⟨positive, -⟩ := Scheduled.quantum_range inTurns
      obtain ⟨left, rfl⟩ := Nat.exists_eq_add_one_of_ne_zero (Nat.ne_of_gt positive)
      by_cases more : 1 ≤ left
      · obtain ⟨after, returns, scheduled, kept⟩ := schedule_keep later more frame
        refine ⟨_, after, returns, ?_, kept.of_uptime, scheduled.currentProcess_ne_null, ?_⟩
        · rw [Turns.tick_turn 3 more]
          exact scheduled
        · rw [scheduled.current_eq, SchedState.contexts, kept.context_eq, update_self]
      · obtain rfl : left = 0 := by omega
        obtain ⟨after, returns, scheduled, kept⟩ := schedule_expire later frame
        refine ⟨_, after, returns, ?_, kept.of_uptime, scheduled.currentProcess_ne_null, ?_⟩
        · exact scheduled
        · rw [scheduled.current_eq]
          rfl

theorem InTurns.called {frame returned : Word} {after : SchedState}
    (returns : Returns (fun fuel => timerHandler kfree switchPml fuel state frame)
      (.ok (returned, after))) :
    turns.members ≠ [] ∧
      Called switchPml state turns.members (contextsAfter state frame turns) (turns.tick 3) returned
        after := by
  by_cases isEmpty : turns.members = []
  · -- a tick without processes ends in a panic
    have noList : state.processesList = 0#64 := by
      have listed := inTurns.listed
      rw [isEmpty] at listed
      exact listed
    obtain ⟨bound, returnsEq⟩ := returns
    have := returnsEq bound le_rfl
    simp [timerHandler, schedule, noList] at this
  · obtain ⟨returned', after', returns', called⟩ := timerHandler_returns inTurns isEmpty frame
    obtain ⟨rfl, rfl⟩ := Prod.mk.inj (Except.ok.inj (returns.unique returns'))
    exact ⟨isEmpty, called⟩

theorem InTurns.exists_turn (running : state.currentProcess ≠ 0#64) :
    ∃ rota left, turns = .turn rota left ∧ Scheduled switchPml state rota left := by
  cases turns with
  | idle pointers => exact absurd (Booting.current_eq inTurns) running
  | turn rota left => exact ⟨rota, left, rfl, inTurns⟩

theorem InTurns.exists_leave (head : ∀ pointer ∈ turns.members.head?, state.pid pointer = 1)
    (running : state.currentProcess ≠ 0#64) (notIdle : state.pid state.currentProcess ≠ 1) :
    ∃ rota rest left, turns = .turn rota left ∧ Scheduled switchPml state rota left ∧
      rota.leave = some rest ∧ rota.members.head? ≠ some rota.current := by
  obtain ⟨rota, left, rfl, scheduled⟩ := inTurns.exists_turn running
  rw [scheduled.current_eq] at notIdle
  have notFirst : rota.members.head? ≠ some rota.current :=
    fun isFirst => notIdle (head rota.current isFirst)
  cases leaves : rota.leave with
  | some rest => exact ⟨rota, rest, left, rfl, scheduled, leaves, notFirst⟩
  | none => simp [Rota.leave_eq_none leaves] at notFirst

end

theorem processExit_returns {left : Nat} (scheduled : Scheduled switchPml state rota left)
    (isLeft : rota.leave = some rest) (frees : kfree rota.current = some (.ok ())) (frame : Word) :
    ∃ returned after,
      Returns (fun fuel => processExit kfree switchPml fuel state frame) (.ok (returned, after)) ∧
      Called switchPml state rota.members state.contexts (.turn rest 3) returned after := by
  have inTurns : InTurns switchPml state (.turn rota left) := scheduled
  have later := inTurns.uptime (state.uptime + 10#64)
  obtain ⟨after, returns, afterScheduled, kept⟩ := schedule_exit later isLeft frees frame
  refine ⟨after.contexts rest.current, after, ?_, afterScheduled, kept.of_uptime,
    afterScheduled.currentProcess_ne_null, ?_⟩
  · rw [← scheduled.current_eq] at returns
    exact returns
  · rw [afterScheduled.current_eq]

end Calls

/-- What is known of a run: the state carries out the turns that the records
describe, with the contexts that were saved. -/
structure Follows (switchPml : Word → Word) (trace : List SchedRecord) (state : SchedState)
    (turns : Turns Word) : Prop where
  inTurns : InTurns switchPml state turns
  pids_eq : turns.map state.pid = turnsOf trace
  increasing : (turnsOf trace).members.Pairwise (· < ·)
  below : ∀ pid ∈ (turnsOf trace).members, pid < state.nextPid
  grows : ∀ record ∈ trace, record.after.nextPid ≤ state.nextPid
  head : (turnsOf trace).members = [] ∧ state.nextPid = 1 ∨
    ∃ pids, (turnsOf trace).members = 1 :: pids
  saved : ∀ pointer ∈ turns.members,
    savedContext trace (state.pid pointer) = some (state.contexts pointer)
  called : ∀ record ∈ trace.head?, record.IsCall →
    state.currentProcess ≠ 0#64 ∧ record.returned = state.contexts state.currentProcess

section Follows

variable {after : SchedState}

theorem Follows.members_eq (follows : Follows switchPml trace state turns) :
    turns.members.map state.pid = (turnsOf trace).members := by
  rw [← Turns.members_map, follows.pids_eq]

/-- Different processes in the list have different pids. -/
theorem Follows.pid_inj (follows : Follows switchPml trace state turns) {first second : Word}
    (firstMem : first ∈ turns.members) (secondMem : second ∈ turns.members)
    (same : state.pid first = state.pid second) : first = second := by
  have distinct : (turns.members.map state.pid).Nodup := by
    rw [follows.members_eq]
    exact follows.increasing.imp fun isLess => Nat.ne_of_lt isLess
  exact List.inj_on_of_nodup_map distinct firstMem secondMem same

theorem Follows.create {record : SchedRecord} {new : NewProcess}
    (follows : Follows switchPml trace record.before turns) (event_eq : record.event = .create new)
    (created : Created record.before new record.after) (fresh : new.process ∉ turns.members) :
    Follows switchPml (record :: trace) record.after (turns.join new.process) := by
  have old : ∀ pointer ∈ turns.members, pointer ≠ new.process :=
    fun pointer member equal => fresh (equal ▸ member)
  have oldPid : ∀ pointer ∈ turns.members, record.after.pid pointer = record.before.pid pointer :=
    fun pointer member => created.toLinked.field Process.pid (fun _ => rfl) (old pointer member)
  have next : turnsOf (record :: trace) = (turnsOf trace).join record.before.nextPid := by
    simp [turnsOf, event_eq]
  refine ⟨follows.inTurns.link created.toLinked fresh, ?_, ?_, ?_, ?_, ?_, ?_, ?_⟩
  · rw [next, Turns.map_join, Turns.map_congr _ oldPid, follows.pids_eq]
    exact congrArg (fun pid => (turnsOf trace).join pid) created.pid_eq
  · rw [next, Turns.members_join, List.pairwise_append]
    exact ⟨follows.increasing, List.pairwise_singleton _ _, by simpa using follows.below⟩
  · rw [next, Turns.members_join, created.nextPid_eq]
    intro pid member
    rcases List.mem_append.mp member with isOld | isNew
    · exact Nat.lt_succ_of_lt (follows.below pid isOld)
    · rw [List.mem_singleton.mp isNew]
      exact Nat.lt_succ_self _
  · intro other member
    rcases List.mem_cons.mp member with rfl | inTrace
    · exact le_rfl
    · rw [created.nextPid_eq]
      exact Nat.le_succ_of_le (follows.grows other inTrace)
  · right
    rw [next, Turns.members_join]
    rcases follows.head with ⟨isEmpty, first⟩ | ⟨pids, headEq⟩
    · exact ⟨[], by simp [isEmpty, first]⟩
    · exact ⟨pids ++ [record.before.nextPid], by simp [headEq]⟩
  · intro pointer member
    rw [Turns.members_join] at member
    simp only [savedContext, event_eq]
    rcases List.mem_append.mp member with isOld | isNew
    · have isOther : record.before.nextPid ≠ record.after.pid pointer := by
        have inTurns : record.before.pid pointer ∈ (turnsOf trace).members := by
          rw [← follows.members_eq]
          exact List.mem_map_of_mem isOld
        rw [oldPid pointer isOld]
        exact Nat.ne_of_gt (follows.below _ inTurns)
      rw [if_neg isOther, oldPid pointer isOld, follows.saved pointer isOld]
      exact congrArg some (created.toLinked.field Process.context (fun _ => rfl)
        (old pointer isOld)).symm
    · have newPid : record.before.nextPid = record.after.pid new.process := created.pid_eq.symm
      rw [List.mem_singleton.mp isNew, if_pos newPid]
      exact congrArg some created.context_eq.symm
  · intro other isHead isCall
    simp only [List.head?_cons, Option.mem_def, Option.some.injEq] at isHead
    simp [← isHead, SchedRecord.IsCall, event_eq] at isCall

theorem Follows.call {record : SchedRecord} {contexts : Word → Word} {next : Turns Word}
    (follows : Follows switchPml trace record.before turns)
    (called : Called switchPml record.before pointers contexts next record.returned record.after)
    (next_eq : next.map record.before.pid = turnsOf (record :: trace))
    (sublist : next.members.Sublist turns.members)
    (head : ∃ pids, (turnsOf (record :: trace)).members = 1 :: pids)
    (saved : ∀ pointer ∈ next.members,
      savedContext (record :: trace) (record.before.pid pointer) = some (contexts pointer)) :
    Follows switchPml (record :: trace) record.after next := by
  have samePid : record.after.pid = record.before.pid := funext called.frame.pid_eq
  have smaller : (turnsOf (record :: trace)).members.Sublist (turnsOf trace).members := by
    rw [← next_eq, Turns.members_map, ← follows.members_eq]
    exact sublist.map _
  refine ⟨called.inTurns, ?_, follows.increasing.sublist smaller, ?_, ?_, .inr head, ?_, ?_⟩
  · rw [samePid, next_eq]
  · intro pid member
    rw [called.frame.nextPid_eq]
    exact follows.below pid (smaller.subset member)
  · intro other member
    rcases List.mem_cons.mp member with rfl | inTrace
    · exact le_rfl
    · rw [called.frame.nextPid_eq]
      exact follows.grows other inTrace
  · intro pointer member
    rw [samePid, saved pointer member]
    exact congrArg some (called.frame.context_eq pointer).symm
  · intro other isHead _
    simp only [List.head?_cons, Option.mem_def, Option.some.injEq] at isHead
    rw [← isHead]
    exact ⟨called.running, called.returned_eq⟩

theorem Follows.running_iff {left : Nat} (follows : Follows switchPml trace state (.turn rota left))
    (member : pointer ∈ rota.members) :
    state.Running (state.pid pointer) ↔ pointer = rota.current := by
  have scheduled : Scheduled switchPml state rota left := follows.inTurns
  rw [SchedState.Running, scheduled.current_eq]
  constructor
  · rintro ⟨-, same⟩
    exact follows.pid_inj member rota.current_mem same.symm
  · rintro rfl
    exact ⟨scheduled.current_ne_null, rfl⟩

theorem Follows.head_pid (follows : Follows switchPml trace state turns) :
    ∀ pointer ∈ turns.members.head?, state.pid pointer = 1 := by
  intro pointer isHead
  have pids := follows.members_eq
  rw [List.head?_eq_some_iff.mp isHead |>.choose_spec] at pids
  rcases follows.head with ⟨isEmpty, -⟩ | ⟨rest, headEq⟩
  · simp [isEmpty] at pids
  · rw [headEq, List.map_cons, List.cons.injEq] at pids
    exact pids.1

theorem Follows.head_of_ne_nil (follows : Follows switchPml trace state turns)
    (notEmpty : turns.members ≠ []) : ∃ pids, (turnsOf trace).members = 1 :: pids := by
  rcases follows.head with ⟨isEmpty, -⟩ | head
  · rw [← follows.members_eq, List.map_eq_nil_iff] at isEmpty
    exact absurd isEmpty notEmpty
  · exact head

theorem Follows.tick {record : SchedRecord} {frame : Word}
    (follows : Follows switchPml trace record.before turns) (event_eq : record.event = .tick frame)
    (notEmpty : turns.members ≠ [])
    (called : Called switchPml record.before turns.members
      (contextsAfter record.before frame turns) (turns.tick 3) record.returned record.after) :
    Follows switchPml (record :: trace) record.after (turns.tick 3) := by
  have next : turnsOf (record :: trace) = (turnsOf trace).tick 3 := by
    simp [turnsOf, event_eq]
  refine follows.call called ?_ ?_ ?_ ?_
  · rw [next, Turns.map_tick, follows.pids_eq]
  · rw [Turns.members_tick]
  · rw [next, Turns.members_tick]
    exact follows.head_of_ne_nil notEmpty
  · intro pointer member
    rw [Turns.members_tick] at member
    simp only [savedContext, event_eq]
    cases turns with
    | idle pointers =>
        have isNull : record.before.currentProcess = 0#64 := Booting.current_eq follows.inTurns
        rw [if_neg fun running => running.1 isNull]
        exact follows.saved pointer member
    | turn rota left =>
        by_cases isCurrent : pointer = rota.current
        · rw [if_pos ((follows.running_iff member).mpr isCurrent)]
          simp [contextsAfter, isCurrent]
        · rw [if_neg fun running => isCurrent ((follows.running_iff member).mp running)]
          simp [contextsAfter, isCurrent, follows.saved pointer member]

theorem Follows.exit {record : SchedRecord} {frame : Word} {left : Nat}
    (follows : Follows switchPml trace record.before (.turn rota left))
    (event_eq : record.event = .exit frame) (isLeft : rota.leave = some rest)
    (notFirst : rota.members.head? ≠ some rota.current)
    (called : Called switchPml record.before rota.members record.before.contexts (.turn rest 3)
      record.returned record.after) :
    Follows switchPml (record :: trace) record.after (.turn rest 3) := by
  have restMembers := Rota.members_leave isLeft
  have next : (Turns.turn rest 3).map record.before.pid = turnsOf (record :: trace) := by
    simp only [turnsOf, event_eq]
    rw [← follows.pids_eq, ← Turns.map_leave, Turns.leave_turn 3 isLeft]
  have sublist : rest.members.Sublist rota.members := by
    rw [restMembers, Rota.members]
    exact (List.sublist_cons_self _ _).append_left _
  refine follows.call called next sublist ?_ ?_
  · obtain ⟨pids, headEq⟩ := follows.head_of_ne_nil (members_ne_nil rota)
    rw [← follows.members_eq] at headEq
    rw [← next, Turns.members_map]
    refine List.head?_eq_some_iff.mp ?_
    change (rest.members.map record.before.pid).head? = some 1
    rw [List.head?_map, Rota.head?_leave isLeft notFirst, ← List.head?_map]
    exact List.head?_eq_some_iff.mpr ⟨pids, headEq⟩
  · intro pointer member
    have notCurrent : pointer ≠ rota.current := by
      rintro rfl
      have distinct : rota.members.Nodup := Links.nodup follows.inTurns.listed
      rw [Turns.members, restMembers] at member
      exact (List.nodup_middle.mp distinct).notMem member
    have isOld := sublist.subset member
    simp only [savedContext, event_eq]
    rw [if_neg fun running => notCurrent ((follows.running_iff isOld).mp running)]
    exact follows.saved pointer isOld

end Follows

section Runs

variable {record : SchedRecord}

theorem Follows.step (follows : Follows switchPml trace record.before turns)
    (valid : record.Valid switchPml) :
    ∃ next, Follows switchPml (record :: trace) record.after next := by
  rcases record with ⟨before, event, returned, after⟩
  cases event with
  | create new =>
      obtain ⟨notNull, unlisted, returns⟩ := valid
      have fresh := unlisted _ follows.inTurns.listed
      obtain ⟨after', returns', created⟩ :=
        processCreate_returns follows.inTurns.listed notNull fresh
      obtain rfl := returns.unique returns'
      exact ⟨_, follows.create rfl created fresh⟩
  | tick frame =>
      obtain ⟨notEmpty, called⟩ := follows.inTurns.called valid
      exact ⟨_, follows.tick rfl notEmpty called⟩
  | exit frame =>
      obtain ⟨running, notIdle, returns⟩ := valid
      obtain ⟨rota, rest, left, rfl, scheduled, isLeft, notFirst⟩ :=
        follows.inTurns.exists_leave follows.head_pid running notIdle
      obtain ⟨returned', after', returns', called⟩ := processExit_returns scheduled isLeft
        (freed_apply _) frame
      obtain ⟨rfl, rfl⟩ := Prod.mk.inj (Except.ok.inj (returns.unique returns'))
      exact ⟨_, follows.exit rfl isLeft notFirst called⟩

theorem SchedRun.follows (run : SchedRun switchPml trace state) :
    ∃ turns, Follows switchPml trace state turns := by
  induction run with
  | boot noList noCurrent firstPid =>
      refine ⟨.idle [], ⟨noList, noCurrent, by simp⟩, rfl, by simp [turnsOf, Turns.members],
        by simp [turnsOf, Turns.members], by simp, .inl ⟨rfl, firstPid⟩, by simp [Turns.members],
        by simp⟩
  | step _ valid ih =>
      obtain ⟨turns, follows⟩ := ih
      exact follows.step valid

theorem SchedRun.of_cons (run : SchedRun switchPml (record :: trace) state) :
    SchedRun switchPml trace record.before ∧ record.Valid switchPml ∧ state = record.after := by
  cases run with
  | step earlier valid => exact ⟨earlier, valid, rfl⟩

variable {later : List SchedRecord} {event : SchedEvent}

theorem SchedRun.of_append (run : SchedRun switchPml (later ++ record :: trace) state) :
    SchedRun switchPml (record :: trace) record.after := by
  induction later generalizing state with
  | nil =>
      obtain ⟨-, -, rfl⟩ := run.of_cons
      exact run
  | cons last later ih => exact ih run.of_cons.1

theorem SchedRun.livePids_eq (run : SchedRun switchPml trace state) :
    livePids trace = (turnsOf trace).members := by
  induction run with
  | boot => rfl
  | @step trace record run valid ih =>
      obtain ⟨turns, follows⟩ := run.follows
      rcases record with ⟨before, event, returned, after⟩
      cases event with
      | create new => simp [livePids, turnsOf, ih]
      | tick frame => simp [livePids, turnsOf, ih]
      | exit frame =>
          obtain ⟨running, notIdle, -⟩ := valid
          obtain ⟨rota, rest, left, rfl, scheduled, isLeft, -⟩ :=
            follows.inTurns.exists_leave follows.head_pid running notIdle
          have distinct : (rota.map before.pid).members.Nodup := by
            rw [Rota.members_map, ← Turns.members, follows.members_eq]
            exact follows.increasing.imp fun isLess => Nat.ne_of_lt isLess
          have isLeft' : (rota.map before.pid).leave = some (rest.map before.pid) := by
            rw [Rota.leave_map, isLeft, Option.map_some]
          simp only [livePids, turnsOf, ih, ← follows.pids_eq, Turns.map]
          rw [Turns.leave_turn 3 isLeft', Turns.members, Turns.members, Rota.members_leave isLeft',
            scheduled.current_eq]
          exact Rota.erase_current distinct

structure OneRunning (state : SchedState) (pointers : List Word) : Prop where
  current_mem : state.currentProcess ∈ pointers
  status_eq : ∀ pointer ∈ pointers, (state.process pointer).status =
    if pointer = state.currentProcess then .running else .ready
  quantum_mem : (state.process state.currentProcess).remainingQuantum ∈ [1#16, 2#16, 3#16]

theorem Scheduled.oneRunning {left : Nat} (scheduled : Scheduled switchPml state rota left) :
    OneRunning state rota.members where
  current_mem := by
    rw [scheduled.current_eq]
    exact rota.current_mem
  status_eq := by
    intro pointer member
    rw [scheduled.current_eq]
    split
    · next isCurrent =>
        rw [isCurrent]
        exact scheduled.running
    · next notCurrent =>
        have waits := List.mem_cons.mp (rota.perm_members.mem_iff.mpr member)
        exact scheduled.ready pointer (waits.resolve_left notCurrent)
  quantum_mem := by
    rw [scheduled.current_eq, scheduled.quantum_eq]
    obtain ⟨positive, atMost⟩ := scheduled.quantum_range
    obtain rfl | rfl | rfl : left = 1 ∨ left = 2 ∨ left = 3 := by omega
    · simp
    · simp
    · simp

def SchedState.Admits (state : SchedState) : SchedEvent → Prop
  | .create new => new.process ≠ 0#64 ∧ state.Unlisted new.process
  | .tick _ => state.processesList ≠ 0#64
  | .exit _ => state.currentProcess ≠ 0#64 ∧ state.pid state.currentProcess ≠ 1

theorem Follows.exists_valid (follows : Follows switchPml trace state turns)
    (admits : state.Admits event) :
    ∃ returned after, SchedRecord.Valid switchPml ⟨state, event, returned, after⟩ := by
  cases event with
  | create new =>
      obtain ⟨notNull, unlisted⟩ := admits
      obtain ⟨after, returns, -⟩ := processCreate_returns follows.inTurns.listed notNull
        (unlisted _ follows.inTurns.listed)
      exact ⟨0#64, after, notNull, unlisted, returns⟩
  | tick frame =>
      have notEmpty : turns.members ≠ [] := fun isEmpty =>
        admits ((Links.head_eq_null follows.inTurns.listed).mpr isEmpty)
      obtain ⟨returned, after, returns, -⟩ := timerHandler_returns follows.inTurns notEmpty frame
      exact ⟨returned, after, returns⟩
  | exit frame =>
      obtain ⟨running, notIdle⟩ := admits
      obtain ⟨rota, rest, left, rfl, scheduled, isLeft, -⟩ :=
        follows.inTurns.exists_leave follows.head_pid running notIdle
      obtain ⟨returned, after, returns, -⟩ := processExit_returns scheduled isLeft
        (freed_apply _) frame
      exact ⟨returned, after, running, notIdle, returns⟩

theorem SchedRun.running_iff (run : SchedRun switchPml trace state) :
    state.Running pid ↔ ∃ rota left, turnsOf trace = .turn rota left ∧ rota.current = pid := by
  obtain ⟨turns, follows⟩ := run.follows
  rw [← follows.pids_eq]
  cases turns with
  | idle pointers =>
      have notRunning : state.currentProcess = 0#64 := Booting.current_eq follows.inTurns
      simp [SchedState.Running, notRunning, Turns.map]
  | turn rota left =>
      have scheduled : Scheduled switchPml state rota left := follows.inTurns
      simp [SchedState.Running, scheduled.current_eq, scheduled.current_ne_null, Turns.map, Rota.map]

theorem SchedRun.extend (run : SchedRun switchPml trace state) (admits : state.Admits event) :
    ∃ record, record.event = event ∧ record.before = state ∧
      SchedRun switchPml (record :: trace) record.after := by
  obtain ⟨turns, follows⟩ := run.follows
  obtain ⟨returned, after, valid⟩ := follows.exists_valid admits
  exact ⟨⟨state, event, returned, after⟩, rfl, rfl, .step run valid⟩

def bootState : SchedState :=
  { process := fun _ => ⟨0, .spawned, 0#64, 0#16, 0#64, 0#64, 0#64, 0#64⟩
    processesList := 0#64
    currentProcess := 0#64
    nextPid := 1
    uptime := 0#64
    rsp0 := 0#64
    cr3 := 0#64 }

def idleProcess : NewProcess := ⟨0x1000#64, 0x1100#64, 0x2000#64, 0x3000#64⟩

def promptProcess : NewProcess := ⟨0x4000#64, 0x4100#64, 0x5000#64, 0x6000#64⟩

def idleCreated : SchedState := (processCreate 2 bootState idleProcess).getD bootState

def promptCreated : SchedState := (processCreate 2 idleCreated promptProcess).getD bootState

def idleStarted : Word × SchedState :=
  ((timerHandler freed id 4 promptCreated 0x7000#64).bind Except.toOption).getD (0#64, bootState)

def startRecords : List SchedRecord :=
  [⟨promptCreated, .tick 0x7000#64, idleStarted.1, idleStarted.2⟩,
    ⟨idleCreated, .create promptProcess, 0#64, promptCreated⟩,
    ⟨bootState, .create idleProcess, 0#64, idleCreated⟩]

theorem startRecords_run : SchedRun id startRecords idleStarted.2 := by
  have idleReturns : Returns (fun fuel => processCreate fuel bootState idleProcess) idleCreated :=
    .of_add 2 fun _ => rfl
  have promptReturns :
      Returns (fun fuel => processCreate fuel idleCreated promptProcess) promptCreated :=
    .of_add 2 fun _ => rfl
  have tickReturns : Returns (fun fuel => timerHandler freed id fuel promptCreated 0x7000#64)
      (.ok (idleStarted.1, idleStarted.2)) :=
    .of_add 4 fun _ => rfl
  have noProcess : bootState.Listed [] := rfl
  have oneProcess : idleCreated.Listed [0x1000#64] := ⟨rfl, by decide, rfl⟩
  have idleFresh : bootState.Unlisted idleProcess.process := by
    intro pointers listed
    rw [Links.unique listed noProcess]
    exact List.not_mem_nil
  have promptFresh : idleCreated.Unlisted promptProcess.process := by
    intro pointers listed
    rw [Links.unique listed oneProcess]
    simp [promptProcess]
  have booted : SchedRun id [] bootState := .boot rfl rfl rfl
  have first := @SchedRun.step id _ ⟨bootState, .create idleProcess, 0#64, idleCreated⟩ booted
    ⟨by decide, idleFresh, idleReturns⟩
  have second := @SchedRun.step id _ ⟨idleCreated, .create promptProcess, 0#64, promptCreated⟩ first
    ⟨by decide, promptFresh, promptReturns⟩
  exact @SchedRun.step id _ ⟨promptCreated, .tick 0x7000#64, idleStarted.1, idleStarted.2⟩ second
    tickReturns

def tickRecords (trace : List SchedRecord) (state : SchedState) :
    (frames : List Word) → Option (List SchedRecord × SchedState)
  | [] => some (trace, state)
  | frame :: frames => do
      let .ok (returned, after) ← timerHandler freed id 4 state frame | none
      tickRecords (⟨state, .tick frame, returned, after⟩ :: trace) after frames

theorem tickRecords_run {frames : List Word} {trace : List SchedRecord} {state after : SchedState}
    (run : SchedRun id trace state) (ended : tickRecords trace state frames = some (later, after)) :
    SchedRun id later after := by
  induction frames generalizing trace state with
  | nil =>
      obtain ⟨rfl, rfl⟩ := Prod.mk.inj (Option.some.inj ended)
      exact run
  | cons frame frames ih =>
      obtain ⟨result, call, ended⟩ := Option.bind_eq_some_iff.mp ended
      cases result with
      | error reason => cases ended
      | ok result =>
          exact ih (@SchedRun.step id _ ⟨state, .tick frame, result.1, result.2⟩ run
            (Returns.timerHandler call)) ended

def adderProcess : NewProcess := ⟨0x7000#64, 0x7100#64, 0x8000#64, 0x9000#64⟩

def adderCreated : SchedState := (processCreate 3 promptCreated adderProcess).getD bootState

theorem adderCreated_run : ∃ trace, SchedRun id trace adderCreated := by
  have returns : Returns (fun fuel => processCreate fuel promptCreated adderProcess)
      adderCreated :=
    .of_add 3 fun _ => rfl
  have listed : promptCreated.Listed [0x1000#64, 0x4000#64] :=
    ⟨rfl, by decide, rfl, by decide, rfl⟩
  have fresh : promptCreated.Unlisted adderProcess.process := by
    intro pointers others
    rw [Links.unique others listed]
    simp [adderProcess]
  exact ⟨_, @SchedRun.step id _ ⟨promptCreated, .create adderProcess, 0#64, adderCreated⟩
    startRecords_run.of_cons.1 ⟨by decide, fresh, returns⟩⟩

/-- In every run the list links the living processes in the order of their
creation, after each call of `schedule` exactly one of them is running, and
every step that may be taken comes to its end. -/
theorem process_list_and_running (run : SchedRun switchPml trace state) :
    (∃ pointers, state.Listed pointers ∧ pointers.Nodup ∧
      pointers.map state.pid = livePids trace ∧ (livePids trace).Pairwise (· < ·) ∧
      ∀ record ∈ trace.head?, record.IsCall → OneRunning state pointers) ∧
    ∀ event, state.Admits event →
      ∃ returned after, SchedRecord.Valid switchPml ⟨state, event, returned, after⟩ := by
  obtain ⟨turns, follows⟩ := run.follows
  refine ⟨⟨turns.members, follows.inTurns.listed, Links.nodup follows.inTurns.listed, ?_, ?_, ?_⟩,
    fun event => follows.exists_valid⟩
  · rw [follows.members_eq, run.livePids_eq]
  · rw [run.livePids_eq]
    exact follows.increasing
  · intro record isHead isCall
    obtain ⟨running, -⟩ := follows.called record isHead isCall
    obtain ⟨rota, left, rfl, scheduled⟩ := follows.inTurns.exists_turn running
    exact scheduled.oneRunning

theorem process_list_and_running_two :
    ∃ pointers, idleStarted.2.Listed pointers ∧ pointers.map idleStarted.2.pid = [1, 2] ∧
      OneRunning idleStarted.2 pointers := by
  obtain ⟨⟨pointers, listed, -, pids, -, called⟩, -⟩ := process_list_and_running startRecords_run
  exact ⟨pointers, listed, pids, called _ rfl trivial⟩

/-- Whenever `schedule` returns, it returns the context at which the process
that runs next was interrupted, or its first one, and the registers for its
stack and its address space are set. -/
theorem resumed_in_own_context (run : SchedRun switchPml (record :: trace) state)
    (isCall : record.IsCall) :
    savedContext (record :: trace) (state.pid state.currentProcess) = some record.returned ∧
    state.rsp0 = (state.process state.currentProcess).kstack ∧
    state.cr3 = switchPml (state.process state.currentProcess).vmm := by
  obtain ⟨turns, follows⟩ := run.follows
  obtain ⟨running, returnedEq⟩ := follows.called record (by simp) isCall
  obtain ⟨rota, left, rfl, scheduled⟩ := follows.inTurns.exists_turn running
  have member : state.currentProcess ∈ rota.members := by
    rw [scheduled.current_eq]
    exact rota.current_mem
  refine ⟨?_, ?_, ?_⟩
  · rw [returnedEq]
    exact follows.saved _ member
  · rw [scheduled.current_eq]
    exact scheduled.rsp0_eq
  · rw [scheduled.current_eq]
    exact scheduled.cr3_eq

def idleResumed : List SchedRecord × SchedState :=
  (tickRecords startRecords idleStarted.2
    [0x1110#64, 0x1120#64, 0x1130#64, 0x4110#64, 0x4120#64, 0x4130#64]).getD ([], bootState)

theorem idleResumed_run : SchedRun id idleResumed.1 idleResumed.2 := by
  have ends : (tickRecords startRecords idleStarted.2
      [0x1110#64, 0x1120#64, 0x1130#64, 0x4110#64, 0x4120#64, 0x4130#64]).isSome := by
    decide +kernel
  obtain ⟨result, ended⟩ := Option.isSome_iff_exists.mp ends
  rw [idleResumed, ended, Option.getD_some]
  exact tickRecords_run startRecords_run ended

theorem resumed_in_own_context_preempted :
    ∃ record trace, idleResumed.1 = record :: trace ∧ record.before.Running 2 ∧
      idleResumed.2.Running 1 ∧ record.returned = 0x1130#64 ∧
      savedContext (record :: trace) 1 = some record.returned ∧
      idleResumed.2.rsp0 = 0x2000#64 ∧ idleResumed.2.cr3 = 0x3000#64 := by
  have last : ∀ record ∈ idleResumed.1.head?,
      record.IsCall ∧ record.before.Running 2 ∧ record.returned = 0x1130#64 := by
    decide +kernel
  have current : idleResumed.2.Running 1 ∧
      (idleResumed.2.process idleResumed.2.currentProcess).kstack = 0x2000#64 ∧
      (idleResumed.2.process idleResumed.2.currentProcess).vmm = 0x3000#64 := by
    decide +kernel
  have notEmpty : 0 < idleResumed.1.length := by decide +kernel
  have run := idleResumed_run
  generalize idleResumed = resumed at *
  obtain ⟨_ | ⟨record, trace⟩, state⟩ := resumed
  · cases notEmpty
  obtain ⟨isCall, before, returned⟩ := last record rfl
  obtain ⟨running, kstack, vmm⟩ := current
  obtain ⟨saved, stack, table⟩ := resumed_in_own_context run isCall
  rw [running.2] at saved
  exact ⟨record, trace, rfl, before, running, returned, saved, stack.trans kstack, table.trans vmm⟩

end Runs

end MmdOS
