import MmdOS.SchedulerCalls
import Mathlib.Data.List.TakeWhile

/-!
# Which process the scheduler chooses

`process_switched` is set on the way to a process that is spawned, ready or dead
and after a quantum is over, but not when a process wakes up.  The answer of
`stay_idle` changes nothing, so that the idle process is chosen whenever the
search meets it first.
-/

namespace MmdOS

open LinkedList RoundRobin

variable {uptime : Word} {process : Process} {rest : List Word}
variable {kfree : Kfree} {switchPml : Word → Word} {context : Word} {state : SchedState}
variable {rota : Rota Word}

section Switch

variable {after final : SchedState} {current selected returned : Word}
variable {switched flag : Bool} {visits members : List Word}

def Process.Asleep (uptime : Word) (process : Process) : Prop :=
  process.status = .sleeping ∧ ¬ process.wakeTime < uptime

instance (uptime : Word) (process : Process) : Decidable (process.Asleep uptime) :=
  inferInstanceAs (Decidable (_ ∧ _))

/-- A round stops at the process without setting `process_switched`: it wakes up,
or it is running and goes on. -/
def Process.StopsSilently (uptime : Word) (process : Process) : Prop :=
  (process.status = .sleeping ∧ process.wakeTime < uptime) ∨
  (process.status = .running ∧ 0 < (process.remainingQuantum - 1#16).toInt)

def SchedState.firstAwake (state : SchedState) (ring : List Word) : Option Word :=
  ring.find? fun pointer => ¬ (state.process pointer).Asleep state.uptime

/-- The registers and the quantum are already as a switch to the process would
leave them. -/
def SchedState.InPlace (switchPml : Word → Word) (state : SchedState) (pointer : Word) : Prop :=
  state.rsp0 = (state.process pointer).kstack ∧
  state.cr3 = switchPml (state.process pointer).vmm ∧
  (state.process pointer).remainingQuantum =
    if (state.process pointer).status = .running then defaultQuantum + 1#16 else defaultQuantum

/-- If the current process has changed, the stack, the address space and the
quantum are those of the new one. -/
def SwitchesSpace (switchPml : Word → Word) (state after : SchedState) : Prop :=
  after.currentProcess ≠ state.currentProcess →
    after.rsp0 = (after.process after.currentProcess).kstack ∧
    after.cr3 = switchPml (after.process after.currentProcess).vmm ∧
    (after.process after.currentProcess).remainingQuantum = defaultQuantum

theorem Process.Asleep.verdict (asleep : process.Asleep uptime) :
    process.verdict uptime = .pass := by
  simp only [Process.verdict, asleep.1, if_neg asleep.2]

theorem Process.Asleep.looked (asleep : process.Asleep uptime) :
    process.looked context uptime = process := by
  simp only [Process.looked, asleep.1, if_neg asleep.2]

theorem Process.Asleep.switches (asleep : process.Asleep uptime) : process.switches = false := by
  simp only [Process.switches, asleep.1]

theorem Process.StopsSilently.verdict (silent : process.StopsSilently uptime) :
    process.verdict uptime = .stop ∧ process.switches = false := by
  rcases silent with ⟨sleeping, woken⟩ | ⟨running, left⟩
  · simp only [Process.verdict, Process.switches, sleeping, if_pos woken, and_self]
  · simp only [Process.verdict, Process.switches, running, if_pos left,
      decide_eq_false (not_not_intro left), and_self]

/-- Any other process that is not asleep sets the flag. -/
theorem Process.switches_of_not_silent (notAsleep : ¬ process.Asleep uptime)
    (loud : ¬ process.StopsSilently uptime) :
    process.switches = true := by
  unfold Process.switches
  cases statusEq : process.status with
  | spawned | ready | dead => rfl
  | running =>
      dsimp only
      exact decide_eq_true fun left => loud (.inr ⟨statusEq, left⟩)
  | sleeping =>
      refine absurd ⟨statusEq, fun woken => ?_⟩ notAsleep
      exact loud (.inl ⟨statusEq, woken⟩)

theorem Search.not_all_asleep
    (search : Search kfree context state current switched visits selected flag final)
    (listed : state.Listed members) (inList : current ∈ members)
    (asleep : ∀ pointer ∈ members, (state.process pointer).Asleep state.uptime) : False := by
  induction search with
  | @stop state current switched notEmpty stops =>
      rw [SchedState.verdict, (asleep current inList).verdict] at stops
      cases stops
  | @pass state final current selected switched flag visits notEmpty passes rest ih =>
      have same : state.look context current = state := by
        rw [SchedState.look, SchedState.modify, (asleep current inList).looked,
          Function.update_eq_self]
      rw [same] at ih
      exact ih listed (nextInRing_mem listed inList) asleep
  | @reap state next final current selected switched flag visits notEmpty isDead =>
      rw [SchedState.verdict, (asleep current inList).verdict] at isDead
      cases isDead

/-- The search passes over the processes in front that are asleep. -/
theorem search_awake_iff {first : List Word} (listed : state.Listed rota.members)
    (ringEq : rota.ring = first ++ current :: rest)
    (asleep : ∀ pointer ∈ first, (state.process pointer).Asleep state.uptime) :
    Search kfree context state rota.current switched visits selected flag final ↔
      ∃ more, visits = first ++ more ∧
        Search kfree context state current switched more selected flag final := by
  have unchanged : state.lookAll context first = state :=
    lookAll_of_looked fun pointer member => (asleep pointer member).looked
  have silent : (first.any fun pointer => (state.process pointer).switches) = false := by
    rw [List.any_eq_false]
    intro pointer member
    rw [(asleep pointer member).switches]
    exact Bool.false_ne_true
  rw [search_walk_iff listed ringEq fun pointer member => (asleep pointer member).verdict,
    Rota.current_passes ringEq, unchanged, silent, Bool.or_false]

theorem Search.flag_of_loud (search : Search kfree context state current switched visits selected
    flag final)
    (switches : (state.process current).switches = true) : flag = true := by
  cases verdict : state.verdict current with
  | stop =>
      rw [search_stop_iff search.processesList_ne_null verdict] at search
      rw [search.2.2.1, switches, Bool.or_true]
  | pass =>
      rw [search_pass_iff search.processesList_ne_null verdict] at search
      obtain ⟨more, -, rest⟩ := search
      exact rest.flag_of_switched (by rw [switches, Bool.or_true])
  | reap =>
      obtain ⟨next, more, -, -, rest⟩ := search.reaped verdict
      exact rest.flag_of_switched rfl

theorem switchesSpace_of_flag (switchPml : Word → Word) (state final : SchedState)
    (selected : Word) :
    SwitchesSpace switchPml state (endSchedule switchPml final selected true).2 := by
  intro _
  rw [endSchedule_state]
  simp

/-- Without a switch the registers stay, and the quantum is that of the loop. -/
theorem switchesSpace_silent_iff (silent : (state.process selected).StopsSilently state.uptime) :
    SwitchesSpace switchPml state
        (endSchedule switchPml (state.look context selected) selected false).2 ↔
      (selected ≠ state.currentProcess → state.InPlace switchPml selected) := by
  have kstack : ((state.process selected).looked context state.uptime).kstack =
      (state.process selected).kstack :=
    Process.looked_field Process.kstack fun _ _ _ _ _ => rfl
  have vmm : ((state.process selected).looked context state.uptime).vmm =
      (state.process selected).vmm :=
    Process.looked_field Process.vmm fun _ _ _ _ _ => rfl
  have quantum : ((state.process selected).looked context state.uptime).remainingQuantum =
      defaultQuantum ↔ (state.process selected).remainingQuantum =
        if (state.process selected).status = .running then defaultQuantum + 1#16
        else defaultQuantum := by
    rcases silent with ⟨sleeping, woken⟩ | ⟨running, left⟩
    · simp only [Process.looked, sleeping, if_pos woken, reduceCtorEq, if_false]
    · simp only [Process.looked, running, if_true]
      rw [BitVec.sub_eq_iff_eq_add]
  rw [endSchedule_state, SwitchesSpace, SchedState.InPlace, ← quantum, ← kstack, ← vmm]
  simp [SchedState.look, SchedState.modify]

/-- A call of `schedule` that changes the current process switches the address
space, unless the first process that is not asleep wakes up or goes on without
being current, and is not in place already. -/
theorem schedule_switches_iff (listed : state.Listed rota.members)
    (currentEq : state.currentProcess = rota.current)
    (returns : Returns (fun fuel => schedule kfree switchPml fuel state context)
      (.ok (returned, after))) :
    SwitchesSpace switchPml state after ↔
      ∀ pointer, state.firstAwake rota.ring = some pointer → pointer ≠ state.currentProcess →
        (state.process pointer).StopsSilently state.uptime → state.InPlace switchPml pointer := by
  have currentMem : state.currentProcess ∈ rota.members := by
    rw [currentEq]
    exact rota.current_mem
  have startedEq : state.started = state := if_neg (Links.ne_null listed currentMem)
  rw [schedule_returns_iff listed (members_ne_nil rota) (.inr currentMem)] at returns
  obtain ⟨visits, selected, flag, final, search, endEq⟩ := returns
  have afterEq : after = (endSchedule switchPml final selected flag).2 := by
    rw [endEq]
  rw [startedEq, currentEq] at search
  cases found : state.firstAwake rota.ring with
  | none =>
      rw [SchedState.firstAwake, List.find?_eq_none] at found
      refine (search.not_all_asleep listed rota.current_mem fun pointer member => ?_).elim
      simpa using found pointer (Rota.mem_ring.mpr member)
  | some current =>
      obtain ⟨notAsleep, first, rest, ringEq, asleep⟩ := List.find?_eq_some_iff_append.mp found
      simp only [decide_not, Bool.not_not, decide_eq_true_eq, Bool.not_eq_eq_eq_not, Bool.not_true,
        decide_eq_false_iff_not] at notAsleep asleep
      rw [search_awake_iff listed ringEq asleep] at search
      obtain ⟨more, -, search⟩ := search
      by_cases silent : (state.process current).StopsSilently state.uptime
      · rw [search_stop_iff search.processesList_ne_null silent.verdict.1, silent.verdict.2] at search
        obtain ⟨-, rfl, rfl, rfl⟩ := search
        rw [afterEq, Bool.or_false, switchesSpace_silent_iff silent]
        constructor
        · rintro inPlace pointer ⟨⟩ different -
          exact inPlace different
        · intro condition different
          exact condition selected rfl different silent
      · have isSet := search.flag_of_loud (Process.switches_of_not_silent notAsleep silent)
        rw [afterEq, isSet]
        refine iff_of_true (switchesSpace_of_flag switchPml state final selected) ?_
        rintro pointer ⟨⟩ - isSilent
        exact absurd isSilent silent

end Switch

theorem schedule_switches_iff_expired : ∃ returned after,
    Returns (fun fuel => schedule freed id fuel (twoProcesses (exampleProcess 1 .ready 0#16 0#64)
      (exampleProcess 2 .running 1#16 0#64)) 0x7000#64) (.ok (returned, after)) ∧
    after.currentProcess = 0x1000#64 ∧
    SwitchesSpace id (twoProcesses (exampleProcess 1 .ready 0#16 0#64)
      (exampleProcess 2 .running 1#16 0#64)) after := by
  let state := twoProcesses (exampleProcess 1 .ready 0#16 0#64) (exampleProcess 2 .running 1#16 0#64)
  let rota : Rota Word := ⟨[0x1000#64], 0x4000#64, []⟩
  have listed : state.Listed rota.members := twoProcesses_listed _ _
  have search : Search freed 0x7000#64 state.started state.started.currentProcess false _
    0x1000#64 _ _ :=
    .pass (by decide) (by decide) (@Search.stop freed 0x7000#64 (state.look 0x7000#64 0x4000#64)
      0x1000#64 (false || (state.process 0x4000#64).switches) (by decide) (by decide))
  have returns := search.schedule_returns listed (.inr (by decide)) id
  refine ⟨(endSchedule id _ _ _).1, (endSchedule id _ _ _).2, returns, endSchedule_current _ _ _ _,
    (schedule_switches_iff listed rfl returns).mpr ?_⟩
  intro pointer found different
  have isCurrent : state.firstAwake rota.ring = some 0x4000#64 := by decide
  rw [isCurrent, Option.some.injEq] at found
  exact absurd found.symm different

/-- The current process sleeps and the other one wakes up: it becomes current on
the stack and in the address space of the first. -/
theorem schedule_wakes_unswitched : ∃ returned after,
    Returns (fun fuel => schedule freed id fuel (twoProcesses (exampleProcess 2 .sleeping 1#16 50#64)
      (exampleProcess 3 .sleeping 1#16 200#64)) 0x7000#64) (.ok (returned, after)) ∧
    after.currentProcess = 0x1000#64 ∧
    after.rsp0 ≠ (after.process 0x1000#64).kstack ∧ after.cr3 ≠ (after.process 0x1000#64).vmm ∧
    (after.process 0x1000#64).remainingQuantum ≠ defaultQuantum := by
  let state := twoProcesses (exampleProcess 2 .sleeping 1#16 50#64)
    (exampleProcess 3 .sleeping 1#16 200#64)
  have listed : state.Listed [0x1000#64, 0x4000#64] := twoProcesses_listed _ _
  have search : Search freed 0x7000#64 state.started state.started.currentProcess false _
    0x1000#64 _ _ :=
    .pass (by decide) (by decide) (@Search.stop freed 0x7000#64 (state.look 0x7000#64 0x4000#64)
      0x1000#64 (false || (state.process 0x4000#64).switches) (by decide) (by decide))
  have returns := search.schedule_returns listed (.inr (by decide)) id
  exact ⟨_, _, returns, rfl, by decide, by decide, by decide⟩

section Idle

variable {idle : Word} {others : List Word}
variable {pointer : Word}

def Process.Expires (process : Process) : Prop :=
  process.status = .running ∧ ¬ 0 < (process.remainingQuantum - 1#16).toInt

def SchedState.fromCurrent (state : SchedState) (others : List Word) : List Word :=
  others.dropWhile (· ≠ state.currentProcess)

def SchedState.beforeCurrent (state : SchedState) (others : List Word) : List Word :=
  others.takeWhile (· ≠ state.currentProcess)

/-- Every call of `schedule` that ends a quantum and selects the idle process
leaves all other processes asleep. -/
def IdleLast (kfree : Kfree) (switchPml : Word → Word) (context : Word) (state : SchedState)
    (idle : Word) (others : List Word) : Prop :=
  ∀ visits returned after,
    Returns (fun fuel => schedule kfree switchPml fuel state context) (.ok (returned, after)) →
    Schedules kfree switchPml context state visits returned after →
    (∃ pointer ∈ visits, (state.process pointer).Expires) → after.currentProcess = idle →
    ∀ pointer ∈ others, (after.process pointer).status = .sleeping

def SearchIdleLast (kfree : Kfree) (context : Word) (state : SchedState) (idle : Word)
    (others : List Word) : Prop :=
  ∀ visits selected flag final,
    Search kfree context state.started state.started.currentProcess false visits selected flag final →
    (∃ pointer ∈ visits, (state.process pointer).Expires) → selected = idle →
    ∀ pointer ∈ others, (final.process pointer).status = .sleeping

/-- The search comes to the idle process and stops there although a quantum has
ended on the way: it passes over all processes from the current one to the end of
the list, one of which was running; or these sleep, the quantum of the idle
process itself is over, and the search passes over all others, one of which was
running. -/
def SchedState.IdleTooEarly (state : SchedState) (idle : Word) (others : List Word) : Prop :=
  (∀ pointer ∈ state.fromCurrent others, state.verdict pointer = .pass) ∧
  ((state.verdict idle = .stop ∧
      ∃ pointer ∈ state.fromCurrent others, (state.process pointer).status = .running) ∨
    ((state.process idle).Expires ∧
      (∀ pointer ∈ state.fromCurrent others, (state.process pointer).status = .sleeping) ∧
      (∀ pointer ∈ state.beforeCurrent others, state.verdict pointer = .pass) ∧
      ∃ pointer ∈ state.beforeCurrent others, (state.process pointer).status = .running))

theorem Process.Expires.verdict (expires : process.Expires) (uptime : Word) :
    process.verdict uptime = .pass := by
  simp only [Process.verdict, expires.1, if_neg expires.2]

theorem Process.expires_of_pass (passes : process.verdict uptime = .pass)
    (running : process.status = .running) :
    process.Expires := by
  refine ⟨running, fun left => ?_⟩
  simp only [Process.verdict, running, if_pos left] at passes
  cases passes

theorem idle_ring (listed : state.Listed (idle :: others))
    (current : state.currentProcess = 0#64 ∨ state.currentProcess ∈ idle :: others) :
    ∃ rota : Rota Word, rota.members = idle :: others ∧
      rota.current = state.started.currentProcess ∧
      rota.ring = state.fromCurrent others ++ idle :: state.beforeCurrent others := by
  have head : state.processesList = idle := listed.1
  by_cases inOthers : state.currentProcess ∈ others
  · have startedEq : state.started = state :=
      if_neg (Links.ne_null listed (List.mem_cons_of_mem _ inOthers))
    obtain ⟨before, after, othersEq⟩ := List.append_of_mem inOthers
    have distinct : others.Nodup := (List.nodup_cons.mp listed.nodup).2
    have differs : ∀ pointer ∈ before, decide (pointer ≠ state.currentProcess) = true := by
      intro pointer member
      refine decide_eq_true ?_
      rintro rfl
      rw [othersEq] at distinct
      exact List.disjoint_of_nodup_append distinct member List.mem_cons_self
    refine ⟨⟨idle :: before, state.currentProcess, after⟩, ?_, by rw [startedEq], ?_⟩
    · rw [Rota.members, othersEq]
      rfl
    · rw [SchedState.fromCurrent, SchedState.beforeCurrent, othersEq,
        List.dropWhile_append_of_pos differs, List.takeWhile_append_of_pos differs]
      simp [Rota.ring, Rota.waiting]
  · have isIdle : state.started.currentProcess = idle := by
      unfold SchedState.started
      split
      · exact head
      · next notNull =>
        exact (List.mem_cons.mp (current.resolve_left notNull)).resolve_right inOthers
    have differs : ∀ pointer ∈ others, decide (pointer ≠ state.currentProcess) = true :=
      fun pointer member => decide_eq_true (ne_of_mem_of_not_mem member inOthers)
    refine ⟨⟨[], idle, others⟩, rfl, isIdle.symm, ?_⟩
    rw [SchedState.fromCurrent, SchedState.beforeCurrent, List.dropWhile_eq_nil_iff.mpr differs,
      List.takeWhile_eq_self_iff.mpr differs]
    simp [Rota.ring, Rota.waiting]

theorem mem_others_iff : pointer ∈ others ↔
    pointer ∈ state.fromCurrent others ∨ pointer ∈ state.beforeCurrent others := by
  rw [SchedState.fromCurrent, SchedState.beforeCurrent, or_comm, ← List.mem_append,
    List.takeWhile_append_dropWhile]

theorem mem_fromCurrent (ahead : pointer ∈ state.fromCurrent others) :
    pointer ∈ others :=
  mem_others_iff.mpr (.inl ahead)

theorem mem_beforeCurrent (behind : pointer ∈ state.beforeCurrent others) :
    pointer ∈ others :=
  mem_others_iff.mpr (.inr behind)

theorem idleLast_iff (listed : state.Listed (idle :: others))
    (current : state.currentProcess = 0#64 ∨ state.currentProcess ∈ idle :: others) :
    IdleLast kfree switchPml context state idle others ↔
      SearchIdleLast kfree context state idle others := by
  have outside : idle ∉ others := (List.nodup_cons.mp listed.nodup).1
  have unchanged : ∀ (final : SchedState) (flag : Bool), ∀ pointer ∈ others,
      (endSchedule switchPml final idle flag).2.process pointer = final.process pointer := by
    intro final flag pointer member
    rw [endSchedule_state]
    exact Function.update_of_ne (ne_of_mem_of_not_mem member outside) _ _
  constructor
  · rintro last visits selected flag final search expired rfl pointer member
    rw [← unchanged final flag pointer member]
    exact last visits _ _ (search.schedule_returns listed current switchPml)
      (search.schedules switchPml) expired (endSchedule_current _ _ _ _) pointer member
  · rintro last visits returned after - ⟨selected, flag, final, search, endEq⟩ expired isIdle pointer
      member
    have afterEq : after = (endSchedule switchPml final selected flag).2 := by
      rw [endEq]
    rw [afterEq, endSchedule_current] at isIdle
    subst isIdle
    rw [afterEq, unchanged final flag pointer member]
    exact last visits selected flag final search expired rfl pointer member

theorem stop_of_alive (notPass : state.verdict pointer ≠ .pass)
    (alive : (state.process pointer).status ≠ .dead) : state.verdict pointer = .stop := by
  cases verdict : state.verdict pointer with
  | stop => rfl
  | pass => exact absurd verdict notPass
  | reap => exact absurd (Process.verdict_eq_reap.mp verdict) alive

section Ring

variable (listed : state.started.Listed rota.members)
variable (currentEq : rota.current = state.started.currentProcess)

include listed currentEq

/-- If the first process that is not passed over is another one, this is
selected. -/
theorem idleLast_of_first {first : List Word} (ringEq : rota.ring = first ++ pointer :: rest)
    (passes : ∀ other ∈ first, state.verdict other = .pass) (stops : state.verdict pointer = .stop)
    (notIdle : pointer ≠ idle) :
    SearchIdleLast kfree context state idle others := by
  rw [SearchIdleLast, ← currentEq]
  intro visits selected flag final search _ isIdle
  rw [search_first_iff listed ringEq (by simpa only [started_verdict] using passes)
    (by rwa [started_verdict])] at search
  exact absurd (search.2.1.symm.trans isIdle) notIdle

theorem idleLast_of_dead (isDead : (state.process idle).status = .dead) :
    SearchIdleLast kfree context state idle others := by
  rw [SearchIdleLast, ← currentEq]
  rintro visits selected flag final search - rfl
  have found := search.found listed rota.current_mem (currentEq ▸ rota.current_mem)
  have survives := (mem_remaining.mp found.selected_mem).2
  rw [started_process] at survives
  exact absurd ⟨isDead, found.selected_visited⟩ survives

/-- The search stops at the idle process in its first turn. -/
theorem idleLast_stop_iff (outside : idle ∉ others)
    (ringEq : rota.ring = state.fromCurrent others ++ idle :: state.beforeCurrent others)
    (passes : ∀ pointer ∈ state.fromCurrent others, state.verdict pointer = .pass)
    (stops : state.verdict idle = .stop) :
    SearchIdleLast kfree context state idle others ↔
      ¬ ∃ pointer ∈ state.fromCurrent others, (state.process pointer).status = .running := by
  have startedPasses : ∀ pointer ∈ state.fromCurrent others,
      state.started.verdict pointer = .pass := by
    simpa only [started_verdict] using passes
  have startedStops : state.started.verdict idle = .stop := by
    rwa [started_verdict]
  rw [SearchIdleLast, ← currentEq]
  simp only [search_first_iff listed ringEq startedPasses startedStops]
  constructor
  · rintro last ⟨pointer, member, running⟩
    have inOthers : pointer ∈ others := mem_fromCurrent member
    have expires := Process.expires_of_pass (passes pointer member) running
    have sleeps := last _ _ _ _ ⟨rfl, rfl, rfl, rfl⟩
      ⟨pointer, List.mem_append_left _ member, expires⟩ rfl pointer inOthers
    rw [look_of_ne (ne_of_mem_of_not_mem inOthers outside), lookAll_process, if_pos member] at sleeps
    rw [Process.ready_of_pass (startedPasses pointer member) (by rwa [started_process])] at sleeps
    cases sleeps
  · rintro noneRuns visits selected flag final ⟨rfl, rfl, rfl, rfl⟩ ⟨pointer, visited, expires⟩
    rcases List.mem_append.mp visited with ahead | isIdle
    · exact absurd ⟨pointer, ahead, expires.1⟩ noneRuns
    · rw [List.mem_singleton.mp isIdle] at expires
      rw [SchedState.verdict, expires.verdict] at stops
      cases stops

/-- The quantum of the idle process is over, and the second turn comes to it
first. -/
theorem idleLast_second_iff
    (ringEq : rota.ring = state.fromCurrent others ++ idle :: state.beforeCurrent others)
    (allPass : ∀ pointer ∈ rota.ring, state.verdict pointer = .pass)
    (asleep : ∀ pointer ∈ state.fromCurrent others, (state.process pointer).status = .sleeping)
    (running : (state.process idle).status = .running) :
    SearchIdleLast kfree context state idle others ↔
      ¬ ∃ pointer ∈ state.beforeCurrent others, (state.process pointer).status = .running := by
  have startedPass : ∀ pointer ∈ rota.ring, state.started.verdict pointer = .pass := by
    simpa only [started_verdict] using allPass
  have inRing : ∀ {pointer}, pointer ∈ others → pointer ∈ rota.ring := by
    intro pointer member
    rw [ringEq]
    simp only [List.mem_append, List.mem_cons]
    rcases mem_others_iff.mp member with ahead | behind
    · exact .inl ahead
    · exact .inr (.inr behind)
  have idleInRing : idle ∈ rota.ring := by
    rw [ringEq]
    simp
  have expires := Process.expires_of_pass (allPass idle idleInRing) running
  rw [SearchIdleLast, ← currentEq]
  simp only [search_second_iff listed startedPass ringEq
    (by simpa only [started_process] using asleep)
    (by rwa [started_process])]
  constructor
  · rintro last ⟨pointer, member, wasRunning⟩
    have inOthers : pointer ∈ others := mem_beforeCurrent member
    have sleeps := last _ _ _ _ ⟨rfl, rfl, rfl, rfl⟩
      ⟨idle, List.mem_append_left _ idleInRing, expires⟩ rfl pointer inOthers
    rw [lookAll_process, if_pos (inRing inOthers)] at sleeps
    rw [Process.ready_of_pass (startedPass pointer (inRing inOthers)) (by rwa [started_process])]
      at sleeps
    cases sleeps
  · rintro noneRuns visits selected flag final ⟨rfl, rfl, rfl, rfl⟩ - - pointer member
    rw [lookAll_process, if_pos (inRing member)]
    rcases @Process.looked_of_pass context _ _ (startedPass pointer (inRing member)) with
      ⟨wasRunning, -⟩ | ⟨sleeping, same⟩
    · rw [started_process] at wasRunning
      rcases mem_others_iff.mp member with ahead | behind
      · rw [asleep pointer ahead] at wasRunning
        cases wasRunning
      · exact absurd ⟨pointer, behind, wasRunning⟩ noneRuns
    · rw [same, sleeping]

/-- If the second turn comes to another process first, this is selected. -/
theorem idleLast_of_second {first : List Word} (ringEq : rota.ring = first ++ pointer :: rest)
    (allPass : ∀ other ∈ rota.ring, state.verdict other = .pass)
    (asleep : ∀ other ∈ first, (state.process other).status = .sleeping)
    (running : (state.process pointer).status = .running) (notIdle : pointer ≠ idle) :
    SearchIdleLast kfree context state idle others := by
  rw [SearchIdleLast, ← currentEq]
  intro visits selected flag final search _ isIdle
  rw [search_second_iff listed (by simpa only [started_verdict] using allPass) ringEq
    (by simpa only [started_process] using asleep) (by rwa [started_process])] at search
  exact absurd (search.2.1.symm.trans isIdle) notIdle

/-- The first turn passes over all processes. -/
theorem idleLast_all_pass_iff (outside : idle ∉ others)
    (ringEq : rota.ring = state.fromCurrent others ++ idle :: state.beforeCurrent others)
    (allPass : ∀ pointer ∈ rota.ring, state.verdict pointer = .pass)
    (notSleeping : (state.process idle).status ≠ .sleeping) :
    SearchIdleLast kfree context state idle others ↔ ¬ state.IdleTooEarly idle others := by
  have passes := allPass
  rw [ringEq] at passes
  simp only [List.mem_append, List.mem_cons] at passes
  have idlePasses := passes idle (.inr (.inl rfl))
  have runs := Process.running_of_pass idlePasses notSleeping
  -- the second turn stops at the first process that was running: the idle one, if
  -- all those in front of it sleep
  by_cases asleep : ∀ pointer ∈ state.fromCurrent others,
      (state.process pointer).status = .sleeping
  · rw [idleLast_second_iff listed currentEq ringEq allPass asleep runs, not_iff_not]
    constructor
    · intro behindRuns
      exact ⟨fun pointer ahead => passes pointer (.inl ahead),
        .inr ⟨Process.expires_of_pass idlePasses runs, asleep,
          fun pointer behind => passes pointer (.inr (.inr behind)), behindRuns⟩⟩
    · rintro ⟨-, ⟨stops, -⟩ | ⟨-, -, -, behindRuns⟩⟩
      · rw [idlePasses] at stops
        cases stops
      · exact behindRuns
  · obtain ⟨first, running, rest, firstEq, firstAsleep, isRunning⟩ :=
      first_running allPass ⟨idle, by rw [ringEq]; simp, runs⟩
    have different : running ≠ idle := by
      rintro rfl
      rcases split_around (ringEq.symm.trans firstEq) with ⟨-, rfl⟩ | ahead | ⟨before, -⟩
      · exact asleep firstAsleep
      · exact outside (mem_fromCurrent ahead)
      · exact notSleeping (firstAsleep running before)
    refine iff_of_true (idleLast_of_second listed currentEq firstEq allPass firstAsleep isRunning
      different) ?_
    rintro ⟨-, ⟨stops, -⟩ | ⟨-, aheadAsleep, -⟩⟩
    · rw [idlePasses] at stops
      cases stops
    · exact asleep aheadAsleep

/-- The first turn passes over the processes in front of the idle one, and ends
there. -/
theorem idleLast_at_idle_iff (outside : idle ∉ others)
    (ringEq : rota.ring = state.fromCurrent others ++ idle :: state.beforeCurrent others)
    (passes : ∀ pointer ∈ state.fromCurrent others, state.verdict pointer = .pass)
    (notPass : state.verdict idle ≠ .pass) :
    SearchIdleLast kfree context state idle others ↔ ¬ state.IdleTooEarly idle others := by
  have notExpires : ¬ (state.process idle).Expires :=
    fun expires => notPass (expires.verdict state.uptime)
  by_cases isDead : (state.process idle).status = .dead
  · refine iff_of_true (idleLast_of_dead listed currentEq isDead) ?_
    rintro ⟨-, ⟨stops, -⟩ | ⟨expires, -⟩⟩
    · rw [SchedState.verdict, Process.verdict_eq_reap.mpr isDead] at stops
      cases stops
    · exact notExpires expires
  · have stops := stop_of_alive notPass isDead
    rw [idleLast_stop_iff listed currentEq outside ringEq passes stops, not_iff_not]
    constructor
    · intro aheadRuns
      exact ⟨passes, .inl ⟨stops, aheadRuns⟩⟩
    · rintro ⟨-, ⟨-, aheadRuns⟩ | ⟨expires, -⟩⟩
      · exact aheadRuns
      · exact absurd expires notExpires

end Ring

/-- The idle process is selected only when nothing else can run, except if the
search comes to it too early. -/
theorem idle_last_iff (listed : state.Listed (idle :: others))
    (current : state.currentProcess = 0#64 ∨ state.currentProcess ∈ idle :: others)
    (notSleeping : (state.process idle).status ≠ .sleeping)
    (alive : ∀ pointer ∈ others, (state.process pointer).status ≠ .dead) :
    IdleLast kfree switchPml context state idle others ↔ ¬ state.IdleTooEarly idle others := by
  have outside : idle ∉ others := (List.nodup_cons.mp listed.nodup).1
  obtain ⟨rota, membersEq, currentEq, ringEq⟩ := idle_ring listed current
  have startedListed := started_listed listed
  rw [← membersEq] at startedListed
  rw [idleLast_iff listed current]
  rcases forall_or_first (fun pointer => state.verdict pointer = .pass) rota.ring with
    allPass | ⟨first, pointer, rest, firstEq, passes, notPass⟩
  · exact idleLast_all_pass_iff startedListed currentEq outside ringEq allPass notSleeping
  have selectsOther : pointer ∈ others → SearchIdleLast kfree context state idle others := by
    intro inOthers
    exact idleLast_of_first startedListed currentEq firstEq passes
      (stop_of_alive notPass (alive pointer inOthers)) (ne_of_mem_of_not_mem inOthers outside)
  -- the process that ends the first turn is the idle one, or stands in front of it or behind it
  rcases split_around (ringEq.symm.trans firstEq) with ⟨rfl, rfl⟩ | ahead | ⟨idleFirst, behind⟩
  · exact idleLast_at_idle_iff startedListed currentEq outside ringEq passes notPass
  · refine iff_of_true (selectsOther (mem_fromCurrent ahead)) ?_
    rintro ⟨aheadPass, -⟩
    exact notPass (aheadPass pointer ahead)
  · refine iff_of_true (selectsOther (mem_beforeCurrent behind)) ?_
    rintro ⟨-, ⟨stops, -⟩ | ⟨-, -, behindPass, -⟩⟩
    · rw [passes idle idleFirst] at stops
      cases stops
    · exact notPass (behindPass pointer behind)

end Idle

theorem idle_last_iff_sleeping :
    IdleLast freed id 0x7000#64 (twoProcesses (exampleProcess 1 .running 1#16 0#64)
      (exampleProcess 2 .sleeping 0#16 200#64)) 0x1000#64 [0x4000#64] := by
  have alive : ∀ pointer ∈ [0x4000#64], ((twoProcesses (exampleProcess 1 .running 1#16 0#64)
      (exampleProcess 2 .sleeping 0#16 200#64)).process pointer).status ≠ .dead := by
    intro pointer member
    rw [List.mem_singleton.mp member]
    decide
  refine (idle_last_iff (twoProcesses_listed _ _) (.inr (by decide)) (by decide) alive).mpr ?_
  rintro ⟨-, ⟨stops, -⟩ | ⟨-, -, -, pointer, before, -⟩⟩
  · exact absurd stops (by decide)
  · have none : SchedState.beforeCurrent (twoProcesses (exampleProcess 1 .running 1#16 0#64)
        (exampleProcess 2 .sleeping 0#16 200#64)) [0x4000#64] = [] := by decide
    rw [none] at before
    cases before

/-- The quantum of the only other process is over: the idle process is selected
although that one is ready. -/
theorem idle_selected_early : ∃ visits returned after,
    Returns (fun fuel => schedule freed id fuel (twoProcesses (exampleProcess 1 .ready 0#16 0#64)
      (exampleProcess 2 .running 1#16 0#64)) 0x7000#64) (.ok (returned, after)) ∧
    Schedules freed id 0x7000#64 (twoProcesses (exampleProcess 1 .ready 0#16 0#64)
      (exampleProcess 2 .running 1#16 0#64)) visits returned after ∧
    0x4000#64 ∈ visits ∧ (exampleProcess 2 .running 1#16 0#64).Expires ∧
    after.currentProcess = 0x1000#64 ∧ (after.process 0x4000#64).status = .ready := by
  let state := twoProcesses (exampleProcess 1 .ready 0#16 0#64) (exampleProcess 2 .running 1#16 0#64)
  have search : Search freed 0x7000#64 state.started state.started.currentProcess false _
    0x1000#64 _ _ :=
    .pass (by decide) (by decide) (@Search.stop freed 0x7000#64 (state.look 0x7000#64 0x4000#64)
      0x1000#64 (false || (state.process 0x4000#64).switches) (by decide) (by decide))
  have listed : state.Listed [0x1000#64, 0x4000#64] := twoProcesses_listed _ _
  refine ⟨_, (endSchedule id _ _ _).1, (endSchedule id _ _ _).2,
    search.schedule_returns listed (.inr (by decide)) id, search.schedules id, List.mem_cons_self,
    ⟨rfl, by decide⟩, endSchedule_current _ _ _ _, ?_⟩
  decide

end MmdOS
