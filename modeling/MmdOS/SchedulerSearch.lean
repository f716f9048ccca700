import MmdOS.SchedulerFuel
import MmdOS.SchedulerSpec

/-!
# The search of the scheduler

A round of the loop of `schedule` looks at one process and stops at it, passes it
over, or deletes it.  `Search` describes a whole loop round by round, together
with the processes it has looked at, for lists with any statuses; the loops that
end are exactly the searches.  While it passes over processes the search walks
along the ring, and a process that was passed over because its quantum is over
is ready in the next turn.
-/

namespace MmdOS

open LinkedList RoundRobin

variable {fuel : Nat}
variable {context current selected : Word} {kfree : Kfree} {state final : SchedState}
variable {switched flag : Bool} {visits members : List Word}

/-- What a round does with the process that it looks at. -/
inductive Verdict
  | stop
  | pass
  | reap
  deriving DecidableEq

namespace Process

def verdict (uptime : Word) (process : Process) : Verdict :=
  match process.status with
  | .spawned | .ready => .stop
  | .running => if 0 < (process.remainingQuantum - 1#16).toInt then .stop else .pass
  | .sleeping => if process.wakeTime < uptime then .stop else .pass
  | .dead => .reap

/-- The process behind the `switch` statement. -/
def looked (context uptime : Word) (process : Process) : Process :=
  match process.status with
  | .spawned => { process with status := .ready }
  | .running =>
      { process with
        status := if 0 < (process.remainingQuantum - 1#16).toInt then .running else .ready
        remainingQuantum := process.remainingQuantum - 1#16
        context }
  | .sleeping =>
      if process.wakeTime < uptime then
        { process with
          wakeTime := 0#64
          status := .ready }
      else process
  | .ready | .dead => process

def switches (process : Process) : Bool :=
  match process.status with
  | .spawned | .ready | .dead => true
  | .running => decide (¬ 0 < (process.remainingQuantum - 1#16).toInt)
  | .sleeping => false

section Looked

variable {uptime : Word} {process : Process}

theorem looked_field {β : Type} (field : Process → β)
    (same : ∀ (process : Process) status quantum context wakeTime,
      field { process with
        status
        remainingQuantum := quantum
        context
        wakeTime } = field process) :
    field (process.looked context uptime) = field process := by
  unfold looked
  split
  · exact same process .ready process.remainingQuantum process.context process.wakeTime
  · exact same process _ _ context process.wakeTime
  · split
    · exact same process .ready process.remainingQuantum process.context 0#64
    · rfl
  · rfl
  · rfl

theorem verdict_eq_reap : process.verdict uptime = .reap ↔ process.status = .dead := by
  unfold verdict
  cases process.status with
  | spawned | ready | dead => simp
  | running | sleeping =>
      dsimp only
      split <;> simp

theorem looked_of_pass (passes : process.verdict uptime = .pass) :
    (process.status = .running ∧ (process.looked context uptime).status = .ready) ∨
    (process.status = .sleeping ∧ process.looked context uptime = process) := by
  unfold verdict at passes
  cases statusEq : process.status with
  | spawned | ready | dead => simp [statusEq] at passes
  | running =>
      have expired : ¬ 0 < (process.remainingQuantum - 1#16).toInt := by
        simpa [statusEq] using passes
      refine .inl ⟨rfl, ?_⟩
      simp only [looked, statusEq, if_neg expired]
  | sleeping =>
      have asleep : ¬ process.wakeTime < uptime := by
        simpa [statusEq] using passes
      refine .inr ⟨rfl, ?_⟩
      simp only [looked, statusEq, if_neg asleep]

theorem running_of_pass (passes : process.verdict uptime = .pass)
    (notSleeping : process.status ≠ .sleeping) : process.status = .running := by
  rcases @looked_of_pass 0#64 _ _ passes with ⟨running, -⟩ | ⟨sleeping, -⟩
  · exact running
  · exact absurd sleeping notSleeping

theorem ready_of_pass (passes : process.verdict uptime = .pass)
    (running : process.status = .running) : (process.looked context uptime).status = .ready := by
  rcases @looked_of_pass context _ _ passes with ⟨-, ready⟩ | ⟨sleeping, -⟩
  · exact ready
  · rw [running] at sleeping
    cases sleeping

theorem looked_of_sleeping (passes : process.verdict uptime = .pass)
    (sleeping : process.status = .sleeping) : process.looked context uptime = process := by
  rcases @looked_of_pass context _ _ passes with ⟨running, -⟩ | ⟨-, same⟩
  · rw [sleeping] at running
    cases running
  · exact same

end Looked

end Process

namespace SchedState

def look (context : Word) (state : SchedState) (pointer : Word) : SchedState :=
  state.modify pointer (Process.looked context state.uptime)

def verdict (state : SchedState) (pointer : Word) : Verdict :=
  (state.process pointer).verdict state.uptime

def lookAll (context : Word) (state : SchedState) (pointers : List Word) : SchedState :=
  { state with
    process := fun pointer =>
      if pointer ∈ pointers then (state.process pointer).looked context state.uptime
      else state.process pointer }

end SchedState

section Rounds

variable {fuel : Nat}
variable {processesList : Word}

theorem modify_congr {change change' : Process → Process}
    (same : change (state.process current) = change' (state.process current)) :
    state.modify current change = state.modify current change' := by
  rw [SchedState.modify, SchedState.modify, same]

theorem modify_modify (change change' : Process → Process) :
    (state.modify current change).modify current change' =
      state.modify current fun process => change' (change process) := by
  simp [SchedState.modify]

theorem scheduleLoop_stop (notEmpty : processesList ≠ 0#64)
    (stops : state.verdict current = .stop) :
    scheduleLoop kfree context (fuel + 1) state processesList current switched =
      endRound fuel (state.look context current) current
        (switched || (state.process current).switches) := by
  rw [SchedState.verdict, Process.verdict] at stops
  rw [scheduleLoop, if_neg notEmpty]
  cases statusEq : (state.process current).status with
  | spawned =>
      simp only [Process.switches, statusEq, Bool.or_true]
      congr 1
      exact modify_congr (by simp only [Process.looked, statusEq])
  | ready =>
      have same : state.look context current = state := by
        simp [SchedState.look, SchedState.modify, Process.looked, statusEq]
      simp only [Process.switches, statusEq, Bool.or_true, same]
  | running =>
      have left : 0 < ((state.process current).remainingQuantum - 1#16).toInt := by
        simpa [statusEq] using stops
      simp only [modify_self, if_pos left, Process.switches, statusEq,
        decide_eq_false (not_not_intro left), Bool.or_false]
      congr 1
      exact modify_congr (by simp only [Process.looked, statusEq, if_pos left])
  | sleeping =>
      have woken : (state.process current).wakeTime < state.uptime := by
        simpa [statusEq] using stops
      simp only [if_pos woken, Process.switches, statusEq, Bool.or_false]
      congr 1
      exact modify_congr (by simp only [Process.looked, statusEq, if_pos woken])
  | dead => simp [statusEq] at stops

theorem scheduleLoop_pass (notEmpty : processesList ≠ 0#64)
    (passes : state.verdict current = .pass) :
    scheduleLoop kfree context (fuel + 1) state processesList current switched =
      scheduleLoop kfree context fuel (state.look context current) processesList
        (nextInRing (state.look context current) processesList current)
        (switched || (state.process current).switches) := by
  rw [SchedState.verdict, Process.verdict] at passes
  rw [scheduleLoop, if_neg notEmpty]
  cases statusEq : (state.process current).status with
  | spawned | ready | dead => simp [statusEq] at passes
  | running =>
      have expired : ¬ 0 < ((state.process current).remainingQuantum - 1#16).toInt := by
        simpa [statusEq] using passes
      have same : (state.modify current fun process =>
          { process with
            remainingQuantum := process.remainingQuantum - 1#16
            context }).setStatus current .ready = state.look context current := by
        rw [SchedState.setStatus, modify_modify]
        exact modify_congr (by simp only [Process.looked, statusEq, if_neg expired])
      simp only [modify_self, if_neg expired, same, Process.switches, statusEq,
        decide_eq_true expired, Bool.or_true]
  | sleeping =>
      have asleep : ¬ (state.process current).wakeTime < state.uptime := by
        simpa [statusEq] using passes
      have same : state.look context current = state := by
        simp [SchedState.look, SchedState.modify, Process.looked, statusEq, asleep]
      simp only [if_neg asleep, same, Process.switches, statusEq, Bool.or_false]

theorem scheduleLoop_reap {next : SchedState} (notEmpty : processesList ≠ 0#64)
    (isDead : state.verdict current = .reap)
    (deletes : processDelete kfree fuel state current = some (.ok next)) :
    scheduleLoop kfree context (fuel + 1) state processesList current switched =
      scheduleLoop kfree context fuel next next.processesList next.currentProcess true := by
  simp only [scheduleLoop, if_neg notEmpty, Process.verdict_eq_reap.mp isDead, deletes]

end Rounds

/-- The loop of `schedule` from a state on, with the processes that its rounds
look at, the process and the flag it ends with, and the state behind it. -/
inductive Search (kfree : Kfree) (context : Word) :
    SchedState → Word → Bool → List Word → Word → Bool → SchedState → Prop
  | stop {state : SchedState} {current : Word} {switched : Bool}
      (notEmpty : state.processesList ≠ 0#64) (stops : state.verdict current = .stop) :
      Search kfree context state current switched [current] current
        (switched || (state.process current).switches) (state.look context current)
  | pass {state final : SchedState} {current selected : Word} {switched flag : Bool}
      {visits : List Word} (notEmpty : state.processesList ≠ 0#64)
      (passes : state.verdict current = .pass)
      (rest : Search kfree context (state.look context current)
        (nextInRing (state.look context current) state.processesList current)
        (switched || (state.process current).switches) visits selected flag final) :
      Search kfree context state current switched (current :: visits) selected flag final
  | reap {state next final : SchedState} {current selected : Word} {switched flag : Bool}
      {visits : List Word} (notEmpty : state.processesList ≠ 0#64)
      (isDead : state.verdict current = .reap)
      (deleted : Returns (fun fuel => processDelete kfree fuel state current) (.ok next))
      (rest : Search kfree context next next.currentProcess true visits selected flag final) :
      Search kfree context state current switched (current :: visits) selected flag final

section Steps

theorem Search.processesList_ne_null
    (search : Search kfree context state current switched visits selected flag final) :
    state.processesList ≠ 0#64 := by
  cases search with
  | stop notEmpty => exact notEmpty
  | pass notEmpty => exact notEmpty
  | reap notEmpty => exact notEmpty

theorem search_stop_iff (notEmpty : state.processesList ≠ 0#64)
    (stops : state.verdict current = .stop) :
    Search kfree context state current switched visits selected flag final ↔
      visits = [current] ∧ selected = current ∧
        flag = (switched || (state.process current).switches) ∧
        final = state.look context current := by
  constructor
  · intro search
    cases search with
    | stop => exact ⟨rfl, rfl, rfl, rfl⟩
    | pass _ passes =>
        rw [stops] at passes
        cases passes
    | reap _ isDead =>
        rw [stops] at isDead
        cases isDead
  · rintro ⟨rfl, rfl, rfl, rfl⟩
    exact .stop notEmpty stops

theorem search_pass_iff (notEmpty : state.processesList ≠ 0#64)
    (passes : state.verdict current = .pass) :
    Search kfree context state current switched visits selected flag final ↔
      ∃ rest, visits = current :: rest ∧
        Search kfree context (state.look context current)
          (nextInRing (state.look context current) state.processesList current)
          (switched || (state.process current).switches) rest selected flag final := by
  constructor
  · intro search
    cases search with
    | stop _ stops =>
        rw [passes] at stops
        cases stops
    | pass _ _ rest => exact ⟨_, rfl, rest⟩
    | reap _ isDead =>
        rw [passes] at isDead
        cases isDead
  · rintro ⟨rest, rfl, search⟩
    exact .pass notEmpty passes search

theorem Search.reaped (search : Search kfree context state current switched visits selected
    flag final)
    (isDead : state.verdict current = .reap) :
    ∃ next rest, visits = current :: rest ∧
      Returns (fun fuel => processDelete kfree fuel state current) (.ok next) ∧
      Search kfree context next next.currentProcess true rest selected flag final := by
  cases search with
  | stop _ stops =>
      rw [isDead] at stops
      cases stops
  | pass _ passes =>
      rw [isDead] at passes
      cases passes
  | reap _ _ deleted rest => exact ⟨_, _, rfl, deleted, rest⟩

theorem Search.flag_of_switched
    (search : Search kfree context state current switched visits selected flag final)
    (isSet : switched = true) : flag = true := by
  induction search with
  | stop => rw [isSet, Bool.true_or]
  | pass _ _ _ ih => exact ih (by rw [isSet, Bool.true_or])
  | reap _ _ _ _ ih => exact ih rfl

end Steps

section Walk

variable {rota : Rota Word}
variable {pointers rest : List Word}

theorem look_of_ne {pointer : Word} (different : pointer ≠ current) :
    (state.look context current).process pointer = state.process pointer :=
  modify_of_ne _ _ _ _ different

@[simp]
theorem look_self : (state.look context current).process current =
    (state.process current).looked context state.uptime :=
  modify_self _ _ _

theorem SchedState.Listed.look (listed : state.Listed members) (current : Word) :
    (state.look context current).Listed members := by
  refine listed.congr rfl fun pointer _ => ?_
  exact modify_field _ _ _ _ Process.next fun process =>
    Process.looked_field Process.next fun _ _ _ _ _ => rfl

theorem lookAll_process (pointers : List Word) (pointer : Word) :
    (state.lookAll context pointers).process pointer =
      if pointer ∈ pointers then (state.process pointer).looked context state.uptime
      else state.process pointer :=
  rfl

theorem SchedState.Listed.lookAll (listed : state.Listed members) (pointers : List Word) :
    (state.lookAll context pointers).Listed members := by
  refine listed.congr rfl fun pointer _ => ?_
  rw [lookAll_process]
  split
  · exact Process.looked_field Process.next fun _ _ _ _ _ => rfl
  · rfl

@[simp]
theorem lookAll_nil : state.lookAll context [] = state := by
  simp [SchedState.lookAll]

theorem lookAll_cons (outside : current ∉ pointers) :
    (state.look context current).lookAll context pointers =
      state.lookAll context (current :: pointers) := by
  simp only [SchedState.lookAll, SchedState.look, SchedState.modify, SchedState.mk.injEq, and_true]
  funext pointer
  by_cases same : pointer = current
  · simp [same, outside]
  · simp [same]

theorem search_walk_iff {first : List Word} (listed : state.Listed rota.members)
    (ringEq : rota.ring = first ++ rest) (passes : ∀ pointer ∈ first, state.verdict pointer = .pass) :
    Search kfree context state rota.current switched visits selected flag final ↔
      ∃ more, visits = first ++ more ∧
        Search kfree context (state.lookAll context first) (Rota.pass^[first.length] rota).current
          (switched || first.any fun pointer => (state.process pointer).switches)
          more selected flag final := by
  induction first generalizing state rota switched visits rest with
  | nil => simp
  | cons pointer first ih =>
      have distinct := Rota.ring_nodup listed.nodup
      rw [ringEq, List.cons_append] at distinct
      have outside : pointer ∉ first :=
        fun again => (List.nodup_cons.mp distinct).1 (List.mem_append_left _ again)
      rw [Rota.ring, List.cons_append, List.cons.injEq] at ringEq
      obtain ⟨currentEq, waitingEq⟩ := ringEq
      have turned : rota.pass.ring = first ++ (rest ++ [pointer]) := by
        rw [Rota.ring, Rota.turns_pass, waitingEq, currentEq, List.append_assoc]
      have lookListed : (state.look context pointer).Listed rota.pass.members := by
        rw [Rota.members_pass]
        exact listed.look pointer
      have next : nextInRing (state.look context pointer) state.processesList pointer =
          rota.pass.current := by
        rw [Rota.members_pass] at lookListed
        rw [← currentEq] at lookListed ⊢
        exact nextInRing_eq lookListed
      have others : ∀ other ∈ first, (state.look context pointer).process other =
          state.process other := by
        intro other member
        exact look_of_ne (ne_of_mem_of_not_mem member outside)
      have restPasses : ∀ other ∈ first, (state.look context pointer).verdict other = .pass := by
        intro other member
        have passed := passes other (List.mem_cons_of_mem _ member)
        rw [SchedState.verdict, others other member]
        exact passed
      have sameFlags : (first.any fun other =>
          ((state.look context pointer).process other).switches) =
            first.any fun other => (state.process other).switches := by
        rw [Bool.eq_iff_iff, List.any_eq_true, List.any_eq_true]
        refine exists_congr fun other => and_congr_right fun member => ?_
        rw [others other member]
      rw [currentEq, search_pass_iff (processesList_ne_null listed) (passes _ List.mem_cons_self),
        next]
      constructor
      · rintro ⟨later, rfl, search⟩
        rw [ih lookListed turned restPasses, lookAll_cons outside, sameFlags] at search
        obtain ⟨more, rfl, search⟩ := search
        refine ⟨more, rfl, ?_⟩
        rwa [List.length_cons, Function.iterate_succ_apply, List.any_cons, ← Bool.or_assoc]
      · rintro ⟨more, rfl, search⟩
        refine ⟨first ++ more, rfl, ?_⟩
        rw [ih lookListed turned restPasses, lookAll_cons outside, sameFlags]
        refine ⟨more, rfl, ?_⟩
        rwa [List.length_cons, Function.iterate_succ_apply, List.any_cons,
          ← Bool.or_assoc] at search

theorem lookAll_verdict {pointers : List Word} {pointer : Word} (outside : pointer ∉ pointers) :
    (state.lookAll context pointers).verdict pointer = state.verdict pointer := by
  rw [SchedState.verdict, lookAll_process, if_neg outside]
  rfl

/-- The search ends at the first process that is not passed over, if this is not
a dead one. -/
theorem search_first_iff {first : List Word} (listed : state.Listed rota.members)
    (ringEq : rota.ring = first ++ current :: rest)
    (passes : ∀ pointer ∈ first, state.verdict pointer = .pass)
    (stops : state.verdict current = .stop) :
    Search kfree context state rota.current switched visits selected flag final ↔
      visits = first ++ [current] ∧ selected = current ∧
        flag = ((switched || first.any fun pointer => (state.process pointer).switches) ||
          (state.process current).switches) ∧
        final = (state.lookAll context first).look context current := by
  have outside : current ∉ first := by
    intro inside
    rw [passes current inside] at stops
    cases stops
  have lookListed : (state.lookAll context first).Listed rota.members := listed.lookAll first
  have lookStops : (state.lookAll context first).verdict current = .stop := by
    rw [lookAll_verdict outside, stops]
  rw [search_walk_iff listed ringEq passes, Rota.current_passes ringEq]
  simp only [search_stop_iff (processesList_ne_null lookListed) lookStops, lookAll_process,
    if_neg outside]
  constructor
  · rintro ⟨-, rfl, rfl, rest⟩
    exact ⟨rfl, rest⟩
  · rintro ⟨rfl, rest⟩
    exact ⟨_, rfl, rfl, rest⟩

theorem lookAll_of_looked (same : ∀ pointer ∈ pointers,
      (state.process pointer).looked context state.uptime = state.process pointer) :
    state.lookAll context pointers = state := by
  have processEq : (state.lookAll context pointers).process = state.process := by
    funext pointer
    rw [lookAll_process]
    split
    · next inside => exact same pointer inside
    · rfl
  exact congrArg (fun process => { state with process }) processEq

theorem look_of_ready (isReady : (state.process current).status = .ready) :
    state.look context current = state := by
  simp [SchedState.look, SchedState.modify, Process.looked, isReady]

/-- A turn of the whole ring that finds nothing. -/
theorem search_turn_iff (listed : state.Listed rota.members)
    (allPass : ∀ pointer ∈ rota.ring, state.verdict pointer = .pass) :
    Search kfree context state rota.current switched visits selected flag final ↔
      ∃ more, visits = rota.ring ++ more ∧
        Search kfree context (state.lookAll context rota.ring) rota.current
          (switched || rota.ring.any fun pointer => (state.process pointer).switches)
          more selected flag final := by
  have ringEq : rota.ring = rota.ring ++ [] := (List.append_nil _).symm
  have turned := Rota.ring_passes ringEq
  rw [List.nil_append, Rota.ring, Rota.ring, List.cons.injEq] at turned
  rw [search_walk_iff listed ringEq allPass, Rota.ring, turned.1]

/-- Where a whole turn passes over all processes, the first one that was running
is ready in the second turn. -/
theorem search_second_iff {first : List Word} {running : Word} (listed : state.Listed rota.members)
    (allPass : ∀ pointer ∈ rota.ring, state.verdict pointer = .pass)
    (ringEq : rota.ring = first ++ running :: rest)
    (asleep : ∀ pointer ∈ first, (state.process pointer).status = .sleeping)
    (isRunning : (state.process running).status = .running) :
    Search kfree context state rota.current switched visits selected flag final ↔
      visits = rota.ring ++ (first ++ [running]) ∧ selected = running ∧ flag = true ∧
        final = state.lookAll context rota.ring := by
  obtain ⟨turned, turnedEq⟩ : ∃ turned, state.lookAll context rota.ring = turned := ⟨_, rfl⟩
  have inRing : ∀ pointer ∈ first ++ running :: rest,
      turned.process pointer = (state.process pointer).looked context state.uptime := by
    intro pointer member
    rw [← turnedEq, lookAll_process, if_pos (by rwa [ringEq])]
  have turnedListed : turned.Listed rota.members := by
    rw [← turnedEq]
    exact listed.lookAll _
  have sameUptime : turned.uptime = state.uptime := by
    rw [← turnedEq]
    rfl
  have still : ∀ pointer ∈ first, turned.process pointer = state.process pointer := by
    intro pointer member
    have inside : pointer ∈ rota.ring := by
      rw [ringEq]
      exact List.mem_append_left _ member
    rw [inRing pointer (List.mem_append_left _ member)]
    exact Process.looked_of_sleeping (allPass pointer inside) (asleep pointer member)
  have isReady : (turned.process running).status = .ready := by
    have inside : running ∈ rota.ring := by
      rw [ringEq]
      simp
    rw [inRing running (by simp)]
    exact Process.ready_of_pass (allPass running inside) isRunning
  have firstPasses : ∀ pointer ∈ first, turned.verdict pointer = .pass := by
    intro pointer member
    rw [SchedState.verdict, still pointer member, sameUptime]
    exact allPass pointer (by rw [ringEq]; exact List.mem_append_left _ member)
  have untouched : turned.lookAll context first = turned := by
    refine lookAll_of_looked fun pointer member => ?_
    have looked := inRing pointer (List.mem_append_left _ member)
    rw [still pointer member] at looked ⊢
    rw [sameUptime, ← looked]
  have stops : turned.verdict running = .stop := by
    rw [SchedState.verdict, Process.verdict, isReady]
  rw [search_turn_iff listed allPass, turnedEq]
  simp only [search_walk_iff turnedListed ringEq firstPasses, Rota.current_passes ringEq, untouched,
    search_stop_iff (processesList_ne_null turnedListed) stops, look_of_ready isReady,
    Process.switches, isReady, Bool.or_true]
  constructor
  · rintro ⟨-, rfl, -, rfl, rfl, rfl, rfl, rfl⟩
    exact ⟨rfl, rfl, rfl, rfl⟩
  · rintro ⟨rfl, rfl, rfl, rfl⟩
    exact ⟨_, rfl, _, rfl, rfl, rfl, rfl, rfl⟩

theorem first_running {ring : List Word}
    (allPass : ∀ pointer ∈ ring, state.verdict pointer = .pass)
    (runs : ∃ pointer ∈ ring, (state.process pointer).status = .running) :
    ∃ first running rest, ring = first ++ running :: rest ∧
      (∀ pointer ∈ first, (state.process pointer).status = .sleeping) ∧
      (state.process running).status = .running := by
  rcases forall_or_first (fun pointer => (state.process pointer).status = .sleeping) ring with
    allAsleep | ⟨first, running, rest, ringEq, asleep, notSleeping⟩
  · obtain ⟨pointer, member, running⟩ := runs
    rw [allAsleep pointer member] at running
    cases running
  · have inside : running ∈ ring := by
      rw [ringEq]
      simp
    exact ⟨first, running, rest, ringEq, asleep,
      Process.running_of_pass (allPass running inside) notSleeping⟩

end Walk

section Delete

variable {next : SchedState} {process : Word}

/-- What `process_delete` leaves behind: the other processes, one of which is
current if there are any. -/
structure Deleted (state : SchedState) (members : List Word) (process : Word)
    (next : SchedState) : Prop where
  listed : next.Listed (members.erase process)
  current_mem : members.erase process ≠ [] → next.currentProcess ∈ members.erase process
  unlinked_eq : ∀ pointer, (next.process pointer).unlinked = (state.process pointer).unlinked

theorem Deleted.status_eq (deleted : Deleted state members process next) (pointer : Word) :
    (next.process pointer).status = (state.process pointer).status := by
  have same := congrArg Process.status (deleted.unlinked_eq pointer)
  exact same

theorem advanceCurrent_mem (listed : state.Listed members) (nonempty : members ≠ [])
    (nextMem : (state.process state.currentProcess).next ≠ 0#64 →
      (state.process state.currentProcess).next ∈ members) :
    (advanceCurrent state).currentProcess ∈ members := by
  unfold advanceCurrent
  split
  · next notLast => exact nextMem notLast
  · exact Links.head_mem listed nonempty

theorem advanceCurrent_listed (listed : state.Listed members) :
    (advanceCurrent state).Listed members := by
  unfold advanceCurrent
  split <;> exact listed

theorem advanceCurrent_process : (advanceCurrent state).process = state.process := by
  unfold advanceCurrent
  split <;> rfl

/-- Whichever process is current, any process of the list can be deleted, if
`kfree` comes back. -/
theorem processDelete_returns (listed : state.Listed members) (member : process ∈ members)
    (currentMem : state.currentProcess ∈ members) (frees : kfree process = some (.ok ())) :
    ∃ next, Returns (fun fuel => processDelete kfree fuel state process) (.ok next) ∧
      Deleted state members process next := by
  obtain ⟨rota, rfl, rfl⟩ := Rota.exists_current member
  obtain ⟨gone, unlinkEq, goneListed, sameNext, sameCurrent, -, sameRest, -⟩ :=
    unlinkProcess_eq listed
  rw [← Rota.erase_current listed.nodup] at goneListed
  refine ⟨advanceCurrent gone, ⟨rota.before.length + 1, fun fuel enough => ?_⟩,
    advanceCurrent_listed goneListed, fun nonempty => ?_, fun pointer => ?_⟩
  · dsimp only
    rw [processDelete, if_neg (Links.ne_null listed member), unlinkEq fuel (by omega)]
    simp only [frees]
  · refine advanceCurrent_mem goneListed nonempty fun notLast => ?_
    by_cases isCurrent : gone.currentProcess = rota.current
    · -- the block of the deleted process still has its link
      have behind : Links (fun pointer => (state.process pointer).next) 0#64
          (state.process rota.current).next rota.after := Links.behind listed
      rw [isCurrent, sameNext] at notLast ⊢
      rw [Rota.erase_current listed.nodup]
      exact List.mem_append_right _ (behind.head_mem (mt behind.head_eq_null.mpr notLast))
    · have inRest : gone.currentProcess ∈ rota.members.erase rota.current := by
        rw [sameCurrent] at isCurrent ⊢
        exact (List.mem_erase_of_ne isCurrent).mpr currentMem
      exact Links.next_mem goneListed inRest notLast
  · rw [advanceCurrent_process]
    exact sameRest pointer

theorem processDelete_frees (notNull : process ≠ 0#64)
    (deletes : processDelete kfree fuel state process = some (.ok next)) :
    kfree process = some (.ok ()) := by
  rw [processDelete, if_neg notNull] at deletes
  rcases unlinked : unlinkProcess fuel state process with _ | ⟨_ | gone⟩
  · simp [unlinked] at deletes
  · simp [unlinked] at deletes
  · rcases frees : kfree process with _ | ⟨_ | _⟩
    · simp [unlinked, frees] at deletes
    · simp [unlinked, frees] at deletes
    · rfl

theorem Returns.frees (notNull : process ≠ 0#64)
    (deleted : Returns (fun fuel => processDelete kfree fuel state process) (.ok next)) :
    kfree process = some (.ok ()) := by
  obtain ⟨bound, deletes⟩ := deleted
  exact processDelete_frees notNull (deletes bound (Nat.le_refl bound))

end Delete

section Loop

theorem nextInRing_mem (listed : state.Listed members) (inList : current ∈ members) :
    nextInRing state state.processesList current ∈ members := by
  obtain ⟨rota, rfl, rfl⟩ := Rota.exists_current inList
  rw [nextInRing_eq listed, ← Rota.members_pass]
  exact Rota.current_mem _

theorem endRound_ok
    (ended : endRound fuel state current switched = some (.ok (selected, flag, final))) :
    selected = current ∧ flag = switched ∧ final = state := by
  unfold endRound at ended
  split at ended
  · obtain ⟨answer, -, same⟩ := Option.map_eq_some_iff.mp ended
    rw [Except.ok.injEq, Prod.mk.injEq, Prod.mk.injEq] at same
    exact ⟨same.1.symm, same.2.1.symm, same.2.2.symm⟩
  · rw [Option.some.injEq, Except.ok.injEq, Prod.mk.injEq, Prod.mk.injEq] at ended
    exact ⟨ended.1.symm, ended.2.1.symm, ended.2.2.symm⟩

theorem scheduleLoop_empty (fuel : Nat) (result : Word × Bool × SchedState) :
    scheduleLoop kfree context fuel state 0#64 current switched ≠ some (.ok result) := by
  cases fuel with
  | zero => simp [scheduleLoop]
  | succ fuel => simp [scheduleLoop]

/-- A search is carried out by the loop. -/
theorem Search.returns (search : Search kfree context state current switched visits selected
    flag final)
    (listed : state.Listed members) (inList : current ∈ members)
    (currentMem : state.currentProcess ∈ members) :
    Returns (fun fuel => scheduleLoop kfree context fuel state state.processesList current switched)
      (.ok (selected, flag, final)) := by
  induction search generalizing members with
  | @stop state current switched notEmpty stops =>
      obtain ⟨before, after, rfl⟩ := List.append_of_mem inList
      refine ⟨after.length + 2, fun fuel enough => ?_⟩
      obtain ⟨fuel, rfl⟩ := Nat.exists_eq_add_one_of_ne_zero (Nat.ne_zero_of_lt enough)
      dsimp only
      rw [scheduleLoop_stop notEmpty stops]
      exact endRound_eq (listed.look current) _ (by omega)
  | @pass state final current selected switched flag visits notEmpty passes rest ih =>
      have lookListed : (state.look context current).Listed members := listed.look current
      obtain ⟨bound, ended⟩ := ih lookListed (nextInRing_mem lookListed inList) currentMem
      refine ⟨bound + 1, fun fuel enough => ?_⟩
      obtain ⟨fuel, rfl⟩ := Nat.exists_eq_add_one_of_ne_zero (Nat.ne_zero_of_lt enough)
      dsimp only
      rw [scheduleLoop_pass notEmpty passes]
      exact ended fuel (by omega)
  | @reap state next final current selected switched flag visits notEmpty isDead deleted rest ih =>
      obtain ⟨next', returned, isDeleted⟩ := processDelete_returns listed inList currentMem
        (deleted.frees (Links.ne_null listed inList))
      obtain rfl : next = next' := Except.ok.inj (deleted.unique returned)
      have nonempty : members.erase current ≠ [] :=
        fun isNil => rest.processesList_ne_null (isDeleted.listed.head_eq_null.mpr isNil)
      obtain ⟨bound, ended⟩ := ih isDeleted.listed (isDeleted.current_mem nonempty)
        (isDeleted.current_mem nonempty)
      obtain ⟨bound', deletes⟩ := deleted
      refine ⟨max bound bound' + 1, fun fuel enough => ?_⟩
      obtain ⟨fuel, rfl⟩ := Nat.exists_eq_add_one_of_ne_zero (Nat.ne_zero_of_lt enough)
      dsimp only at deletes ⊢
      rw [scheduleLoop_reap notEmpty isDead (deletes fuel (by omega))]
      exact ended fuel (by omega)

/-- A loop that ends without a panic is a search. -/
theorem search_of_loop (listed : state.Listed members) (inList : current ∈ members)
    (currentMem : state.currentProcess ∈ members)
    (ended : scheduleLoop kfree context fuel state state.processesList current switched =
      some (.ok (selected, flag, final))) :
    ∃ visits, Search kfree context state current switched visits selected flag final := by
  induction fuel generalizing state current switched members with
  | zero => cases ended
  | succ fuel ih =>
      have notEmpty := listed.ne_null (List.ne_nil_of_mem inList)
      cases verdict : state.verdict current with
      | stop =>
          rw [scheduleLoop_stop notEmpty verdict] at ended
          obtain ⟨rfl, rfl, rfl⟩ := endRound_ok ended
          exact ⟨_, .stop notEmpty verdict⟩
      | pass =>
          rw [scheduleLoop_pass notEmpty verdict] at ended
          have lookListed : (state.look context current).Listed members := listed.look current
          obtain ⟨visits, search⟩ :=
            ih lookListed (nextInRing_mem lookListed inList) currentMem ended
          exact ⟨_, .pass notEmpty verdict search⟩
      | reap =>
          rcases deletes : processDelete kfree fuel state current with _ | ⟨reason | next⟩
          · simp only [scheduleLoop, if_neg notEmpty, Process.verdict_eq_reap.mp verdict,
              deletes, reduceCtorEq] at ended
          · simp only [scheduleLoop, if_neg notEmpty, Process.verdict_eq_reap.mp verdict,
              deletes, Option.some.injEq, reduceCtorEq] at ended
          · have deleted : Returns (fun fuel => processDelete kfree fuel state current) (.ok next) :=
              .of_below (fun _ enough => processDelete_below enough state current) deletes
            obtain ⟨next', returned, isDeleted⟩ := processDelete_returns listed inList currentMem
              (deleted.frees (Links.ne_null listed inList))
            obtain rfl : next = next' := Except.ok.inj (deleted.unique returned)
            rw [scheduleLoop_reap notEmpty verdict deletes] at ended
            have nonempty : members.erase current ≠ [] := by
              intro isNil
              have isNull := isDeleted.listed.head_eq_null.mpr isNil
              rw [isNull] at ended
              exact scheduleLoop_empty fuel _ ended
            obtain ⟨visits, search⟩ := ih isDeleted.listed (isDeleted.current_mem nonempty)
              (isDeleted.current_mem nonempty) ended
            exact ⟨_, .reap notEmpty verdict deleted search⟩

end Loop

end MmdOS
