import MmdOS.SchedulerSearch

/-!
# Calls of the scheduler on any list

Where some process is spawned, ready or running, the search of `schedule` ends:
two turns of the ring find a process, unless a deletion starts the search again
on a shorter list.  Every dead process it meets leaves the list, and the process
it ends with is in the list and runs.  All this is so as long as `kfree` comes
back; a search whose first stop is a dead process that cannot be freed does not
end.
-/

namespace MmdOS

open LinkedList RoundRobin

variable {pointer selected : Word} {visits : List Word} {flag : Bool} {final : SchedState}
variable {kfree : Kfree} {context : Word} {state : SchedState} {switched : Bool}
variable {members : List Word}

section Outcome

variable {final : SchedState} {current selected : Word}
variable {flag : Bool} {visits : List Word}

/-- The processes without the dead ones that have been looked at. -/
def SchedState.remaining (state : SchedState) (visits members : List Word) : List Word :=
  members.filter fun pointer =>
    ¬ ((state.process pointer).status = .dead ∧ visits.contains pointer)

theorem mem_remaining : pointer ∈ state.remaining visits members ↔
    pointer ∈ members ∧ ¬ ((state.process pointer).status = .dead ∧ pointer ∈ visits) := by
  rw [SchedState.remaining, List.mem_filter, decide_eq_true_iff, List.contains_iff_mem]

structure Found (state : SchedState) (members visits : List Word) (selected : Word)
    (final : SchedState) : Prop where
  visits_mem : ∀ pointer ∈ visits, pointer ∈ members
  selected_visited : selected ∈ visits
  reaped_once : ∀ pointer ∈ visits, (state.process pointer).status = .dead →
    visits.count pointer = 1
  listed : final.Listed (state.remaining visits members)
  selected_mem : selected ∈ state.remaining visits members

theorem remaining_congr {after : SchedState} {visits' : List Word}
    (same : ∀ pointer ∈ members, (after.process pointer).status = .dead ∧ pointer ∈ visits' ↔
      (state.process pointer).status = .dead ∧ pointer ∈ visits) :
    after.remaining visits' members = state.remaining visits members := by
  refine List.filter_congr fun pointer member => ?_
  rw [decide_eq_decide, not_iff_not, List.contains_iff_mem, List.contains_iff_mem]
  exact same pointer member

theorem remaining_singleton (alive : (state.process current).status ≠ .dead) :
    state.remaining [current] members = members := by
  refine List.filter_eq_self.mpr fun pointer _ => decide_eq_true ?_
  rintro ⟨isDead, visited⟩
  rw [List.mem_singleton.mp (List.contains_iff_mem.mp visited)] at isDead
  exact alive isDead

theorem Process.alive_of_pass {uptime : Word} {process : Process} (context : Word)
    (passes : process.verdict uptime = .pass) :
    process.status ≠ .dead ∧ (process.looked context uptime).status ≠ .dead := by
  rcases @Process.looked_of_pass context _ _ passes with ⟨running, ready⟩ | ⟨sleeping, same⟩
  · rw [running, ready]
    decide
  · rw [same, sleeping]
    decide

theorem remaining_look (passes : state.verdict current = .pass) :
    (state.look context current).remaining visits members =
      state.remaining (current :: visits) members := by
  have alive := Process.alive_of_pass context passes
  refine remaining_congr fun pointer _ => ?_
  by_cases same : pointer = current
  · rw [same, look_self]
    simp [alive]
  · rw [look_of_ne same]
    simp [same]

theorem remaining_deleted {next : SchedState} (distinct : members.Nodup)
    (deleted : Deleted state members current next) (isDead : (state.process current).status = .dead) :
    next.remaining visits (members.erase current) = state.remaining (current :: visits) members := by
  rw [distinct.erase_eq_filter, SchedState.remaining, SchedState.remaining, List.filter_filter]
  refine List.filter_congr fun pointer _ => ?_
  rw [deleted.status_eq]
  by_cases same : pointer = current
  · simp [same, isDead]
  · simp [same]

theorem Search.found (search : Search kfree context state current switched visits selected flag final)
    (listed : state.Listed members) (inList : current ∈ members)
    (currentMem : state.currentProcess ∈ members) :
    Found state members visits selected final := by
  induction search generalizing members with
  | @stop state current switched notEmpty stops =>
      have alive : (state.process current).status ≠ .dead := by
        intro isDead
        rw [SchedState.verdict, Process.verdict_eq_reap.mpr isDead] at stops
        cases stops
      have remainingEq : state.remaining [current] members = members := remaining_singleton alive
      refine ⟨by simpa using inList, List.mem_cons_self, ?_, ?_, ?_⟩
      · intro pointer visited isDead
        rw [List.mem_singleton.mp visited] at isDead
        exact absurd isDead alive
      · rw [remainingEq]
        exact listed.look current
      · rw [remainingEq]
        exact inList
  | @pass state final current selected switched flag visits notEmpty passes rest ih =>
      have lookListed : (state.look context current).Listed members := listed.look current
      have found := ih lookListed (nextInRing_mem lookListed inList) currentMem
      have remainingEq : (state.look context current).remaining visits members =
          state.remaining (current :: visits) members := remaining_look passes
      refine ⟨?_, List.mem_cons_of_mem _ found.selected_visited, ?_, ?_, ?_⟩
      · rw [List.forall_mem_cons]
        exact ⟨inList, found.visits_mem⟩
      · intro pointer visited isDead
        have different : pointer ≠ current := by
          rintro rfl
          exact (Process.alive_of_pass context passes).1 isDead
        rw [List.count_cons_of_ne different.symm]
        refine found.reaped_once pointer (List.mem_of_ne_of_mem different visited) ?_
        rwa [look_of_ne different]
      · rw [← remainingEq]
        exact found.listed
      · rw [← remainingEq]
        exact found.selected_mem
  | @reap state next final current selected switched flag visits notEmpty isDead deleted rest ih =>
      obtain ⟨next', returned, isDeleted⟩ := processDelete_returns listed inList currentMem
        (deleted.frees (Links.ne_null listed inList))
      obtain rfl : next = next' := Except.ok.inj (deleted.unique returned)
      have nonempty : members.erase current ≠ [] :=
        fun isNil => rest.processesList_ne_null (isDeleted.listed.head_eq_null.mpr isNil)
      have found := ih isDeleted.listed (isDeleted.current_mem nonempty)
        (isDeleted.current_mem nonempty)
      have distinct : members.Nodup := listed.nodup
      have gone : current ∉ visits := by
        intro again
        exact distinct.not_mem_erase (found.visits_mem current again)
      have remainingEq : next.remaining visits (members.erase current) =
          state.remaining (current :: visits) members :=
        remaining_deleted distinct isDeleted (Process.verdict_eq_reap.mp isDead)
      refine ⟨?_, List.mem_cons_of_mem _ found.selected_visited, ?_, ?_, ?_⟩
      · rw [List.forall_mem_cons]
        exact ⟨inList, fun pointer visited => List.mem_of_mem_erase
          (found.visits_mem pointer visited)⟩
      · intro pointer visited pointerDead
        rcases List.mem_cons.mp visited with rfl | later
        · rw [List.count_cons_self, List.count_eq_zero_of_not_mem gone]
        · have different : pointer ≠ current := ne_of_mem_of_not_mem later gone
          rw [List.count_cons_of_ne different.symm]
          refine found.reaped_once pointer later ?_
          rwa [isDeleted.status_eq]
      · rw [← remainingEq]
        exact found.listed
      · rw [← remainingEq]
        exact found.selected_mem

end Outcome

section Termination

variable {rota : Rota Word}

def Process.Awake (process : Process) : Prop :=
  process.status = .spawned ∨ process.status = .ready ∨ process.status = .running

theorem Process.Awake.looked {uptime : Word} {process : Process} (awake : process.Awake) :
    (process.looked context uptime).Awake := by
  rcases awake with spawned | ready | running
  · exact .inr (.inl (by simp only [Process.looked, spawned]))
  · exact .inr (.inl (by simp only [Process.looked, ready]))
  · simp only [Process.Awake, Process.looked, running]
    split
    · exact .inr (.inr rfl)
    · exact .inr (.inl rfl)

theorem Process.Awake.lookAll (awake : (state.process pointer).Awake) (pointers : List Word) :
    ((state.lookAll context pointers).process pointer).Awake := by
  rw [lookAll_process]
  split
  · exact awake.looked
  · exact awake

/-- The first process that is not passed over, if there is one, is not dead. -/
def SchedState.StopsAlive (state : SchedState) (ring : List Word) : Prop :=
  ∀ first current rest, ring = first ++ current :: rest →
    (∀ pointer ∈ first, state.verdict pointer = .pass) → state.verdict current ≠ .reap

theorem search_exists_of_alive (listed : state.Listed rota.members)
    (awake : ∃ pointer ∈ rota.members, (state.process pointer).Awake)
    (alive : state.StopsAlive rota.ring) :
    ∃ visits selected flag final,
      Search kfree context state rota.current switched visits selected flag final := by
  rcases forall_or_first (fun pointer => state.verdict pointer = .pass) rota.ring with
    allPass | ⟨first, current, rest, ringEq, passes, notPass⟩
  · obtain ⟨pointer, member, isAwake⟩ := awake
    rw [← Rota.mem_ring] at member
    have notSleeping : (state.process pointer).status ≠ .sleeping := by
      intro sleeping
      simp [Process.Awake, sleeping] at isAwake
    have runs := Process.running_of_pass (allPass pointer member) notSleeping
    obtain ⟨first, running, rest, ringEq, asleep, isRunning⟩ :=
      first_running allPass ⟨pointer, member, runs⟩
    exact ⟨_, _, _, _,
      (search_second_iff listed allPass ringEq asleep isRunning).mpr ⟨rfl, rfl, rfl, rfl⟩⟩
  · have stops : state.verdict current = .stop := by
      cases verdict : state.verdict current with
      | stop => rfl
      | pass => exact absurd verdict notPass
      | reap => exact absurd verdict (alive first current rest ringEq passes)
    exact ⟨_, _, _, _, (search_first_iff listed ringEq passes stops).mpr ⟨rfl, rfl, rfl, rfl⟩⟩

/-- Unless all processes are asleep or dead, the search ends if `kfree` comes
back. -/
theorem search_exists (listed : state.Listed rota.members)
    (currentEq : state.currentProcess = rota.current)
    (awake : ∃ pointer ∈ rota.members, (state.process pointer).Awake)
    (frees : ∀ pointer ∈ rota.members, (state.process pointer).status = .dead →
      kfree pointer = some (.ok ())) :
    ∃ visits selected flag final,
      Search kfree context state rota.current switched visits selected flag final := by
  -- every process that is deleted makes the list shorter, and between two
  -- deletions the search takes at most two turns
  obtain ⟨count, lengthEq⟩ : ∃ count, rota.members.length = count := ⟨_, rfl⟩
  induction count generalizing state rota switched with
  | zero => exact absurd (List.length_eq_zero_iff.mp lengthEq) (members_ne_nil rota)
  | succ count ih =>
      by_cases alive : state.StopsAlive rota.ring
      · exact search_exists_of_alive listed awake alive
      · simp only [SchedState.StopsAlive, not_forall, not_not] at alive
        obtain ⟨first, current, rest, ringEq, passes, verdict⟩ := alive
        have isDead := Process.verdict_eq_reap.mp verdict
        have outside : current ∉ first := by
          intro inside
          rw [passes current inside] at verdict
          cases verdict
        have sameVerdict := @lookAll_verdict context state _ _ outside
        have lookListed : (state.lookAll context first).Listed rota.members := listed.lookAll first
        have member : current ∈ rota.members := by
          rw [← Rota.mem_ring, ringEq]
          simp
        have currentMem : (state.lookAll context first).currentProcess ∈ rota.members := by
          rw [show (state.lookAll context first).currentProcess = rota.current from currentEq]
          exact rota.current_mem
        obtain ⟨next, deleted, isDeleted⟩ :=
          processDelete_returns lookListed member currentMem (frees current member isDead)
        obtain ⟨pointer, inMembers, isAwake⟩ := awake
        have different : pointer ≠ current := by
          rintro rfl
          simp [Process.Awake, isDead] at isAwake
        have stays : pointer ∈ rota.members.erase current :=
          (List.mem_erase_of_ne different).mpr inMembers
        obtain ⟨shorter, membersEq, shorterEq⟩ :=
          Rota.exists_current (isDeleted.current_mem (List.ne_nil_of_mem stays))
        have stillAwake : (next.process pointer).Awake := by
          rw [Process.Awake, isDeleted.status_eq]
          exact isAwake.lookAll first
        have nextListed := isDeleted.listed
        rw [← membersEq] at nextListed stays
        have shorterLength : shorter.members.length = count := by
          rw [membersEq, List.length_erase_of_mem member, lengthEq]
          rfl
        have nextFrees : ∀ other ∈ shorter.members, (next.process other).status = .dead →
            kfree other = some (.ok ()) := by
          intro other inShorter otherDead
          rw [membersEq] at inShorter
          rw [isDeleted.status_eq, lookAll_process] at otherDead
          refine frees other (List.mem_of_mem_erase inShorter) ?_
          by_cases passed : other ∈ first
          · rw [if_pos passed] at otherDead
            exact absurd otherDead (Process.alive_of_pass context (passes other passed)).2
          · rwa [if_neg passed] at otherDead
        obtain ⟨visits, selected, flag, final, search⟩ :=
          @ih next true shorter nextListed shorterEq.symm ⟨pointer, stays, stillAwake⟩
            nextFrees shorterLength
        rw [shorterEq] at search
        refine ⟨first ++ current :: visits, selected, flag, final,
          (search_walk_iff listed ringEq passes).mpr ⟨_, rfl, ?_⟩⟩
        rw [Rota.current_passes ringEq]
        exact .reap (processesList_ne_null lookListed) (sameVerdict.trans verdict) deleted search

/-- A search whose first stop is a dead process frees it. -/
theorem Search.frees_first {first rest : List Word} {current : Word}
    (search : Search kfree context state rota.current switched visits selected flag final)
    (listed : state.Listed rota.members) (ringEq : rota.ring = first ++ current :: rest)
    (passes : ∀ pointer ∈ first, state.verdict pointer = .pass)
    (isDead : state.verdict current = .reap) : kfree current = some (.ok ()) := by
  have outside : current ∉ first := by
    intro inside
    rw [passes current inside] at isDead
    cases isDead
  have member : current ∈ rota.members := by
    rw [← Rota.mem_ring, ringEq]
    simp
  rw [search_walk_iff listed ringEq passes, Rota.current_passes ringEq] at search
  obtain ⟨more, -, later⟩ := search
  obtain ⟨next, after, -, deleted, -⟩ := later.reaped ((lookAll_verdict outside).trans isDead)
  exact deleted.frees (Links.ne_null listed member)

end Termination

section Calls

variable {switchPml : Word → Word}

def SchedState.started (state : SchedState) : SchedState :=
  if state.currentProcess = 0#64 then state.processSetCurrent state.processesList else state

def Schedules (kfree : Kfree) (switchPml : Word → Word) (context : Word) (state : SchedState)
    (visits : List Word) (returned : Word) (after : SchedState) : Prop :=
  ∃ selected flag final,
    Search kfree context state.started state.started.currentProcess false visits selected flag final ∧
    endSchedule switchPml final selected flag = (returned, after)

theorem started_listed {members : List Word} (listed : state.Listed members) :
    state.started.Listed members := by
  unfold SchedState.started
  split <;> exact listed

theorem started_process : state.started.process = state.process := by
  unfold SchedState.started
  split <;> rfl

theorem started_mem {members : List Word} (listed : state.Listed members) (nonempty : members ≠ [])
    (current : state.currentProcess = 0#64 ∨ state.currentProcess ∈ members) :
    state.started.currentProcess ∈ members := by
  unfold SchedState.started
  split
  · exact Links.head_mem listed nonempty
  · next notNull => exact current.resolve_left notNull

theorem Search.schedules
    (search : Search kfree context state.started state.started.currentProcess false visits
      selected flag final) (switchPml : Word → Word) :
    Schedules kfree switchPml context state visits (endSchedule switchPml final selected flag).1
      (endSchedule switchPml final selected flag).2 :=
  ⟨selected, flag, final, search, rfl⟩

theorem Search.schedule_returns {members : List Word}
    (search : Search kfree context state.started state.started.currentProcess false visits
      selected flag final) (listed : state.Listed members)
    (current : state.currentProcess = 0#64 ∨ state.currentProcess ∈ members)
    (switchPml : Word → Word) :
    Returns (fun fuel => schedule kfree switchPml fuel state context)
      (.ok (endSchedule switchPml final selected flag)) := by
  have startedListed := started_listed listed
  have nonempty : members ≠ [] :=
    fun isNil => search.processesList_ne_null (startedListed.head_eq_null.mpr isNil)
  have currentMem := started_mem listed nonempty current
  obtain ⟨bound, loop⟩ := search.returns startedListed currentMem currentMem
  refine ⟨bound, fun fuel enough => ?_⟩
  have loopEq := loop fuel enough
  dsimp only at loopEq ⊢
  rw [schedule, if_neg (listed.ne_null nonempty)]
  change (scheduleLoop kfree context fuel state.started state.started.processesList
    state.started.currentProcess false).map _ = _
  rw [loopEq]
  rfl

/-- The calls of `schedule` that return are those whose search ends. -/
theorem schedule_returns_iff {members : List Word} {returned : Word} {after : SchedState}
    (listed : state.Listed members) (nonempty : members ≠ [])
    (current : state.currentProcess = 0#64 ∨ state.currentProcess ∈ members) :
    Returns (fun fuel => schedule kfree switchPml fuel state context) (.ok (returned, after)) ↔
      ∃ visits, Schedules kfree switchPml context state visits returned after := by
  have currentMem := started_mem listed nonempty current
  constructor
  · rintro ⟨bound, ended⟩
    have call := ended bound (Nat.le_refl bound)
    simp only [schedule, if_neg (listed.ne_null nonempty)] at call
    obtain ⟨result, loop, mapped⟩ := Option.map_eq_some_iff.mp call
    cases result with
    | error reason => cases mapped
    | ok found =>
        obtain ⟨selected, flag, final⟩ := found
        obtain ⟨visits, search⟩ :=
          search_of_loop (started_listed listed) currentMem currentMem loop
        exact ⟨visits, selected, flag, final, search, Except.ok.inj mapped⟩
  · rintro ⟨visits, selected, flag, final, search, endEq⟩
    rw [← endEq]
    exact search.schedule_returns listed current switchPml

theorem endSchedule_state (switchPml : Word → Word) (final : SchedState) (selected : Word)
    (flag : Bool) :
    (endSchedule switchPml final selected flag).2 =
      { final with
        process := Function.update final.process selected
          { final.process selected with
            status := .running
            remainingQuantum :=
              if flag then defaultQuantum else (final.process selected).remainingQuantum }
        currentProcess := selected
        rsp0 := if flag then (final.process selected).kstack else final.rsp0
        cr3 := if flag then switchPml (final.process selected).vmm else final.cr3 } := by
  cases flag with
  | false => simp [endSchedule, SchedState.setStatus, SchedState.modify,
      SchedState.processSetCurrent]
  | true => simp [endSchedule, schedulerContextSwitch, SchedState.setStatus, SchedState.modify,
      SchedState.processSetCurrent]

theorem endSchedule_current (switchPml : Word → Word) (final : SchedState) (selected : Word)
    (flag : Bool) : (endSchedule switchPml final selected flag).2.currentProcess = selected := by
  rw [endSchedule_state]

theorem endSchedule_listed {members : List Word} (listed : final.Listed members)
    (switchPml : Word → Word) (selected : Word) (flag : Bool) :
    (endSchedule switchPml final selected flag).2.Listed members := by
  rw [endSchedule_state]
  refine listed.congr rfl fun pointer _ => ?_
  dsimp only
  by_cases same : pointer = selected
  · rw [same, Function.update_self]
  · rw [Function.update_of_ne same]

/-- The processes in the order in which the loop comes to them: from the current
one, or else from the head of the list, round to the process in front of it. -/
def SchedState.searchOrder (state : SchedState) (members : List Word) : List Word :=
  members.dropWhile (· ≠ state.started.currentProcess) ++
    members.takeWhile (· ≠ state.started.currentProcess)

/-- The first process in this order that is not passed over: it is neither asleep,
nor running at the end of its quantum. -/
def SchedState.firstStop (state : SchedState) (members : List Word) : Option Word :=
  (state.searchOrder members).find? fun pointer => state.verdict pointer ≠ .pass

/-- A call of `schedule` ends without a panic.  Every dead process that it looks
at is removed once, and the process it selects is in the resulting list, current
and running. -/
def Completes (kfree : Kfree) (switchPml : Word → Word) (context : Word) (state : SchedState)
    (members : List Word) : Prop :=
  ∃ visits returned after,
    Returns (fun fuel => schedule kfree switchPml fuel state context) (.ok (returned, after)) ∧
    Schedules kfree switchPml context state visits returned after ∧
    (∀ pointer ∈ visits, (state.process pointer).status = .dead →
      visits.count pointer = 1 ∧ pointer ∉ state.remaining visits members) ∧
    after.Listed (state.remaining visits members) ∧
    after.currentProcess ∈ state.remaining visits members ∧
    (after.process after.currentProcess).status = .running

theorem Search.completes {members : List Word}
    (search : Search kfree context state.started state.started.currentProcess false visits selected
      flag final) (listed : state.Listed members) (nonempty : members ≠ [])
    (current : state.currentProcess = 0#64 ∨ state.currentProcess ∈ members)
    (switchPml : Word → Word) : Completes kfree switchPml context state members := by
  have currentMem := started_mem listed nonempty current
  have found := search.found (started_listed listed) currentMem currentMem
  have remainingEq : state.started.remaining visits members = state.remaining visits members := by
    rw [SchedState.remaining, SchedState.remaining, started_process]
  refine ⟨visits, (endSchedule switchPml final selected flag).1,
    (endSchedule switchPml final selected flag).2,
    search.schedule_returns listed current switchPml, search.schedules switchPml, ?_, ?_, ?_, ?_⟩
  · intro pointer visited isDead
    refine ⟨found.reaped_once pointer visited (by rwa [started_process]), ?_⟩
    intro stays
    exact (mem_remaining.mp stays).2 ⟨isDead, visited⟩
  · rw [← remainingEq]
    exact endSchedule_listed found.listed switchPml selected flag
  · rw [← remainingEq, endSchedule_current]
    exact found.selected_mem
  · rw [endSchedule_state]
    simp

theorem started_verdict (pointer : Word) : state.started.verdict pointer = state.verdict pointer := by
  unfold SchedState.started
  split <;> rfl

theorem searchOrder_eq {rota : Rota Word} (distinct : rota.members.Nodup)
    (currentEq : rota.current = state.started.currentProcess) :
    state.searchOrder rota.members = rota.ring := by
  have differs : ∀ pointer ∈ rota.before,
      decide (pointer ≠ state.started.currentProcess) = true := by
    intro pointer member
    refine decide_eq_true ?_
    rintro rfl
    rw [← currentEq] at member
    exact List.disjoint_of_nodup_append distinct member List.mem_cons_self
  rw [SchedState.searchOrder, Rota.members, List.dropWhile_append_of_pos differs,
    List.takeWhile_append_of_pos differs]
  simp [Rota.ring, Rota.waiting, currentEq]

theorem firstStop_eq_some_iff {members : List Word} :
    state.firstStop members = some pointer ↔
      state.verdict pointer ≠ .pass ∧ ∃ first rest,
        state.searchOrder members = first ++ pointer :: rest ∧
          ∀ other ∈ first, state.verdict other = .pass := by
  simp [SchedState.firstStop, List.find?_eq_some_iff_append]

/-- What `schedule` does on a list with a process that is spawned, ready or
running depends on `kfree`.  If the first process that is not passed over is dead
and cannot be freed, the call does not end as it should.  It does if that process
is alive, or if all dead processes of the list can be freed. -/
theorem schedule_completes_when {members : List Word} (listed : state.Listed members)
    (current : state.currentProcess = 0#64 ∨ state.currentProcess ∈ members)
    (awake : ∃ pointer ∈ members, (state.process pointer).Awake) :
    (Completes kfree switchPml context state members →
      ∀ pointer, state.firstStop members = some pointer →
        (state.process pointer).status = .dead → kfree pointer = some (.ok ())) ∧
    ((∀ pointer, state.firstStop members = some pointer →
        (state.process pointer).status ≠ .dead) ∨
      (∀ pointer ∈ members, (state.process pointer).status = .dead →
        kfree pointer = some (.ok ())) →
      Completes kfree switchPml context state members) := by
  obtain ⟨pointer, member, isAwake⟩ := awake
  have nonempty := List.ne_nil_of_mem member
  have startedListed := started_listed listed
  obtain ⟨rota, rfl, currentEq⟩ := Rota.exists_current (started_mem listed nonempty current)
  have orderEq := searchOrder_eq listed.nodup currentEq
  have startedAwake : ∃ pointer ∈ rota.members, (state.started.process pointer).Awake :=
    ⟨pointer, member, by rwa [started_process]⟩
  constructor
  · rintro ⟨visits, returned, after, returns, -⟩ stop isFirst isDead
    rw [firstStop_eq_some_iff, orderEq] at isFirst
    obtain ⟨-, first, rest, ringEq, passes⟩ := isFirst
    rw [schedule_returns_iff listed nonempty current] at returns
    obtain ⟨visits, selected, flag, final, search, -⟩ := returns
    rw [← currentEq] at search
    refine search.frees_first startedListed ringEq ?_ ?_
    · simpa only [started_verdict] using passes
    · rw [started_verdict]
      exact Process.verdict_eq_reap.mpr isDead
  · intro condition
    have ends : ∃ visits selected flag final, Search kfree context state.started rota.current false
        visits selected flag final := by
      rcases condition with alive | frees
      · refine search_exists_of_alive startedListed startedAwake ?_
        intro first stop rest ringEq passes isDead
        simp only [started_verdict] at passes isDead
        refine alive stop ?_ (Process.verdict_eq_reap.mp isDead)
        rw [firstStop_eq_some_iff, orderEq, isDead]
        exact ⟨by decide, first, rest, ringEq, passes⟩
      · refine search_exists startedListed currentEq.symm startedAwake ?_
        rwa [started_process]
    obtain ⟨visits, selected, flag, final, search⟩ := ends
    rw [currentEq] at search
    exact search.completes listed nonempty current switchPml

end Calls

section Spinning

variable {process : Word}

theorem processDelete_spins (listed : state.Listed members) (member : process ∈ members)
    (currentMem : state.currentProcess ∈ members) (spins : kfree process = none) (fuel : Nat) :
    processDelete kfree fuel state process = none := by
  have notNull := Links.ne_null listed member
  rw [processDelete, if_neg notNull]
  rcases unlinked : unlinkProcess fuel state process with _ | ⟨reason | gone⟩
  · rfl
  · -- a process of the list is found, so this is no panic
    obtain ⟨next, returned, -⟩ :=
      processDelete_returns listed member currentMem (freed_apply process)
    have failed : processDelete freed fuel state process = some (.error reason) := by
      rw [processDelete, if_neg notNull, unlinked]
    have error : Returns (fun fuel => processDelete freed fuel state process) (.error reason) :=
      .of_below (fun _ enough => processDelete_below enough state process) failed
    cases error.unique returned
  · simp only [spins]

/-- While `kfree` waits for a lock, so does `schedule`. -/
theorem schedule_spins (listed : state.Listed members)
    (currentMem : state.currentProcess ∈ members)
    (isDead : (state.process state.currentProcess).status = .dead)
    (spins : kfree state.currentProcess = none) (switchPml : Word → Word) (context : Word)
    (fuel : Nat) : schedule kfree switchPml fuel state context = none := by
  have notEmpty := listed.ne_null (List.ne_nil_of_mem currentMem)
  have notNull := Links.ne_null listed currentMem
  cases fuel with
  | zero => simp [schedule, scheduleLoop, notEmpty]
  | succ fuel =>
      simp [schedule, scheduleLoop, notEmpty, notNull, isDead,
        processDelete_spins listed currentMem currentMem spins fuel]

end Spinning

def exampleProcess (pid : Nat) (status : Status) (quantum : BitVec 16)
    (wakeTime : Word) : Process where
  pid := pid
  status := status
  vmm := 0x3000#64 + BitVec.ofNat 64 pid
  remainingQuantum := quantum
  wakeTime := wakeTime
  next := 0#64
  context := 0x1100#64 + BitVec.ofNat 64 pid
  kstack := 0x2000#64 + BitVec.ofNat 64 pid

def twoProcesses (first second : Process) : SchedState where
  process := fun pointer =>
    if pointer = 0x1000#64 then { first with next := 0x4000#64 } else { second with next := 0#64 }
  processesList := 0x1000#64
  currentProcess := 0x4000#64
  nextPid := 3
  uptime := 100#64
  rsp0 := second.kstack
  cr3 := second.vmm

theorem twoProcesses_listed (first second : Process) :
    (twoProcesses first second).Listed [0x1000#64, 0x4000#64] :=
  ⟨rfl, by decide, rfl, by decide, rfl⟩

theorem schedule_completes_when_two :
    Completes freed id 0x7000#64 (twoProcesses (exampleProcess 1 .running 1#16 0#64)
      (exampleProcess 2 .dead 0#16 0#64)) [0x1000#64, 0x4000#64] :=
  (schedule_completes_when (twoProcesses_listed (exampleProcess 1 .running 1#16 0#64)
    (exampleProcess 2 .dead 0#16 0#64)) (.inr (by decide))
    ⟨0x1000#64, by decide, .inr (.inr rfl)⟩).2 (.inr fun _ _ _ => rfl)

end MmdOS
