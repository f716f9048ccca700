import MmdOS.SchedulerRuns

/-!
# Whose turn it is

The records of a run determine the turns of the processes, and the quanta that
the calls of `schedule` give are the turns that begin there.  A quantum lasts
for three calls, and nobody is given a second one while somebody waits.
-/

namespace MmdOS

open LinkedList RoundRobin

namespace SchedRecord

def Exits (record : SchedRecord) (pid : Nat) : Prop :=
  match record.event with
  | .exit _ => record.before.Running pid
  | .create _ | .tick _ => False

end SchedRecord

def calls (trace : List SchedRecord) : Nat :=
  trace.countP fun record => record.IsCall

section Turns

variable {switchPml : Word → Word} {trace : List SchedRecord} {record : SchedRecord}
variable {state : SchedState} {pid : Nat}
variable {later : List SchedRecord}

theorem SchedRun.begins_iff (run : SchedRun switchPml (record :: trace) state)
    (isCall : record.IsCall) :
    record.Begins pid ↔ (turnsOf (record :: trace)).Begun 3 pid := by
  obtain ⟨turns, follows⟩ := run.follows
  obtain ⟨-, -, rfl⟩ := run.of_cons
  obtain ⟨running, -⟩ := follows.called record (by simp) isCall
  obtain ⟨rota, left, rfl, scheduled⟩ := follows.inTurns.exists_turn running
  have quantum_iff : BitVec.ofNat 16 left = defaultQuantum ↔ left = 3 := by
    obtain ⟨positive, atMost⟩ := scheduled.quantum_range
    obtain rfl | rfl | rfl : left = 1 ∨ left = 2 ∨ left = 3 := by omega
    · simp [defaultQuantum]
    · simp [defaultQuantum]
    · simp [defaultQuantum]
  rw [← follows.pids_eq]
  simp [SchedRecord.Begins, SchedRecord.Selects, SchedState.Running, isCall,
    scheduled.current_eq, scheduled.current_ne_null, scheduled.quantum_eq, quantum_iff, Turns.map,
    Turns.Begun, Rota.map]

theorem SchedRun.within (run : SchedRun switchPml trace state) : (turnsOf trace).Within 3 := by
  obtain ⟨turns, follows⟩ := run.follows
  rw [← follows.pids_eq]
  cases turns with
  | idle pointers => trivial
  | turn rota left => exact (Scheduled.quantum_range follows.inTurns).2

theorem SchedRun.nodup (run : SchedRun switchPml trace state) : (turnsOf trace).members.Nodup := by
  obtain ⟨turns, follows⟩ := run.follows
  exact follows.increasing.imp fun isLess => Nat.ne_of_lt isLess

theorem SchedRun.turnsOf_exit {frame : Word} (run : SchedRun switchPml (record :: trace) state)
    (event_eq : record.event = .exit frame) :
    ∃ rota rest left, turnsOf trace = .turn rota left ∧ rota.leave = some rest ∧
      turnsOf (record :: trace) = .turn rest 3 := by
  obtain ⟨earlier, valid, -⟩ := run.of_cons
  obtain ⟨turns, follows⟩ := earlier.follows
  simp only [SchedRecord.Valid, event_eq] at valid
  obtain ⟨rota, rest, left, rfl, -, isLeft, -⟩ :=
    follows.inTurns.exists_leave follows.head_pid valid.1 valid.2.1
  have isLeft' : (rota.map record.before.pid).leave = some (rest.map record.before.pid) := by
    rw [Rota.leave_map, isLeft, Option.map_some]
  refine ⟨_, _, left, follows.pids_eq.symm, isLeft', ?_⟩
  simp only [turnsOf, event_eq, ← follows.pids_eq]
  exact Turns.leave_turn 3 isLeft'

theorem SchedRun.keeps_turn {first : SchedRecord}
    (run : SchedRun switchPml (later ++ first :: trace) state)
    (begun : (turnsOf (first :: trace)).Begun 3 pid) (stays : ∀ record ∈ later, ¬record.Exits pid)
    (early : calls later < 3) :
    ∃ rota, turnsOf (later ++ first :: trace) = .turn rota (3 - calls later) ∧
      rota.current = pid := by
  induction later generalizing state with
  | nil =>
      cases turnsEq : turnsOf (first :: trace) with
      | idle queue =>
          rw [turnsEq] at begun
          exact begun.elim
      | turn rota left =>
          rw [turnsEq] at begun
          obtain ⟨isCurrent, rfl⟩ := begun
          exact ⟨rota, turnsEq, isCurrent⟩
  | cons last later ih =>
      have isLe : calls later ≤ calls (last :: later) := by
        simp only [calls, List.countP_cons]
        omega
      obtain ⟨rota, turnsEq, isCurrent⟩ := ih run.of_cons.1
        (fun record member => stays record (List.mem_cons_of_mem _ member)) (by omega)
      cases event_eq : last.event with
      | create new =>
          have sameCalls : calls (last :: later) = calls later := by
            simp [calls, SchedRecord.IsCall, event_eq]
          refine ⟨rota.join last.before.nextPid, ?_, isCurrent⟩
          rw [List.cons_append, sameCalls]
          simp [turnsOf, event_eq, turnsEq, Turns.join]
      | tick frame =>
          have oneMore : calls (last :: later) = calls later + 1 := by
            simp [calls, SchedRecord.IsCall, event_eq]
          have left_eq : 3 - calls later = (3 - calls (last :: later)) + 1 := by omega
          refine ⟨rota, ?_, isCurrent⟩
          rw [List.cons_append]
          simp only [turnsOf, event_eq, turnsEq, left_eq]
          exact Turns.tick_turn 3 (by omega)
      | exit frame =>
          have exits : last.Exits pid := by
            simp only [SchedRecord.Exits, event_eq]
            exact run.of_cons.1.running_iff.mpr ⟨rota, _, turnsEq, isCurrent⟩
          exact absurd exits (stays last List.mem_cons_self)

theorem SchedRun.ahead_step {other : Nat} (run : SchedRun switchPml (record :: trace) state)
    (ahead : (turnsOf trace).Ahead other pid) (isOld : pid < record.before.nextPid)
    (notYet : ¬record.Begins other) :
    ¬record.Begins pid ∧ (turnsOf (record :: trace)).Ahead other pid := by
  have earlier := run.of_cons.1
  cases event_eq : record.event with
  | create new =>
      refine ⟨fun begins => ?_, ?_⟩
      · have isCall := begins.1.1
        simp [SchedRecord.IsCall, event_eq] at isCall
      · simp only [turnsOf, event_eq]
        exact ahead.join (Nat.ne_of_gt isOld)
  | tick frame =>
      have isCall : record.IsCall := by simp [SchedRecord.IsCall, event_eq]
      rw [run.begins_iff isCall] at notYet ⊢
      simp only [turnsOf, event_eq] at notYet ⊢
      exact ahead.tick earlier.nodup earlier.within notYet
  | exit frame =>
      have isCall : record.IsCall := by simp [SchedRecord.IsCall, event_eq]
      rw [run.begins_iff isCall] at notYet ⊢
      obtain ⟨rota, rest, left, turnsEq, isLeft, next⟩ := run.turnsOf_exit event_eq
      have distinct := earlier.nodup
      rw [turnsEq] at ahead distinct
      rw [next] at notYet ⊢
      exact ahead.leave distinct isLeft notYet

/-- As long as `other` waits for its turn, it comes before the next one of the
process. -/
theorem SchedRun.stays_ahead {first : SchedRecord} {other : Nat}
    (run : SchedRun switchPml (later ++ first :: trace) state)
    (ahead : (turnsOf (first :: trace)).Ahead other pid) (isOld : pid < first.after.nextPid)
    (notYet : ∀ record ∈ later, ¬record.Begins other) :
    (turnsOf (later ++ first :: trace)).Ahead other pid ∧ pid < state.nextPid := by
  induction later generalizing state with
  | nil =>
      obtain ⟨-, -, rfl⟩ := run.of_cons
      exact ⟨ahead, isOld⟩
  | cons last later ih =>
      obtain ⟨earlier, -, rfl⟩ := run.of_cons
      obtain ⟨stillAhead, stillOld⟩ := ih earlier
        fun record member => notYet record (List.mem_cons_of_mem _ member)
      obtain ⟨turns, follows⟩ := run.follows
      refine ⟨(run.ahead_step stillAhead stillOld (notYet last List.mem_cons_self)).2, ?_⟩
      exact Nat.lt_of_lt_of_le isOld (follows.grows first (by simp))

/-- Round robin.  A process that is given a quantum and does not exit is
selected by the call that gives it and by the next two calls, and the third
call begins another quantum.  When the process is given its next quantum,
everybody else who lived when the first one began has had one. -/
theorem round_robin_no_bypass {first last : SchedRecord} {later : List SchedRecord}
    (run : SchedRun switchPml (last :: (later ++ first :: trace)) state)
    (begins : first.Begins pid) :
    ((∀ record ∈ last :: later, ¬record.Exits pid) → last.IsCall →
      (calls later < 2 → last.Selects pid ∧ ∀ other, ¬last.Begins other) ∧
      (calls later = 2 → ∃ other, last.Begins other)) ∧
    (last.Begins pid → ∀ other ∈ livePids (first :: trace), other ≠ pid →
      ∃ record ∈ later, record.Begins other) := by
  have earlier := run.of_cons.1
  have firstRun : SchedRun switchPml (first :: trace) first.after := earlier.of_append
  have begun := (firstRun.begins_iff begins.1.1).mp begins
  refine ⟨fun stays isCall => ?_, fun again other lives different => ?_⟩
  · have notLast := stays last List.mem_cons_self
    have turn := fun early => earlier.keeps_turn begun
      (fun record member => stays record (List.mem_cons_of_mem _ member)) early
    cases event_eq : last.event with
    | create new => simp [SchedRecord.IsCall, event_eq] at isCall
    | exit frame =>
        have late : ¬calls later < 3 := by
          intro early
          obtain ⟨rota, turnsEq, isCurrent⟩ := turn early
          have running := earlier.running_iff.mpr ⟨rota, _, turnsEq, isCurrent⟩
          simp [SchedRecord.Exits, event_eq, running] at notLast
        exact ⟨fun early => absurd (by omega) late, fun isThird => absurd (by omega) late⟩
    | tick frame =>
        refine ⟨fun early => ?_, fun isThird => ?_⟩
        · obtain ⟨rota, turnsEq, isCurrent⟩ := turn (by omega)
          have left_eq : 3 - calls later = (2 - calls later) + 1 := by omega
          have next : turnsOf (last :: (later ++ first :: trace)) =
              .turn rota (2 - calls later) := by
            simp only [turnsOf, event_eq, turnsEq, left_eq]
            exact Turns.tick_turn 3 (by omega)
          have running : last.after.Running pid := by
            have := run.running_iff.mpr ⟨rota, _, next, isCurrent⟩
            rwa [run.of_cons.2.2] at this
          refine ⟨⟨isCall, running⟩, fun other => ?_⟩
          rw [run.begins_iff isCall, next]
          rintro ⟨-, isFull⟩
          omega
        · obtain ⟨rota, turnsEq, -⟩ := turn (by omega)
          refine ⟨rota.pass.current, ?_⟩
          rw [run.begins_iff isCall]
          simp [turnsOf, event_eq, turnsEq, isThird, Turns.tick, Turns.Begun]
  · by_contra noTurn
    push Not at noTurn
    obtain ⟨turns, follows⟩ := firstRun.follows
    rw [firstRun.livePids_eq] at lives
    have isOld : pid < first.after.nextPid := follows.below pid begun.mem_members
    obtain ⟨ahead, stillOld⟩ := earlier.stays_ahead (begun.ahead lives different) isOld noTurn
    have notOther : ¬last.Begins other := fun begins' =>
      different (begins'.1.2.2.symm.trans again.1.2.2)
    exact (run.ahead_step ahead stillOld notOther).1 again

/-- The timer ticks on. -/
theorem SchedRun.ticks (run : SchedRun switchPml trace state)
    (notEmpty : (turnsOf trace).members ≠ []) (count : Nat) :
    ∃ ticks final, SchedRun switchPml (ticks ++ trace) final ∧ ticks.length = count ∧
      (∀ record ∈ ticks, record.IsCall) ∧
      turnsOf (ticks ++ trace) = (Turns.tick 3)^[count] (turnsOf trace) ∧
      (turnsOf (ticks ++ trace)).members = (turnsOf trace).members ∧
      ∀ record ∈ ticks, ∀ pid, ¬record.Exits pid := by
  induction count with
  | zero => exact ⟨[], state, run, rfl, by simp, rfl, rfl, by simp⟩
  | succ count ih =>
      obtain ⟨ticks, final, ticked, lengthEq, areCalls, turnsEq, membersEq, noExits⟩ := ih
      obtain ⟨turns, follows⟩ := ticked.follows
      have admits : final.Admits (.tick 0#64) := by
        refine follows.inTurns.listed.ne_null fun isEmpty => notEmpty ?_
        rw [← membersEq, ← follows.members_eq, isEmpty, List.map_nil]
      obtain ⟨record, event_eq, -, next⟩ := ticked.extend admits
      refine ⟨record :: ticks, _, next, by simp [lengthEq], ?_, ?_, ?_, ?_⟩
      · intro other member
        rcases List.mem_cons.mp member with rfl | inTicks
        · simp [SchedRecord.IsCall, event_eq]
        · exact areCalls other inTicks
      · rw [Function.iterate_succ_apply', ← turnsEq]
        simp [turnsOf, event_eq]
      · simp [turnsOf, event_eq, membersEq]
      · refine List.forall_mem_cons.mpr ⟨?_, noExits⟩
        simp [SchedRecord.Exits, event_eq]

theorem round_robin_no_bypass_two :
    ∃ first last later trace state, SchedRun id (last :: (later ++ first :: trace)) state ∧
      first.Begins 1 ∧ last.Begins 1 ∧ livePids (first :: trace) = [1, 2] ∧
      ∃ record ∈ later, record.Begins 2 := by
  have members : (turnsOf startRecords).members = [1, 2] := rfl
  obtain ⟨ticks, final, run, lengthEq, areCalls, turnsEq, -⟩ :=
    startRecords_run.ticks (by simp [members]) 6
  obtain ⟨last, later, rfl⟩ := List.exists_cons_of_length_pos (by omega : 0 < ticks.length)
  have begins : SchedRecord.Begins ⟨promptCreated, .tick 0x7000#64, idleStarted.1, idleStarted.2⟩ 1 :=
    (startRecords_run.begins_iff trivial).mpr ⟨rfl, rfl⟩
  have again : last.Begins 1 := by
    refine (run.begins_iff (areCalls last List.mem_cons_self)).mpr ?_
    change (turnsOf (last :: later ++ startRecords)).Begun 3 1
    rw [turnsEq]
    exact ⟨rfl, rfl⟩
  exact ⟨_, last, later, _, final, run, begins, again, rfl,
    (round_robin_no_bypass run begins).2 again 2 (by decide) (by decide)⟩

def creations (trace : List SchedRecord) : Nat :=
  trace.countP fun record => ¬record.IsCall

/-- A step in which no turn of the process begins: a call brings the turn nearer, and a
creation puts it off by at most one quantum. -/
theorem SchedRun.delay_step (run : SchedRun switchPml (record :: trace) state)
    (member : pid ∈ (turnsOf trace).members) (stays : ¬record.Exits pid)
    (notYet : ¬record.Begins pid) :
    (turnsOf (record :: trace)).delay 3 pid + calls [record] ≤
        (turnsOf trace).delay 3 pid + 3 * creations [record] ∧
      pid ∈ (turnsOf (record :: trace)).members := by
  cases event_eq : record.event with
  | create new =>
      have isCreation : calls [record] = 0 ∧ creations [record] = 1 := by
        simp [calls, creations, SchedRecord.IsCall, event_eq]
      rw [isCreation.1, isCreation.2]
      simp only [turnsOf, event_eq]
      refine ⟨Turns.delay_join_le _ _ _ 3, ?_⟩
      rw [Turns.members_join]
      exact List.mem_append_left _ member
  | tick frame =>
      have isCall : record.IsCall := by simp [SchedRecord.IsCall, event_eq]
      rw [run.begins_iff isCall] at notYet
      have counted : calls [record] = 1 := by simp [calls, isCall]
      rw [counted]
      simp only [turnsOf, event_eq] at notYet ⊢
      refine ⟨Nat.le_add_right_of_le (Turns.delay_tick member (by decide) notYet), ?_⟩
      rwa [Turns.members_tick]
  | exit frame =>
      have isCall : record.IsCall := by simp [SchedRecord.IsCall, event_eq]
      rw [run.begins_iff isCall] at notYet
      have counted : calls [record] = 1 := by simp [calls, isCall]
      obtain ⟨rota, rest, left, turnsEq, isLeft, next⟩ := run.turnsOf_exit event_eq
      rw [counted]
      rw [next] at notYet ⊢
      rw [turnsEq] at member ⊢
      refine ⟨Nat.le_add_right_of_le (Turns.delay_leave isLeft (by decide) notYet), ?_⟩
      have notCurrent : pid ≠ rota.current := by
        intro isCurrent
        apply stays
        rw [SchedRecord.Exits, event_eq]
        exact run.of_cons.1.running_iff.mpr ⟨rota, left, turnsEq, isCurrent.symm⟩
      rw [Turns.members, Rota.members_leave isLeft]
      simpa [Turns.members, Rota.members, notCurrent] using member

theorem SchedRun.delay_le (run : SchedRun switchPml (later ++ trace) state)
    (lives : pid ∈ livePids trace) (stays : ∀ record ∈ later, ¬record.Exits pid)
    (notYet : ∀ record ∈ later, ¬record.Begins pid) :
    (turnsOf (later ++ trace)).delay 3 pid + calls later ≤
        3 * ((livePids trace).length + creations later) ∧
      pid ∈ (turnsOf (later ++ trace)).members := by
  induction later generalizing state with
  | nil =>
      have run : SchedRun switchPml trace state := run
      rw [run.livePids_eq] at lives ⊢
      exact ⟨Turns.delay_le lives run.within (by decide), lives⟩
  | cons last later ih =>
      rw [List.cons_append] at run ⊢
      obtain ⟨bound, member⟩ := ih run.of_cons.1
        (fun record inLater => stays record (List.mem_cons_of_mem _ inLater))
        fun record inLater => notYet record (List.mem_cons_of_mem _ inLater)
      obtain ⟨step, stillMember⟩ :=
        run.delay_step member (stays last List.mem_cons_self) (notYet last List.mem_cons_self)
      refine ⟨?_, stillMember⟩
      simp only [calls, creations, List.countP_cons, List.countP_nil, Nat.zero_add] at step bound ⊢
      omega

/-- Bounded waiting.  A process that lives and does not exit is given a quantum before
`schedule` has been called three times for every process that lives or is created
meanwhile. -/
theorem quantum_within_round {later : List SchedRecord}
    (run : SchedRun switchPml (later ++ trace) state) (lives : pid ∈ livePids trace)
    (stays : ∀ record ∈ later, ¬record.Exits pid)
    (long : 3 * ((livePids trace).length + creations later) ≤ calls later) :
    ∃ record ∈ later, record.Begins pid := by
  by_contra noTurn
  push Not at noTurn
  have bound := (run.delay_le lives stays noTurn).1
  have positive : 1 ≤ (turnsOf (later ++ trace)).delay 3 pid := by
    cases turnsOf (later ++ trace) <;> exact Nat.le_add_left _ _
  omega

theorem quantum_within_round_two :
    ∃ later state, SchedRun id (later ++ startRecords) state ∧ later.length = 6 ∧
      ∃ record ∈ later, record.Begins 2 := by
  obtain ⟨later, state, run, lengthEq, areCalls, -, -, noExits⟩ :=
    startRecords_run.ticks (by decide) 6
  have allCalls : calls later = 6 := by
    rw [calls, List.countP_eq_length.mpr (by simpa using areCalls), lengthEq]
  have noCreations : creations later = 0 := by
    rw [creations, List.countP_eq_zero]
    simpa using areCalls
  refine ⟨later, state, run, lengthEq, quantum_within_round run (by decide)
    (fun record member => noExits record member 2) ?_⟩
  rw [noCreations, allCalls]
  decide

end Turns

end MmdOS
