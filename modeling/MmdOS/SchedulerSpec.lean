import MmdOS.LinkedList
import MmdOS.RoundRobin
import MmdOS.Scheduler

/-!
# The process list and the turns of its processes

The process list is described by the pointers it links, and the processes take
turns in that order: a rota of pointers with the current process as its mark.
`process_create` puts a process at the end of the rota, and `process_delete`
takes the current process out of it.
-/

namespace MmdOS

open LinkedList RoundRobin

variable {before pointers : List Word} {pointer : Word}

def SchedState.Listed (state : SchedState) (pointers : List Word) : Prop :=
  Links (fun pointer => (state.process pointer).next) 0#64 state.processesList pointers

section Update

variable (state : SchedState) (pointer other : Word) (change : Process → Process)

@[simp]
theorem modify_self : (state.modify pointer change).process pointer =
    change (state.process pointer) := by
  simp [SchedState.modify]

theorem modify_of_ne (different : other ≠ pointer) :
    (state.modify pointer change).process other = state.process other := by
  simp [SchedState.modify, different]

@[simp]
theorem processSetCurrent_process : (state.processSetCurrent pointer).process = state.process :=
  rfl

theorem modify_field {β : Type} (field : Process → β)
    (same : ∀ process, field (change process) = field process) :
    field ((state.modify pointer change).process other) = field (state.process other) := by
  by_cases equal : other = pointer
  · rw [equal, modify_self, same]
  · rw [modify_of_ne _ _ _ _ equal]

end Update

section Loops

variable {state : SchedState} {fuel : Nat} {iterator : Word}

theorem tailScan_eq {last : Word}
    (links : Links (fun pointer => (state.process pointer).next) 0#64 iterator (before ++ [last]))
    (enough : before.length < fuel) : tailScan state fuel iterator = some last := by
  induction before generalizing iterator fuel with
  | nil =>
      obtain ⟨rfl, -, isLast⟩ := links
      obtain ⟨fuel, rfl⟩ := Nat.exists_eq_add_one_of_ne_zero (Nat.ne_of_gt enough)
      rw [links_nil] at isLast
      simp [tailScan, isLast]
  | cons first before ih =>
      obtain ⟨rfl, -, rest⟩ := links
      obtain ⟨fuel, rfl⟩ := Nat.exists_eq_add_one_of_ne_zero (Nat.ne_zero_of_lt enough)
      have notLast : (state.process iterator).next ≠ 0#64 := by
        intro isNull
        have := rest.head_eq_null.mp isNull
        simp at this
      rw [List.length_cons] at enough
      rw [tailScan, if_pos notLast]
      exact ih rest (by omega)

theorem deleteScan_eq {after : List Word} {scan process : Word}
    (links : Links (fun pointer => (state.process pointer).next) 0#64 iterator
      (before ++ scan :: process :: after)) (enough : before.length < fuel) :
    deleteScan state process fuel iterator = some (.ok scan) := by
  induction before generalizing iterator fuel with
  | nil =>
      obtain ⟨rfl, -, found, -⟩ := links
      obtain ⟨fuel, rfl⟩ := Nat.exists_eq_add_one_of_ne_zero (Nat.ne_of_gt enough)
      simp [deleteScan, found]
  | cons first before ih =>
      obtain ⟨rfl, -, rest⟩ := links
      obtain ⟨fuel, rfl⟩ := Nat.exists_eq_add_one_of_ne_zero (Nat.ne_zero_of_lt enough)
      have notNull : (state.process iterator).next ≠ 0#64 := by
        intro isNull
        have := rest.head_eq_null.mp isNull
        simp at this
      have notFound : (state.process iterator).next ≠ process := by
        intro found
        have short : Links (fun pointer => (state.process pointer).next) 0#64
            (state.process iterator).next (process :: after) := by
          have whole : Links (fun pointer => (state.process pointer).next) 0#64
              (state.process iterator).next ((before ++ [scan]) ++ process :: after) := by
            simpa using rest
          exact ⟨found, found ▸ notNull, whole.behind⟩
        have := congrArg List.length (rest.unique short)
        simp at this
        omega
      rw [List.length_cons] at enough
      rw [deleteScan, if_pos notFound, if_neg notNull]
      exact ih rest (by omega)

theorem stayIdleScan_ends
    (links : Links (fun pointer => (state.process pointer).next) 0#64 iterator pointers)
    (enough : pointers.length < fuel) :
    ∃ answer, stayIdleScan state fuel iterator = some answer := by
  induction pointers generalizing iterator fuel with
  | nil =>
      obtain ⟨fuel, rfl⟩ := Nat.exists_eq_add_one_of_ne_zero (Nat.ne_of_gt enough)
      rw [links_nil] at links
      simp [stayIdleScan, links]
  | cons pointer pointers ih =>
      obtain ⟨rfl, notNull, rest⟩ := links
      obtain ⟨fuel, rfl⟩ := Nat.exists_eq_add_one_of_ne_zero (Nat.ne_zero_of_lt enough)
      rw [List.length_cons] at enough
      rw [stayIdleScan, if_pos notNull]
      split
      · exact ⟨false, rfl⟩
      · exact ih rest (by omega)

theorem endRound_eq {after : List Word} {current : Word}
    (listed : state.Listed (before ++ current :: after)) (switched : Bool)
    (enough : after.length < fuel) :
    endRound fuel state current switched = some (.ok (current, switched, state)) := by
  obtain ⟨answer, ended⟩ := stayIdleScan_ends listed.behind enough
  rw [endRound, stayIdle, ended]
  split <;> rfl

end Loops

section Calls

variable {kfree : Kfree} {switchPml : Word → Word} {state after : SchedState}
variable {rota rest : Rota Word} {fuel quantum : Nat} {context : Word}

theorem SchedState.Listed.congr (listed : state.Listed pointers)
    (sameHead : after.processesList = state.processesList)
    (sameNext : ∀ pointer ∈ pointers, (after.process pointer).next = (state.process pointer).next) :
    after.Listed pointers := by
  rw [SchedState.Listed, sameHead]
  exact Links.congr listed sameNext

theorem SchedState.Listed.setNext {behind behind' : List Word} {next : Word}
    (listed : state.Listed (before ++ pointer :: behind))
    (links : Links (fun pointer => (state.process pointer).next) 0#64 next behind')
    (outside : pointer ∉ behind') :
    (state.setNext pointer next).Listed (before ++ pointer :: behind') := by
  have agree : ∀ other, other ≠ pointer →
      ((state.setNext pointer next).process other).next = (state.process other).next := by
    intro other different
    rw [SchedState.setNext, modify_of_ne _ _ _ _ different]
  have own : ((state.setNext pointer next).process pointer).next = next := by
    simp [SchedState.setNext]
  refine Links.splice listed ?_ ?_
  · intro other member
    apply agree
    rintro rfl
    exact List.disjoint_of_nodup_append listed.nodup member List.mem_cons_self
  · rw [own]
    refine links.congr fun other member => agree other ?_
    rintro rfl
    exact outside member

def Process.unlinked (process : Process) : Process :=
  { process with next := 0#64 }

structure Scheduled (switchPml : Word → Word) (state : SchedState) (rota : Rota Word)
    (quantum : Nat) : Prop where
  listed : state.Listed rota.members
  current_eq : state.currentProcess = rota.current
  running : (state.process rota.current).status = .running
  ready : ∀ pointer ∈ rota.waiting, (state.process pointer).status = .ready
  quantum_eq : (state.process rota.current).remainingQuantum = BitVec.ofNat 16 quantum
  quantum_range : 1 ≤ quantum ∧ quantum ≤ 3
  rsp0_eq : state.rsp0 = (state.process rota.current).kstack
  cr3_eq : state.cr3 = switchPml (state.process rota.current).vmm

structure Booting (state : SchedState) (pointers : List Word) : Prop where
  listed : state.Listed pointers
  current_eq : state.currentProcess = 0#64
  ready : ∀ pointer ∈ pointers, (state.process pointer).status = .ready

/-- What the scheduler does not touch, and the contexts it leaves behind. -/
structure Frame (state : SchedState) (pointers : List Word) (contexts : Word → Word)
    (after : SchedState) : Prop where
  pid_eq : ∀ pointer, (after.process pointer).pid = (state.process pointer).pid
  context_eq : ∀ pointer, (after.process pointer).context = contexts pointer
  nextPid_eq : after.nextPid = state.nextPid
  outside_eq : ∀ pointer, pointer ∉ pointers → after.process pointer = state.process pointer

theorem Scheduled.current_ne_null (scheduled : Scheduled switchPml state rota quantum) :
    rota.current ≠ 0#64 :=
  Links.ne_null scheduled.listed (by simp [Rota.members])

theorem Scheduled.currentProcess_ne_null (scheduled : Scheduled switchPml state rota quantum) :
    state.currentProcess ≠ 0#64 := by
  rw [scheduled.current_eq]
  exact scheduled.current_ne_null

theorem SchedState.Listed.ne_null (listed : state.Listed pointers) (nonempty : pointers ≠ []) :
    state.processesList ≠ 0#64 :=
  fun isNull => nonempty (Links.head_eq_null listed |>.mp isNull)

theorem members_ne_nil (rota : Rota Word) : rota.members ≠ [] := by
  simp [Rota.members]

section

variable (listed : state.Listed rota.members)
include listed

theorem nextInRing_eq :
    nextInRing state state.processesList rota.current = rota.pass.current := by
  have behind : Links (fun pointer => (state.process pointer).next) 0#64
      (state.process rota.current).next rota.after := Links.behind listed
  rcases rota with ⟨before, current, _ | ⟨next, after⟩⟩
  · have isLast : (state.process current).next = 0#64 := behind
    cases before with
    | nil =>
        have head : state.processesList = current := listed.1
        simp [nextInRing, isLast, head, Rota.pass]
    | cons first before =>
        have head : state.processesList = first := listed.1
        simp [nextInRing, isLast, head, Rota.pass]
  · obtain ⟨nextEq, notNull, -⟩ := behind
    dsimp only at nextEq
    simp [nextInRing, nextEq, notNull, Rota.pass]

theorem waiting_ne_current (waits : pointer ∈ rota.waiting) :
    pointer ≠ rota.current := by
  have distinct := (rota.perm_members.nodup_iff).mpr listed.nodup
  rintro rfl
  exact (List.nodup_cons.mp distinct).1 waits

theorem processesList_ne_null :
    state.processesList ≠ 0#64 :=
  listed.ne_null (members_ne_nil rota)

theorem unlinkProcess_eq :
    ∃ gone, (∀ fuel, rota.before.length < fuel →
        unlinkProcess fuel state rota.current = some (.ok gone)) ∧
      gone.Listed (rota.before ++ rota.after) ∧
      (gone.process rota.current).next = (state.process rota.current).next ∧
      gone.currentProcess = state.currentProcess ∧ gone.nextPid = state.nextPid ∧
      (∀ pointer, (gone.process pointer).unlinked = (state.process pointer).unlinked) ∧
      ∀ pointer, pointer ∉ rota.members → gone.process pointer = state.process pointer := by
  rcases rota with ⟨before, current, behind⟩
  have links : Links (fun pointer => (state.process pointer).next) 0#64
      (state.process current).next behind := Links.behind listed
  rcases List.eq_nil_or_concat before with rfl | ⟨init, previous, rfl⟩
  · have head : state.processesList = current := listed.1
    refine ⟨{ state with processesList := (state.process current).next }, fun fuel _ => ?_, links,
      rfl, rfl, rfl, fun _ => rfl, fun _ _ => rfl⟩
    rw [unlinkProcess, if_pos head]
  · have whole : state.Listed (init ++ previous :: current :: behind) := by
      simpa [Rota.members] using listed
    have distinct := (List.nodup_append.mp whole.nodup).2.1
    rw [List.nodup_cons] at distinct
    have currentNe : current ≠ previous := by
      rintro rfl
      exact distinct.1 List.mem_cons_self
    have notHead : state.processesList ≠ current := by
      intro isHead
      have short : state.Listed (current :: behind) :=
        ⟨isHead, Links.ne_null whole (by simp), links⟩
      have := congrArg List.length (Links.unique whole short)
      simp at this
      omega
    refine ⟨state.setNext previous (state.process current).next, fun fuel enough => ?_, ?_, ?_, rfl,
      rfl, ?_, ?_⟩
    · have scanned : deleteScan state current fuel state.processesList = some (.ok previous) := by
        refine deleteScan_eq whole ?_
        simp at enough
        omega
      rw [unlinkProcess, if_neg notHead, scanned]
      rfl
    · have spliced := whole.setNext links fun member => distinct.1 (List.mem_cons_of_mem _ member)
      simpa using spliced
    · rw [SchedState.setNext, modify_of_ne _ _ _ _ currentNe]
    · exact fun pointer => modify_field _ _ _ _ Process.unlinked fun _ => rfl
    · intro pointer outside
      refine modify_of_ne _ _ _ _ ?_
      rintro rfl
      simp [Rota.members] at outside

end

theorem advanceCurrent_eq {gone : SchedState} (left : rota.leave = some rest)
    (links : Links (fun pointer => (state.process pointer).next) 0#64
      (state.process rota.current).next rota.after)
    (listed : gone.Listed (rota.before ++ rota.after))
    (sameNext : (gone.process rota.current).next = (state.process rota.current).next)
    (current_eq : gone.currentProcess = rota.current) :
    advanceCurrent gone = gone.processSetCurrent rest.current := by
  rcases rota with ⟨_ | ⟨first, before⟩, current, _ | ⟨next, behind⟩⟩ <;>
    simp only [Rota.leave, Option.some.injEq, reduceCtorEq] at left
  · have notNull : (gone.process current).next = next := sameNext.trans links.1
    simp [advanceCurrent, current_eq, notNull, links.2.1, ← left]
  · have isNull : (gone.process current).next = 0#64 := sameNext.trans links
    have head : gone.processesList = first := listed.1
    simp [advanceCurrent, current_eq, isNull, head, ← left]
  · have notNull : (gone.process current).next = next := sameNext.trans links.1
    simp [advanceCurrent, current_eq, notNull, links.2.1, ← left]

end Calls

section Created

variable {switchPml : Word → Word} {state after : SchedState} {new : NewProcess}

structure Linked (state : SchedState) (process : Word) (after : SchedState) : Prop where
  listed : ∀ pointers, state.Listed pointers → after.Listed (pointers ++ [process])
  status_eq : (after.process process).status = .ready
  others : ∀ pointer, pointer ≠ process →
    (after.process pointer).unlinked = (state.process pointer).unlinked
  current_eq : after.currentProcess = state.currentProcess
  rsp0_eq : after.rsp0 = state.rsp0
  cr3_eq : after.cr3 = state.cr3

structure Created (state : SchedState) (new : NewProcess) (after : SchedState) : Prop
    extends Linked state new.process after where
  pid_eq : (after.process new.process).pid = state.nextPid
  context_eq : (after.process new.process).context = new.context
  nextPid_eq : after.nextPid = state.nextPid + 1

theorem linked_setNext {last process : Word} (listed : state.Listed (before ++ [last]))
    (notNull : process ≠ 0#64) (fresh : process ∉ before ++ [last])
    (isLast : (state.process process).next = 0#64)
    (isReady : (state.process process).status = .ready) :
    Linked state process (state.setNext last process) := by
  have lastNe : last ≠ process := by
    rintro rfl
    simp at fresh
  refine ⟨?_, ?_, ?_, rfl, rfl, rfl⟩
  · intro others otherListed
    have links : Links (fun pointer => (state.process pointer).next) 0#64 process [process] :=
      ⟨rfl, notNull, isLast⟩
    have spliced := listed.setNext links (by simpa using lastNe)
    rw [← Links.unique listed otherListed]
    simpa using spliced
  · rw [← isReady]
    exact modify_field _ _ _ _ Process.status fun _ => rfl
  · intro pointer _
    exact modify_field _ _ _ _ Process.unlinked fun _ => rfl

theorem processCreate_returns (listed : state.Listed pointers) (notNull : new.process ≠ 0#64)
    (fresh : new.process ∉ pointers) :
    ∃ after, Returns (fun fuel => processCreate fuel state new) after ∧ Created state new after := by
  let ready := (newBlock state new).setStatus new.process .ready
  have own : ready.process new.process =
      { pid := state.nextPid, status := .ready, vmm := new.vmm, remainingQuantum := 0#16,
        wakeTime := 0#64, next := 0#64, context := new.context, kstack := new.kstack } := by
    simp [ready, newBlock, SchedState.setStatus]
  have other : ∀ pointer, pointer ≠ new.process →
      ready.process pointer = state.process pointer := by
    intro pointer different
    simp [ready, newBlock, SchedState.setStatus, SchedState.modify, different]
  have readyListed : ready.Listed pointers :=
    listed.congr rfl fun pointer member => by
      rw [other pointer fun equal => fresh (equal ▸ member)]
  rcases List.eq_nil_or_concat pointers with rfl | ⟨before, last, rfl⟩
  · have isEmpty : state.processesList = 0#64 := listed
    refine ⟨{ ready with processesList := new.process }, ⟨0, fun fuel _ => ?_⟩, ?_⟩
    · change (if state.processesList = 0#64 then some { ready with processesList := new.process }
        else _) = _
      rw [if_pos isEmpty]
    · refine ⟨⟨?_, by rw [own], fun pointer different => by rw [other pointer different], rfl, rfl,
        rfl⟩, by rw [own], by rw [own], rfl⟩
      intro others otherListed
      rw [← Links.unique listed otherListed]
      refine ⟨rfl, notNull, ?_⟩
      simp [own]
  · rw [List.concat_eq_append] at listed readyListed fresh
    have notEmpty : state.processesList ≠ 0#64 := listed.ne_null (by simp)
    have linked := linked_setNext readyListed notNull fresh (by rw [own]) (by rw [own])
    have kept : ∀ {β : Type} (field : Process → β),
        (∀ process next, field { process with next } = field process) →
        field ((ready.setNext last new.process).process new.process) =
          field (ready.process new.process) :=
      fun field same => modify_field _ _ _ _ field fun process => same process _
    refine ⟨ready.setNext last new.process, ⟨before.length + 1, fun fuel enough => ?_⟩, ⟨?_,
      linked.status_eq, ?_, rfl, rfl, rfl⟩, ?_, ?_, rfl⟩
    · have scanned : tailScan ready fuel ready.processesList = some last :=
        tailScan_eq readyListed enough
      change (if state.processesList = 0#64 then _ else
        (tailScan ready fuel ready.processesList).bind fun iterator =>
          some (ready.setNext iterator new.process)) = _
      rw [if_neg notEmpty, scanned, Option.bind_some]
    · intro others otherListed
      rw [← Links.unique listed otherListed]
      exact linked.listed _ readyListed
    · intro pointer different
      rw [linked.others pointer different, other pointer different]
    · rw [kept Process.pid fun _ _ => rfl, own]
    · rw [kept Process.context fun _ _ => rfl, own]

variable {process : Word}

theorem Linked.field {β : Type} (linked : Linked state process after) (field : Process → β)
    (same : ∀ process, field process.unlinked = field process) (different : pointer ≠ process) :
    field (after.process pointer) = field (state.process pointer) := by
  rw [← same, linked.others pointer different, same]

theorem Linked.booting (linked : Linked state process after) (booting : Booting state pointers)
    (fresh : process ∉ pointers) :
    Booting after (pointers ++ [process]) where
  listed := linked.listed pointers booting.listed
  current_eq := linked.current_eq.trans booting.current_eq
  ready := by
    intro pointer member
    rcases List.mem_append.mp member with old | isNew
    · have different : pointer ≠ process := fun equal => fresh (equal ▸ old)
      rw [linked.field Process.status (fun _ => rfl) different]
      exact booting.ready pointer old
    · rw [List.mem_singleton.mp isNew]
      exact linked.status_eq

theorem Linked.scheduled {rota : Rota Word} {quantum : Nat} (linked : Linked state process after)
    (scheduled : Scheduled switchPml state rota quantum) (fresh : process ∉ rota.members) :
    Scheduled switchPml after (rota.join process) quantum := by
  have old : ∀ pointer ∈ rota.members, pointer ≠ process :=
    fun pointer member equal => fresh (equal ▸ member)
  have current := old rota.current (by simp [Rota.members])
  have keeps : ∀ {β : Type} (field : Process → β), (∀ process, field process.unlinked =
    field process) →
      field (after.process rota.current) = field (state.process rota.current) :=
    fun field same => linked.field field same current
  refine ⟨?_, linked.current_eq.trans scheduled.current_eq, ?_, ?_, ?_,
    scheduled.quantum_range, ?_, ?_⟩
  · rw [Rota.members_join]
    exact linked.listed _ scheduled.listed
  · exact (keeps Process.status fun _ => rfl).trans scheduled.running
  · intro pointer waits
    simp only [Rota.waiting, Rota.join, List.append_assoc, List.mem_append, List.mem_singleton]
      at waits
    by_cases isNew : pointer = process
    · rw [isNew]
      exact linked.status_eq
    · have waited : pointer ∈ rota.waiting := by
        rw [Rota.waiting, List.mem_append]
        tauto
      rw [linked.field Process.status (fun _ => rfl) isNew]
      exact scheduled.ready pointer waited
  · exact (keeps Process.remainingQuantum fun _ => rfl).trans scheduled.quantum_eq
  · exact linked.rsp0_eq.trans (scheduled.rsp0_eq.trans (keeps Process.kstack fun _ => rfl).symm)
  · rw [linked.cr3_eq, scheduled.cr3_eq]
    exact congrArg switchPml (keeps Process.vmm fun _ => rfl).symm

end Created

end MmdOS
