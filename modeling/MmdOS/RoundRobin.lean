import Mathlib.Data.List.Nodup
import Mathlib.Logic.Function.Iterate
import Mathlib.Tactic.Common

/-!
# Round robin

The members of a rota take turns in the order in which they have joined.  A
rota is kept as the member whose turn it is and the members before and behind
it.  New members join at the end, and only the member whose turn it is leaves.

A member that waits in front of another one has its turn first: this stays
true until the turn has come, whatever happens to the rota.

A turn lasts for a quantum of ticks, and before the first tick nobody has the
turn: this is what `Turns` adds to a rota.
-/

namespace RoundRobin

section Queue

variable {α : Type*}

theorem forall_or_first (fit : α → Prop) (queue : List α) :
    (∀ member ∈ queue, fit member) ∨
      ∃ first member rest, queue = first ++ member :: rest ∧ (∀ other ∈ first, fit other) ∧
        ¬ fit member := by
  induction queue with
  | nil => exact .inl (List.forall_mem_nil fit)
  | cons head tail ih =>
      by_cases headFit : fit head
      · rcases ih with allFit | ⟨first, member, rest, tailEq, firstFit, unfit⟩
        · exact .inl (List.forall_mem_cons.mpr ⟨headFit, allFit⟩)
        · refine .inr ⟨head :: first, member, rest, ?_, ?_, unfit⟩
          · rw [tailEq, List.cons_append]
          · exact List.forall_mem_cons.mpr ⟨headFit, firstFit⟩
      · exact .inr ⟨[], head, tail, rfl, List.forall_mem_nil fit, headFit⟩

theorem split_around {ahead behind first rest : List α} {middle member : α}
    (same : ahead ++ middle :: behind = first ++ member :: rest) :
    (member = middle ∧ first = ahead) ∨ member ∈ ahead ∨ (middle ∈ first ∧ member ∈ behind) := by
  rcases List.append_eq_append_iff.mp same with ⟨more, firstEq, behindEq⟩ | ⟨more, aheadEq, restEq⟩
  · cases more with
    | nil =>
        rw [List.nil_append, List.cons.injEq] at behindEq
        exact .inl ⟨behindEq.1.symm, by rw [firstEq, List.append_nil]⟩
    | cons other more =>
        rw [List.cons_append, List.cons.injEq] at behindEq
        refine .inr (.inr ⟨?_, ?_⟩)
        · rw [firstEq, behindEq.1]
          simp
        · rw [behindEq.2]
          simp
  · cases more with
    | nil =>
        rw [List.nil_append, List.cons.injEq] at restEq
        exact .inl ⟨restEq.1, by rw [aheadEq, List.append_nil]⟩
    | cons other more =>
        rw [List.cons_append, List.cons.injEq] at restEq
        refine .inr (.inl ?_)
        rw [aheadEq, restEq.1]
        simp

end Queue

/-- The members in the order in which they have joined, with a mark at the one
whose turn it is. -/
structure Rota (α : Type*) where
  before : List α
  current : α
  after : List α

namespace Rota

variable {α : Type*}

def members (rota : Rota α) : List α :=
  rota.before ++ rota.current :: rota.after

/-- The other members in the order in which their turns come. -/
def waiting (rota : Rota α) : List α :=
  rota.after ++ rota.before

def join (rota : Rota α) (member : α) : Rota α :=
  { rota with after := rota.after ++ [member] }

def pass : Rota α → Rota α
  | ⟨before, current, next :: after⟩ => ⟨before ++ [current], next, after⟩
  | ⟨[], current, []⟩ => ⟨[], current, []⟩
  | ⟨first :: before, current, []⟩ => ⟨[], first, before ++ [current]⟩

def leave : Rota α → Option (Rota α)
  | ⟨before, _, next :: after⟩ => some ⟨before, next, after⟩
  | ⟨[], _, []⟩ => none
  | ⟨first :: before, _, []⟩ => some ⟨[], first, before⟩

theorem current_mem (rota : Rota α) : rota.current ∈ rota.members := by
  simp [members]

theorem ne_current (rota : Rota α) {member : α} (outside : member ∉ rota.members) :
    member ≠ rota.current := by
  rintro rfl
  exact outside rota.current_mem

theorem members_join (rota : Rota α) (member : α) :
    (rota.join member).members = rota.members ++ [member] := by
  simp [members, join]

theorem members_pass (rota : Rota α) : rota.pass.members = rota.members := by
  rcases rota with ⟨_ | ⟨first, before⟩, current, _ | ⟨next, after⟩⟩ <;> simp [members, pass]

theorem members_leave {rota rest : Rota α} (left : rota.leave = some rest) :
    rest.members = rota.before ++ rota.after := by
  rcases rota with ⟨_ | ⟨first, before⟩, current, _ | ⟨next, after⟩⟩ <;>
    simp only [leave, Option.some.injEq, reduceCtorEq] at left <;>
    simp [← left, members]

theorem turns_pass (rota : Rota α) :
    rota.pass.current :: rota.pass.waiting = rota.waiting ++ [rota.current] := by
  rcases rota with ⟨_ | ⟨first, before⟩, current, _ | ⟨next, after⟩⟩ <;> simp [waiting, pass]

theorem turns_leave {rota rest : Rota α} (left : rota.leave = some rest) :
    rest.current :: rest.waiting = rota.waiting := by
  rcases rota with ⟨_ | ⟨first, before⟩, current, _ | ⟨next, after⟩⟩ <;>
    simp only [leave, Option.some.injEq, reduceCtorEq] at left <;>
    simp [← left, waiting]

theorem perm_members (rota : Rota α) : (rota.current :: rota.waiting).Perm rota.members := by
  simp only [members, waiting]
  exact (List.perm_append_comm.cons rota.current).trans List.perm_middle.symm

theorem leave_eq_none {rota : Rota α} (stays : rota.leave = none) :
    rota.members = [rota.current] := by
  rcases rota with ⟨_ | ⟨first, before⟩, current, _ | ⟨next, after⟩⟩ <;>
    simp [leave, members] at stays ⊢

theorem head?_leave {rota rest : Rota α} (left : rota.leave = some rest)
    (notFirst : rota.members.head? ≠ some rota.current) :
    rest.members.head? = rota.members.head? := by
  rw [members_leave left]
  rcases rota with ⟨_ | ⟨first, before⟩, current, after⟩
  · simp [members] at notFirst
  · simp [members]

theorem erase_current [DecidableEq α] {rota : Rota α} (distinct : rota.members.Nodup) :
    rota.members.erase rota.current = rota.before ++ rota.after := by
  have outside : rota.current ∉ rota.before := fun member =>
    List.disjoint_of_nodup_append distinct member List.mem_cons_self
  rw [members, List.erase_append_right _ outside, List.erase_cons_head]

section Ring

def ring (rota : Rota α) : List α :=
  rota.current :: rota.waiting

theorem mem_ring {rota : Rota α} {member : α} : member ∈ rota.ring ↔ member ∈ rota.members :=
  rota.perm_members.mem_iff

theorem ring_nodup {rota : Rota α} (distinct : rota.members.Nodup) : rota.ring.Nodup :=
  rota.perm_members.nodup_iff.mpr distinct

theorem exists_current {members : List α} {member : α} (isMember : member ∈ members) :
    ∃ rota : Rota α, rota.members = members ∧ rota.current = member := by
  obtain ⟨before, after, rfl⟩ := List.append_of_mem isMember
  exact ⟨⟨before, member, after⟩, rfl, rfl⟩

theorem ring_passes {rota : Rota α} {first rest : List α} (ringEq : rota.ring = first ++ rest) :
    (pass^[first.length] rota).ring = rest ++ first := by
  induction first generalizing rota rest with
  | nil => simpa using ringEq
  | cons member first ih =>
      rw [ring, List.cons_append, List.cons.injEq] at ringEq
      have turned : rota.pass.ring = first ++ (rest ++ [member]) := by
        rw [ring, turns_pass, ringEq.1, ringEq.2, List.append_assoc]
      rw [List.length_cons, Function.iterate_succ_apply, ih turned]
      simp

theorem current_passes {rota : Rota α} {first rest : List α} {member : α}
    (ringEq : rota.ring = first ++ member :: rest) :
    (pass^[first.length] rota).current = member := by
  have turned := ring_passes ringEq
  rw [ring, List.cons_append, List.cons.injEq] at turned
  exact turned.1

end Ring

section Map

variable {β : Type*} (f : α → β)

def map (rota : Rota α) : Rota β :=
  ⟨rota.before.map f, f rota.current, rota.after.map f⟩

theorem members_map (rota : Rota α) : (rota.map f).members = rota.members.map f := by
  simp [members, map]

theorem map_join (rota : Rota α) (member : α) :
    (rota.join member).map f = (rota.map f).join (f member) := by
  simp [join, map]

theorem map_pass (rota : Rota α) : rota.pass.map f = (rota.map f).pass := by
  rcases rota with ⟨_ | ⟨first, before⟩, current, _ | ⟨next, after⟩⟩ <;> simp [pass, map]

theorem leave_map (rota : Rota α) : (rota.map f).leave = rota.leave.map (map f) := by
  rcases rota with ⟨_ | ⟨first, before⟩, current, _ | ⟨next, after⟩⟩ <;> simp [leave, map]

theorem map_congr {g : α → β} {rota : Rota α} (agree : ∀ member ∈ rota.members, f member = g member) :
    rota.map f = rota.map g := by
  simp only [members, List.mem_append, List.mem_cons] at agree
  simp only [map, mk.injEq]
  exact ⟨List.map_congr_left fun member inside => agree member (.inl inside),
    agree _ (.inr (.inl rfl)), List.map_congr_left fun member inside =>
      agree member (.inr (.inr inside))⟩

end Map

def Ahead (rota : Rota α) (first second : α) : Prop :=
  [first, second].Sublist rota.waiting ∨ (second = rota.current ∧ first ∈ rota.waiting)

section Ahead

variable {rota rest : Rota α} {first second : α}

theorem Ahead.join (ahead : rota.Ahead first second) (member : α) :
    (rota.join member).Ahead first second := by
  have grows : rota.waiting.Sublist (rota.join member).waiting := by
    simp [waiting, Rota.join]
  rcases ahead with isSublist | ⟨isCurrent, isWaiting⟩
  · exact .inl (isSublist.trans grows)
  · exact .inr ⟨isCurrent, grows.subset isWaiting⟩

/-- In a queue without duplicates, a member with another one in front of it is
not the first one. -/
theorem ne_of_sublist_cons {next : α} {queue : List α} (distinct : (next :: queue).Nodup)
    (isSublist : [first, second].Sublist (next :: queue)) : next ≠ second := by
  rintro rfl
  cases isSublist with
  | cons _ later =>
      have : next ∈ queue := later.subset (by simp)
      exact (List.nodup_cons.mp distinct).1 this
  | cons_cons _ later =>
      have : first ∈ queue := later.subset (by simp)
      exact (List.nodup_cons.mp distinct).1 this

/-- What is in front of `second` in the queue stays so when someone else is
taken from the front. -/
theorem Ahead.of_turns {queue : List α} (turns : rest.current :: rest.waiting = queue)
    (distinct : queue.Nodup) (isSublist : [first, second].Sublist queue)
    (notYet : rest.current ≠ first) :
    rest.current ≠ second ∧ rest.Ahead first second := by
  subst turns
  refine ⟨ne_of_sublist_cons distinct isSublist, ?_⟩
  cases isSublist with
  | cons _ later => exact .inl later
  | cons_cons _ later => exact absurd rfl notYet

theorem Ahead.pass (ahead : rota.Ahead first second) (distinct : rota.members.Nodup)
    (notYet : rota.pass.current ≠ first) :
    rota.pass.current ≠ second ∧ rota.pass.Ahead first second := by
  have turnsDistinct : (rota.waiting ++ [rota.current]).Nodup := by
    rw [← turns_pass]
    refine (rota.pass.perm_members.nodup_iff).mpr ?_
    rwa [members_pass]
  refine Ahead.of_turns rota.turns_pass turnsDistinct ?_ notYet
  rcases ahead with isSublist | ⟨isCurrent, isWaiting⟩
  · exact isSublist.trans (List.sublist_append_left _ _)
  · rw [isCurrent]
    exact (List.singleton_sublist.mpr isWaiting).append (List.Sublist.refl [rota.current])

theorem Ahead.leave (ahead : rota.Ahead first second) (distinct : rota.members.Nodup)
    (left : rota.leave = some rest) (notLeaving : rota.current ≠ second)
    (notYet : rest.current ≠ first) : rest.current ≠ second ∧ rest.Ahead first second := by
  have waitingDistinct : rota.waiting.Nodup :=
    (List.nodup_cons.mp ((rota.perm_members.nodup_iff).mpr distinct)).2
  refine Ahead.of_turns (turns_leave left) waitingDistinct ?_ notYet
  rcases ahead with isSublist | ⟨isCurrent, -⟩
  · exact isSublist
  · exact absurd isCurrent.symm notLeaving

end Ahead

end Rota

/-- The members before the first turn, or the rota with the ticks that are left
of the turn. -/
inductive Turns (α : Type*)
  | idle (queue : List α)
  | turn (rota : Rota α) (left : Nat)

namespace Turns

variable {α : Type*}

def members : Turns α → List α
  | idle queue => queue
  | turn rota _ => rota.members

def join (member : α) : Turns α → Turns α
  | idle queue => idle (queue ++ [member])
  | turn rota left => turn (rota.join member) left

def tick (quantum : Nat) : Turns α → Turns α
  | idle [] => idle []
  | idle (first :: queue) => turn ⟨[], first, queue⟩ quantum
  | turn rota left => if 1 < left then turn rota (left - 1) else turn rota.pass quantum

def leave (quantum : Nat) : Turns α → Turns α
  | idle queue => idle queue
  | turn rota left => (rota.leave).elim (turn rota left) fun rest => turn rest quantum

def Within (quantum : Nat) : Turns α → Prop
  | idle _ => True
  | turn _ left => left ≤ quantum

def Begun (quantum : Nat) (member : α) : Turns α → Prop
  | idle _ => False
  | turn rota left => rota.current = member ∧ left = quantum

@[simp]
theorem members_join (turns : Turns α) (member : α) :
    (turns.join member).members = turns.members ++ [member] := by
  cases turns with
  | idle queue => rfl
  | turn rota left => exact rota.members_join member

@[simp]
theorem members_tick (turns : Turns α) (quantum : Nat) :
    (turns.tick quantum).members = turns.members := by
  cases turns with
  | idle queue => cases queue <;> simp [tick, members, Rota.members]
  | turn rota left =>
      rw [tick]
      split
      · rfl
      · exact rota.members_pass

theorem tick_turn {rota : Rota α} {left : Nat} (quantum : Nat) (more : 1 ≤ left) :
    (turn rota (left + 1)).tick quantum = turn rota left := by
  rw [tick, if_pos (by omega), Nat.add_sub_cancel]

theorem leave_turn {rota rest : Rota α} {left : Nat} (quantum : Nat)
    (isLeft : rota.leave = some rest) :
    (turn rota left).leave quantum = turn rest quantum := by
  simp [leave, isLeft]

section Map

variable {β : Type*} (f : α → β)

def map : Turns α → Turns β
  | idle queue => idle (queue.map f)
  | turn rota left => turn (rota.map f) left

@[simp]
theorem members_map (turns : Turns α) : (turns.map f).members = turns.members.map f := by
  cases turns with
  | idle queue => rfl
  | turn rota left => exact rota.members_map f

theorem map_join (turns : Turns α) (member : α) :
    (turns.join member).map f = (turns.map f).join (f member) := by
  cases turns with
  | idle queue => simp [join, map]
  | turn rota left => simp [join, map, Rota.map_join]

theorem map_tick (turns : Turns α) (quantum : Nat) :
    (turns.tick quantum).map f = (turns.map f).tick quantum := by
  cases turns with
  | idle queue => cases queue <;> simp [tick, map, Rota.map]
  | turn rota left =>
      by_cases more : 1 < left
      · simp [tick, map, more]
      · simp [tick, map, more, Rota.map_pass]

theorem map_leave (turns : Turns α) (quantum : Nat) :
    (turns.leave quantum).map f = (turns.map f).leave quantum := by
  cases turns with
  | idle queue => rfl
  | turn rota left =>
      simp only [leave, map, Rota.leave_map]
      cases rota.leave <;> rfl

theorem map_congr {g : α → β} {turns : Turns α}
    (agree : ∀ member ∈ turns.members, f member = g member) : turns.map f = turns.map g := by
  cases turns with
  | idle queue => simpa [map, members] using agree
  | turn rota left => simp [map, Rota.map_congr f agree]

end Map

/-- The turn of `first` comes before the next one of `second`, which may also
have left. -/
def Ahead (first second : α) : Turns α → Prop
  | idle _ => False
  | turn rota _ => second ∉ rota.members ∨ rota.Ahead first second

section Ahead

variable {turns : Turns α} {first second : α} {quantum : Nat}

theorem Begun.mem_members (begun : turns.Begun quantum second) : second ∈ turns.members := by
  cases turns with
  | idle queue => exact begun.elim
  | turn rota left =>
      rw [← begun.1]
      exact rota.current_mem

theorem Begun.ahead (begun : turns.Begun quantum second) (member : first ∈ turns.members)
    (different : first ≠ second) : turns.Ahead first second := by
  cases turns with
  | idle queue => exact begun.elim
  | turn rota left =>
      obtain ⟨isCurrent, -⟩ := begun
      have waits := List.mem_cons.mp (rota.perm_members.mem_iff.mpr member)
      refine .inr (.inr ⟨isCurrent.symm, waits.resolve_left ?_⟩)
      rwa [isCurrent]

theorem Ahead.join (ahead : turns.Ahead first second) {member : α} (notSecond : member ≠ second) :
    (turns.join member).Ahead first second := by
  cases turns with
  | idle queue => exact ahead.elim
  | turn rota left =>
      rcases ahead with gone | ahead
      · refine .inl ?_
        rw [Rota.members_join]
        simpa [notSecond.symm] using gone
      · exact .inr (ahead.join member)

/-- Until the turn of `first` begins, a tick does not begin that of `second`. -/
theorem Ahead.tick (ahead : turns.Ahead first second) (distinct : turns.members.Nodup)
    (within : turns.Within quantum) (notYet : ¬(turns.tick quantum).Begun quantum first) :
    ¬(turns.tick quantum).Begun quantum second ∧ (turns.tick quantum).Ahead first second := by
  cases turns with
  | idle queue => exact ahead.elim
  | turn rota left =>
      rw [Turns.tick] at notYet ⊢
      split at notYet
      · next more =>
          rw [if_pos more]
          refine ⟨fun begun => ?_, ahead⟩
          have : left ≤ quantum := within
          have := begun.2
          omega
      · next last =>
          rw [if_neg last]
          have notFirst : rota.pass.current ≠ first := fun isFirst => notYet ⟨isFirst, rfl⟩
          rcases ahead with gone | ahead
          · rw [← rota.members_pass] at gone
            refine ⟨fun begun => gone ?_, .inl gone⟩
            rw [← begun.1]
            exact rota.pass.current_mem
          · obtain ⟨notSecond, ahead⟩ := ahead.pass distinct notFirst
            exact ⟨fun begun => notSecond begun.1, .inr ahead⟩

theorem Ahead.leave {rota rest : Rota α} {left : Nat}
    (ahead : (turn rota left).Ahead first second) (distinct : rota.members.Nodup)
    (isLeft : rota.leave = some rest) (notYet : ¬(turn rest quantum).Begun quantum first) :
    ¬(turn rest quantum).Begun quantum second ∧ (turn rest quantum).Ahead first second := by
  have notFirst : rest.current ≠ first := fun isFirst => notYet ⟨isFirst, rfl⟩
  have restMembers := Rota.members_leave isLeft
  by_cases stays : second ∈ rest.members
  · have different : rota.current ≠ second := by
      rintro rfl
      rw [restMembers] at stays
      exact (List.nodup_middle.mp distinct).notMem stays
    rcases ahead with gone | ahead
    · rw [restMembers] at stays
      simp only [Rota.members, List.mem_append, List.mem_cons] at stays gone
      tauto
    · obtain ⟨notSecond, ahead⟩ := ahead.leave distinct isLeft different notFirst
      exact ⟨fun begun => notSecond begun.1, .inr ahead⟩
  · refine ⟨fun begun => stays ?_, .inl stays⟩
    rw [← begun.1]
    exact rest.current_mem

end Ahead

/-- How many ticks it takes at most until a turn of the member begins. -/
def delay [DecidableEq α] (quantum : Nat) (member : α) : Turns α → Nat
  | idle queue => quantum * queue.idxOf member + 1
  | turn rota left => quantum * rota.waiting.idxOf member + (left - 1) + 1

section Delay

variable [DecidableEq α] {turns : Turns α} {member : α} {quantum : Nat}

/-- A new member comes at most once between. -/
theorem delay_join_le (turns : Turns α) (member other : α) (quantum : Nat) :
    (turns.join other).delay quantum member ≤ turns.delay quantum member + quantum := by
  have later : ∀ first second : List α,
      quantum * (first ++ other :: second).idxOf member ≤
        quantum * (first ++ second).idxOf member + quantum := by
    intro first second
    rw [← Nat.mul_succ]
    apply Nat.mul_le_mul_left
    by_cases isFirst : member ∈ first
    · rw [List.idxOf_append_of_mem isFirst, List.idxOf_append_of_mem isFirst]
      exact Nat.le_succ _
    · rw [List.idxOf_append_of_notMem isFirst, List.idxOf_append_of_notMem isFirst, List.idxOf_cons]
      cases other == member
      · exact Nat.le_refl _
      · exact Nat.le_succ_of_le (Nat.le_add_right _ _)
  cases turns with
  | idle queue =>
      have atEnd := later queue []
      rw [List.append_nil] at atEnd
      simp only [join, delay]
      omega
  | turn rota left =>
      have between := later rota.after rota.before
      simp only [join, delay, Rota.waiting, Rota.join, List.append_assoc, List.singleton_append]
      omega

/-- When somebody else is taken from the front of a queue, the delay is a quantum less
than the place in the queue says. -/
theorem delay_of_turns {rest : Rota α} {queue : List α}
    (turnsEq : rest.current :: rest.waiting = queue) (positive : 1 ≤ quantum)
    (notYet : rest.current ≠ member) :
    (turn rest quantum).delay quantum member = quantum * queue.idxOf member := by
  rw [← turnsEq, List.idxOf_cons_ne _ notYet, Nat.mul_succ, delay]
  omega

theorem delay_tick (isMember : member ∈ turns.members) (positive : 1 ≤ quantum)
    (notYet : ¬(turns.tick quantum).Begun quantum member) :
    (turns.tick quantum).delay quantum member + 1 ≤ turns.delay quantum member := by
  cases turns with
  | idle queue =>
      cases queue with
      | nil => cases isMember
      | cons first queue =>
          have notFirst : first ≠ member := fun isFirst => notYet ⟨isFirst, rfl⟩
          rw [tick, delay_of_turns rfl positive notFirst]
          simp [delay, Rota.waiting]
  | turn rota left =>
      rw [tick] at notYet ⊢
      split at notYet
      · next more =>
          rw [if_pos more]
          simp only [delay]
          omega
      · next last =>
          rw [if_neg last]
          have notCurrent : rota.pass.current ≠ member := fun isCurrent => notYet ⟨isCurrent, rfl⟩
          -- whoever has had the turn waits behind all others
          have place : (rota.waiting ++ [rota.current]).idxOf member = rota.waiting.idxOf member := by
            by_cases waits : member ∈ rota.waiting
            · exact List.idxOf_append_of_mem waits
            · have isCurrent : member = rota.current :=
                (List.mem_cons.mp (rota.perm_members.mem_iff.mpr isMember)).resolve_right waits
              rw [List.idxOf_append_of_notMem waits, List.idxOf_of_notMem waits, isCurrent]
              simp
          rw [delay_of_turns rota.turns_pass positive notCurrent, place, delay]
          omega

theorem delay_leave {rota rest : Rota α} {left : Nat} (isLeft : rota.leave = some rest)
    (positive : 1 ≤ quantum) (notYet : ¬(turn rest quantum).Begun quantum member) :
    (turn rest quantum).delay quantum member + 1 ≤ (turn rota left).delay quantum member := by
  have notCurrent : rest.current ≠ member := fun isCurrent => notYet ⟨isCurrent, rfl⟩
  rw [delay_of_turns (Rota.turns_leave isLeft) positive notCurrent, delay]
  omega

/-- A round of all members. -/
theorem delay_le (isMember : member ∈ turns.members) (within : turns.Within quantum)
    (positive : 1 ≤ quantum) : turns.delay quantum member ≤ quantum * turns.members.length := by
  have round : ∀ {place count : Nat}, place + 1 ≤ count →
      quantum * place + quantum ≤ quantum * count := Nat.mul_le_mul_left quantum
  cases turns with
  | idle queue =>
      have place : queue.idxOf member + 1 ≤ queue.length := List.idxOf_lt_length_iff.mpr isMember
      have := round place
      simp only [delay, members]
      omega
  | turn rota left =>
      have place : rota.waiting.idxOf member + 1 ≤ rota.members.length := by
        rw [← rota.perm_members.length_eq, List.length_cons]
        exact Nat.succ_le_succ List.idxOf_le_length
      have leftLe : left ≤ quantum := within
      have := round place
      simp only [delay, members]
      omega

end Delay

end Turns

end RoundRobin
