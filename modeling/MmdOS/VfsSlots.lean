import MmdOS.VfsDescriptors
import Mathlib.Data.Finset.Card

/-!
# How many descriptors there are

`vfs_close` leaves the id -1 in a descriptor, and `vfs_open` takes only a
descriptor with the id zero.  So no slot of the table is used a second time
after a close, and every close costs one of its 512 slots for good.
-/

namespace MmdOS

open CString
open Function (update update_self update_of_ne)

section Calls

variable {stack : StackBytes} {fuel : Nat} {state after : VfsState} {path : Stream}

theorem vfsOpen_failed_table (returned : vfsOpen stack fuel state path = some (-1, after)) :
    after.vfsOpenedFiles = state.vfsOpenedFiles := by
  obtain ⟨result, resultEq⟩ : ∃ result : Int, -1 = result := ⟨_, rfl⟩
  rw [resultEq] at returned
  cases vfsOpen_opened returned with
  | unmounted => rfl
  | failed _ _ opening => exact FsOperations.openFile_table opening
  | full _ _ opening => exact FsOperations.openFile_table opening
  | opened => omega

/-- The size of a file that has just been opened is known. -/
theorem FsOperations.getFileSize_opened {operations : FsOperations} {tarFilename : Stream}
    {id : Int} (opened : operations.openFile tarFilename fuel state path = some (id, after))
    (valid : id ≠ -1) : ∃ size, operations.getFileSize after id.toNat = some size := by
  cases operations with
  | unset => cases opened
  | ustar =>
      rw [openFile] at opened
      cases ustarOpen_opened opened with
      | reopened => simp [getFileSize, ustarGetFileSize]
      | opened => simp [getFileSize, ustarGetFileSize]
      | failed => exact absurd rfl valid

variable {mountpoint : Mountpoint} {relPath : Stream} {id : Int} {middle : VfsState}

section

variable (found : vfsGetMountpoint state stack.mountpoint path = some mountpoint)
  (relEq : getRelPath fuel mountpoint.mountpoint path = some relPath)
  (opened : mountpoint.operations.openFile stack.tarFilename fuel state relPath = some (id, middle))
  (valid : id ≠ -1)
include found relEq opened valid

theorem vfsOpen_of_full (full : ∀ i < maxOpenFiles, (state.vfsOpenedFiles i).fsFileId ≠ 0#64) :
    vfsOpen stack fuel state path = some (-1, middle) := by
  have noSlot : findFreeSlot middle = none := by
    rw [findFreeSlot, FsOperations.openFile_table opened, List.find?_eq_none]
    intro i inTable isFree
    exact full i (List.mem_range.mp inTable) (of_decide_eq_true isFree)
  rw [vfsOpen, found]
  dsimp only
  rw [relEq, Option.bind_eq_bind, Option.bind_some, opened, Option.bind_eq_bind,
    Option.bind_some]
  dsimp only
  rw [if_neg valid, noSlot]

theorem vfsOpen_succeeds_iff :
    (∃ (fd : Nat) (after : VfsState), vfsOpen stack fuel state path = some ((fd : Int), after)) ↔
      ∃ i < maxOpenFiles, (state.vfsOpenedFiles i).fsFileId = 0#64 := by
  constructor
  · rintro ⟨fd, after, returned⟩
    obtain ⟨inTable, isFree, -⟩ := vfsOpen_table returned
    exact ⟨fd, inTable, isFree⟩
  · rintro ⟨i, inTable, isFree⟩
    obtain ⟨slot, slotEq⟩ : ∃ slot, findFreeSlot middle = some slot := by
      rw [← Option.isSome_iff_exists, findFreeSlot, FsOperations.openFile_table opened,
        List.find?_isSome]
      exact ⟨i, List.mem_range.mpr inTable, decide_eq_true isFree⟩
    obtain ⟨size, sizeEq⟩ := FsOperations.getFileSize_opened opened valid
    refine ⟨slot, { middle with
      vfsOpenedFiles := update middle.vfsOpenedFiles slot
        ⟨BitVec.ofInt 64 id, mountpoint.id.toNat, 0#64, 0#64, size⟩ }, ?_⟩
    rw [vfsOpen, found]
    dsimp only
    rw [relEq, Option.bind_eq_bind, Option.bind_some, opened, Option.bind_eq_bind,
      Option.bind_some]
    dsimp only
    rw [if_neg valid, slotEq]
    dsimp only
    rw [sizeEq, Option.bind_eq_bind, Option.bind_some]

end

end Calls

structure SlotHistory where
  state : VfsState
  openFds : Finset Nat
  closes : Nat

namespace SlotHistory

def Allowed (_ : SlotHistory) : VfsEvent → Prop
  | .opened _ | .failed | .closed _ => True
  | .read _ | .memory => False

def record (history : SlotHistory) (event : VfsEvent) (after : VfsState) : SlotHistory :=
  match event with
  | .opened fd => ⟨after, insert fd history.openFds, history.closes⟩
  | .closed fd => ⟨after, history.openFds.erase fd,
      if fd ∈ history.openFds then history.closes + 1 else history.closes⟩
  | .failed | .read _ | .memory => ⟨after, history.openFds, history.closes⟩

def Step : SlotHistory → SlotHistory → Prop :=
  RecordedStep SlotHistory.state Allowed record

def used (history : SlotHistory) : Nat :=
  history.closes + history.openFds.card

/-- Exactly the first slots have been used, one for each open descriptor and one
for each close. -/
structure Counted (history : SlotHistory) : Prop where
  tracked : VfsHistory.Tracked history.used ⟨history.state, ↑history.openFds⟩
  inTable : ∀ fd ∈ history.openFds, fd < maxOpenFiles
  noDevice : ∀ i, history.used ≤ i → (history.state.vfsOpenedFiles i).mountpointId = 0

variable {history next : SlotHistory}

theorem counted_init (space : ByteSpace) (moduleAddress : Word) (block : Stream) :
    Counted ⟨vfsInit space moduleAddress block, ∅, 0⟩ where
  tracked := ⟨fun _ _ => rfl, fun i below => absurd below (Nat.not_lt_zero i),
    fun i isOpen => absurd isOpen (by simp)⟩
  inTable := fun fd isOpen => absurd isOpen (Finset.notMem_empty fd)
  noDevice := fun _ _ => rfl

theorem Counted.opened (counted : history.Counted) {stack : StackBytes} {fuel fd : Nat}
    {path : Stream} {after : VfsState}
    (returned : vfsOpen stack fuel history.state path = some ((fd : Int), after)) :
    Counted ⟨after, insert fd history.openFds, history.closes⟩ := by
  obtain ⟨inTable, isFree, first, others⟩ := vfsOpen_table returned
  obtain ⟨used', tracked, usedEq⟩ := counted.tracked.opened returned
  have usedIs : used' = used ⟨after, insert fd history.openFds, history.closes⟩ := by
    rcases usedEq with ⟨isOpen, rfl⟩ | ⟨notOpen, rfl⟩
    · rw [used, used, Finset.insert_eq_of_mem (Finset.mem_coe.mp isOpen)]
    · rw [used, used, Finset.card_insert_of_notMem fun isOpen =>
        notOpen (Finset.mem_coe.mpr isOpen)]
      dsimp only
      omega
  have usedLe : history.used ≤ used' := by
    rcases usedEq with ⟨-, rfl⟩ | ⟨-, rfl⟩ <;> omega
  subst usedIs
  refine ⟨?_, ?_, ?_⟩
  · rw [Finset.coe_insert]
    exact tracked
  · intro other isOpen
    rcases Finset.mem_insert.mp isOpen with rfl | wasOpen
    · exact inTable
    · exact counted.inTable other wasOpen
  · intro i iGe
    have different : i ≠ fd := by
      rintro rfl
      have := tracked.below i (Set.mem_insert i _)
      omega
    dsimp only
    rw [others i different]
    exact counted.noDevice i (by omega)

theorem Counted.failed (counted : history.Counted) {stack : StackBytes} {fuel : Nat}
    {path : Stream} {after : VfsState}
    (returned : vfsOpen stack fuel history.state path = some (-1, after)) :
    Counted ⟨after, history.openFds, history.closes⟩ := by
  have tableEq := vfsOpen_failed_table returned
  refine ⟨⟨?_, ?_, counted.tracked.below⟩, counted.inTable, ?_⟩
  · dsimp only
    rw [tableEq]
    exact counted.tracked.unused
  · dsimp only
    rw [tableEq]
    exact counted.tracked.closed
  · dsimp only
    rw [tableEq]
    exact counted.noDevice

/-- Only a slot that has been used can be closed, and closing it once more
changes nothing. -/
theorem Counted.close_unopened (counted : history.Counted) {fd : Nat} {result : Int}
    {after : VfsState} (notOpen : fd ∉ history.openFds)
    (returned : vfsClose history.state fd = some (result, after)) : after = history.state := by
  rcases vfsClose_returns returned with ⟨-, -, rfl⟩ |
    ⟨notClosed, -, mountpoint, middle, mounted, -⟩
  · rfl
  · by_cases below : fd < history.used
    · exact absurd
        (counted.tracked.closed fd below fun isOpen => notOpen (Finset.mem_coe.mp isOpen))
        notClosed
    · rw [counted.noDevice fd (by omega), getMountpointById, if_pos rfl] at mounted
      cases mounted

theorem Counted.closed (counted : history.Counted) {fd : Nat} {result : Int} {after : VfsState}
    (returned : vfsClose history.state fd = some (result, after)) :
    Counted ⟨after, history.openFds.erase fd,
      if fd ∈ history.openFds then history.closes + 1 else history.closes⟩ := by
  by_cases isOpen : fd ∈ history.openFds
  · have positive := Finset.card_pos.mpr ⟨fd, isOpen⟩
    have usedEq : used ⟨after, history.openFds.erase fd,
        if fd ∈ history.openFds then history.closes + 1 else history.closes⟩ = history.used := by
      rw [used, used, if_pos isOpen, Finset.card_erase_of_mem isOpen]
      dsimp only
      omega
    refine ⟨?_, ?_, ?_⟩
    · rw [usedEq, Finset.coe_erase]
      exact counted.tracked.closed_one (Finset.mem_coe.mpr isOpen) returned
    · exact fun other stillOpen => counted.inTable other (Finset.mem_of_mem_erase stillOpen)
    · intro i iGe
      rw [usedEq] at iGe
      have different : i ≠ fd := by
        rintro rfl
        have := counted.tracked.below i (Finset.mem_coe.mpr isOpen)
        omega
      dsimp only
      rw [(vfsClose_table returned).2 i different]
      exact counted.noDevice i iGe
  · rw [counted.close_unopened isOpen returned, Finset.erase_eq_of_notMem isOpen, if_neg isOpen]
    exact counted

theorem Counted.step (counted : history.Counted) (step : Step history next) : next.Counted := by
  obtain ⟨event, after, called, allowed, rfl⟩ := step
  cases called with
  | opened returned => exact counted.opened returned
  | failed returned => exact counted.failed returned
  | closed returned => exact counted.closed returned
  | read | memory => exact allowed.elim

theorem counted_of_run {space : ByteSpace} {moduleAddress : Word} {block : Stream}
    (run : Relation.ReflTransGen Step ⟨vfsInit space moduleAddress block, ∅, 0⟩ history) :
    history.Counted := by
  induction run with
  | refl => exact counted_init space moduleAddress block
  | tail _ step ih => exact ih.step step

/-- A slot is left as long as the closes and the open descriptors together are
fewer than 512, or if some open descriptor looks free. -/
theorem Counted.slot_iff (counted : history.Counted) :
    (∃ i < maxOpenFiles, (history.state.vfsOpenedFiles i).fsFileId = 0#64) ↔
      history.closes + history.openFds.card < maxOpenFiles ∨
        ∃ fd ∈ history.openFds, (history.state.vfsOpenedFiles fd).fsFileId = 0#64 := by
  constructor
  · rintro ⟨i, inTable, isFree⟩
    by_cases below : i < history.used
    · right
      refine ⟨i, ?_, isFree⟩
      by_contra notOpen
      have closed := counted.tracked.closed i below fun isOpen =>
        notOpen (Finset.mem_coe.mp isOpen)
      rw [isFree] at closed
      exact absurd closed (by decide)
    · left
      rw [used] at below
      omega
  · rintro (fewer | ⟨fd, isOpen, isFree⟩)
    · exact ⟨history.used, fewer, counted.tracked.unused history.used le_rfl⟩
    · exact ⟨fd, counted.inTable fd isOpen, isFree⟩

end SlotHistory

/-- After any run of opens and closes, `vfs_open` has a slot for a path that the
file system can open exactly when the descriptors that are open and those that
have been closed are fewer than 512, or an open descriptor has the file with the
id zero and is taken for free. -/
theorem vfs_open_has_slot_iff {space : ByteSpace} {moduleAddress : Word} {block : Stream}
    {history : SlotHistory}
    (run : Relation.ReflTransGen SlotHistory.Step ⟨vfsInit space moduleAddress block, ∅, 0⟩
      history)
    {stack : StackBytes} {fuel : Nat} {path relPath : Stream} {mountpoint : Mountpoint}
    {id : Int} {middle : VfsState}
    (found : vfsGetMountpoint history.state stack.mountpoint path = some mountpoint)
    (relEq : getRelPath fuel mountpoint.mountpoint path = some relPath)
    (opened : mountpoint.operations.openFile stack.tarFilename fuel history.state relPath =
      some (id, middle))
    (valid : id ≠ -1) :
    (∃ (fd : Nat) (after : VfsState),
      vfsOpen stack fuel history.state path = some ((fd : Int), after)) ↔
    history.closes + history.openFds.card < maxOpenFiles ∨
      ∃ fd ∈ history.openFds, (history.state.vfsOpenedFiles fd).fsFileId = 0#64 := by
  rw [vfsOpen_succeeds_iff found relEq opened valid]
  exact (SlotHistory.counted_of_run run).slot_iff

section Exhaustion

def closedVfs (rounds : Nat) : VfsState :=
  { twoFilesVfs with
    vfsOpenedFiles := fun i =>
      if i < rounds then ⟨closedId, 1, 0#64, 0#64, 0#64⟩ else ⟨0#64, 0, 0#64, 0#64, 0#64⟩ }

theorem closedVfs_zero : closedVfs 0 = twoFilesVfs := by
  unfold closedVfs
  simp only [Nat.not_lt_zero, if_false]
  rfl

theorem closedVfs_notOpen (rounds : Nat) :
    isAlreadyOpen (closedVfs rounds) (advance 1 (stringStream [0x2f#8, 0x61#8])) = none := by
  rw [isAlreadyOpen, List.find?_eq_none]
  intro i _
  exact Bool.false_ne_true

theorem closedVfs_id (rounds : Nat) : findOpenId (closedVfs rounds) = some 0 :=
  find?_range_of_first (by decide) rfl (by omega)

theorem closedVfs_fsFileId (rounds i : Nat) :
    ((closedVfs rounds).vfsOpenedFiles i).fsFileId = if i < rounds then closedId else 0#64 := by
  unfold closedVfs
  dsimp only
  split <;> rfl

def reopenedVfs (rounds : Nat) : VfsState :=
  { closedVfs rounds with
    openFiles := update (closedVfs rounds).openFiles 0 (some ⟨0x10000#64, 1#16, 0#64⟩)
    vfsOpenedFiles := update (closedVfs rounds).vfsOpenedFiles rounds
      ⟨BitVec.ofInt 64 (0 : Nat), 1, 0#64, 0#64, 0#64⟩ }

theorem closedVfs_open {rounds : Nat} (fewer : rounds < maxOpenFiles) :
    vfsOpen ⟨fun _ => 0#8, fun _ => 0#8⟩ 5 (closedVfs rounds) (stringStream [0x2f#8, 0x61#8]) =
      some ((rounds : Int), reopenedVfs rounds) := by
  have slotEq : findFreeSlot (closedVfs rounds) = some rounds := by
    rw [findFreeSlot]
    apply find?_range_of_first fewer
    · rw [closedVfs_fsFileId, if_neg (lt_irrefl rounds)]
      decide
    · intro i below
      rw [closedVfs_fsFileId, if_pos below]
      decide
  exact rootVfs_open rfl rfl rfl rfl rfl (closedVfs_notOpen rounds) (closedVfs_id rounds) slotEq

theorem reopenedVfs_close (rounds : Nat) :
    vfsClose (reopenedVfs rounds) rounds = some (0, closedVfs (rounds + 1)) := by
  have file : (reopenedVfs rounds).vfsOpenedFiles rounds =
      ⟨BitVec.ofInt 64 (0 : Nat), 1, 0#64, 0#64, 0#64⟩ := update_self _ _ _
  have closed : ustarClose (reopenedVfs rounds) 0 = some (0,
      { reopenedVfs rounds with openFiles := (closedVfs rounds).openFiles }) := by
    have here : (reopenedVfs rounds).openFiles 0 = some ⟨0x10000#64, 1#16, 0#64⟩ := by
      unfold reopenedVfs
      dsimp only
      rw [update_self]
    have emptied : update (reopenedVfs rounds).openFiles 0 none =
        (closedVfs rounds).openFiles := by
      funext id
      by_cases first : id = 0
      · rw [first, update_self]
        rfl
      · rw [update_of_ne first]
        exact update_of_ne first _ _
    rw [ustarClose, here, Option.bind_eq_bind, Option.bind_some]
    dsimp only
    rw [if_pos (by decide), emptied]
  have table : update (reopenedVfs rounds).vfsOpenedFiles rounds
      ⟨closedId, 1, 0#64, 0#64, 0#64⟩ = (closedVfs (rounds + 1)).vfsOpenedFiles := by
    funext i
    unfold reopenedVfs closedVfs
    dsimp only
    by_cases here : i = rounds
    · rw [here, update_self, if_pos (by omega)]
    · rw [update_of_ne here, update_of_ne here]
      by_cases below : i < rounds
      · rw [if_pos below, if_pos (by omega)]
      · rw [if_neg below, if_neg (by omega)]
  unfold vfsClose
  dsimp only
  rw [file]
  dsimp only
  rw [if_neg (by decide)]
  have device : getMountpointById (reopenedVfs rounds) 1 =
      some ⟨1#8, kstrcpy (fun _ => 0#8) 0 (stringStream [0x2f#8]) 512, .ustar⟩ := rfl
  rw [device, Option.bind_eq_bind, Option.bind_some, FsOperations.closeFile]
  change (ustarClose (reopenedVfs rounds) 0 >>= _) = _
  rw [closed, Option.bind_eq_bind, Option.bind_some]
  dsimp only
  rw [if_pos rfl, file, table]
  rfl

def SlotHistory.StepWithin (history next : SlotHistory) : Prop :=
  Step history next ∧ next.openFds.card ≤ 511

/-- With one descriptor at a time, any number of rounds up to 512 is possible. -/
theorem closedVfs_reached {rounds : Nat} (within : rounds ≤ maxOpenFiles) :
    Relation.ReflTransGen SlotHistory.StepWithin ⟨twoFilesVfs, ∅, 0⟩
      ⟨closedVfs rounds, ∅, rounds⟩ := by
  induction rounds with
  | zero =>
      rw [closedVfs_zero]
  | succ rounds ih =>
      have opens : SlotHistory.Step ⟨closedVfs rounds, ∅, rounds⟩
          ⟨reopenedVfs rounds, {rounds}, rounds⟩ :=
        ⟨_, _, .opened (closedVfs_open (by omega)), trivial, rfl⟩
      have closes : SlotHistory.Step ⟨reopenedVfs rounds, {rounds}, rounds⟩
          ⟨closedVfs (rounds + 1), ∅, rounds + 1⟩ :=
        ⟨_, _, .closed (reopenedVfs_close rounds), trivial, by simp [SlotHistory.record]⟩
      exact ((ih (by omega)).tail ⟨opens, by simp⟩).tail ⟨closes, by simp⟩

theorem closedVfs_run {rounds : Nat} (within : rounds ≤ maxOpenFiles) :
    Relation.ReflTransGen SlotHistory.Step ⟨twoFilesVfs, ∅, 0⟩ ⟨closedVfs rounds, ∅, rounds⟩ :=
  Relation.ReflTransGen.mono (fun _ _ step => step.1) _ _ (closedVfs_reached within)

/-- The file system opens the file `a` after any number of rounds. -/
theorem closedVfs_ustarOpen (rounds : Nat) :
    ∃ middle, ustarOpen (fun _ => 0#8) 5 (closedVfs rounds)
      (advance 1 (stringStream [0x2f#8, 0x61#8])) = some (((0 : Nat) : Int), middle) :=
  ⟨_, ustarOpen_of_found (closedVfs_notOpen rounds) (twoFiles_found 0) (by decide)
    (closedVfs_id rounds) rfl⟩

theorem closedVfs_device (rounds : Nat) :
    vfsGetMountpoint (closedVfs rounds) (StackBytes.mountpoint ⟨fun _ => 0#8, fun _ => 0#8⟩)
        (stringStream [0x2f#8, 0x61#8]) =
      some ⟨1#8, kstrcpy (fun _ => 0#8) 0 (stringStream [0x2f#8]) 512, .ustar⟩ :=
  vfsGetMountpoint_single rfl _ _

theorem letterPath_relPath :
    getRelPath 5 (kstrcpy (fun _ => 0#8) 0 (stringStream [0x2f#8]) 512)
      (stringStream [0x2f#8, 0x61#8]) = some (advance 1 (stringStream [0x2f#8, 0x61#8])) :=
  getRelPath_root rfl (by decide)

end Exhaustion

/-- After 511 rounds the file `a` can be opened once more, after 512 it cannot. -/
theorem vfs_open_has_slot_iff_rounds :
    (∃ (fd : Nat) (after : VfsState),
      vfsOpen ⟨fun _ => 0#8, fun _ => 0#8⟩ 5 (closedVfs 511) (stringStream [0x2f#8, 0x61#8]) =
        some ((fd : Int), after)) ∧
    ¬ ∃ (fd : Nat) (after : VfsState),
      vfsOpen ⟨fun _ => 0#8, fun _ => 0#8⟩ 5 (closedVfs 512) (stringStream [0x2f#8, 0x61#8]) =
        some ((fd : Int), after) := by
  obtain ⟨middle, opened⟩ := closedVfs_ustarOpen 511
  obtain ⟨middle', opened'⟩ := closedVfs_ustarOpen 512
  have last := closedVfs_run (by decide : 511 ≤ maxOpenFiles)
  have full := closedVfs_run (by decide : 512 ≤ maxOpenFiles)
  constructor
  · exact (vfs_open_has_slot_iff last (closedVfs_device 511) letterPath_relPath opened
      (by decide)).mpr (.inl (by decide))
  · rw [vfs_open_has_slot_iff full (closedVfs_device 512) letterPath_relPath opened' (by decide)]
    rintro (fewer | ⟨fd, isOpen, -⟩)
    · exact absurd fewer (by decide)
    · exact absurd isOpen (Finset.notMem_empty fd)

/-- After the file `a` has been opened and closed 512 times, it cannot be opened
any more: the file system opens it, but `vfs_open` returns -1. -/
theorem vfs_open_runs_out_of_slots :
    ∃ history, Relation.ReflTransGen SlotHistory.StepWithin ⟨twoFilesVfs, ∅, 0⟩ history ∧
      history.openFds = ∅ ∧
      (∃ middle, ustarOpen (fun _ => 0#8) 5 history.state
        (advance 1 (stringStream [0x2f#8, 0x61#8])) = some (((0 : Nat) : Int), middle)) ∧
      ∃ after, vfsOpen ⟨fun _ => 0#8, fun _ => 0#8⟩ 5 history.state
        (stringStream [0x2f#8, 0x61#8]) = some (-1, after) := by
  obtain ⟨middle, opened⟩ := closedVfs_ustarOpen 512
  have full : ∀ i < maxOpenFiles, ((closedVfs 512).vfsOpenedFiles i).fsFileId ≠ 0#64 := by
    intro i below
    rw [maxOpenFiles] at below
    rw [closedVfs_fsFileId, if_pos below]
    decide
  exact ⟨⟨closedVfs 512, ∅, 512⟩, closedVfs_reached le_rfl, rfl, ⟨middle, opened⟩, middle,
    vfsOpen_of_full (closedVfs_device 512) letterPath_relPath opened (by decide) full⟩

end MmdOS
