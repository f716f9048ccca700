import MmdOS.VfsReads
import MmdOS.VfsSlots

/-!
# Calls on descriptors that are not open

A descriptor comes from the caller and is not checked.  `vfs_read` and `vfs_close`
recognise a closed descriptor by its file id -1.  A slot that was never used has
the file id zero, like the slots of the first open file, and the mount point id
zero, which stands for the entry before the first one of `mounted_devices`.
-/

namespace MmdOS

open CString

/-- The entry of `vfs_opened_files` that a descriptor names, if it is in the table. -/
def slotOf (fd : Int) : Option Nat :=
  if 0 ≤ fd ∧ fd < maxOpenFiles then some fd.toNat else none

inductive Access
  | mountedDevice (index : Int)
  | operation (fileId : Word)

def Access.Harmless (devices : List Mountpoint) : Access → Prop
  | mountedDevice index => 0 ≤ index ∧ index < devices.length
  | operation _ => False

/-- The accesses of `vfs_read` and of `vfs_close`, which begin in the same way. -/
def descriptorAccesses (state : VfsState) (slot : Nat) : List Access :=
  let file := state.vfsOpenedFiles slot
  if file.fsFileId = closedId then []
  else [.mountedDevice ((file.mountpointId : Int) - 1), .operation file.fsFileId]

/-- Both calls return, `vfs_read` with zero bytes, and neither calls the file
system or changes anything. -/
def Rejected (state : VfsState) (fd : Int) : Prop :=
  ∃ slot, slotOf fd = some slot ∧
    (∀ buf nbytes, vfsRead state slot buf nbytes = some (0#64, state)) ∧
    (∃ result, vfsClose state slot = some (result, state)) ∧
    ∀ access ∈ descriptorAccesses state slot, access.Harmless state.mountedDevices

structure DescriptorHistory where
  state : VfsState
  openFds : Set Nat
  closedFds : Set Nat

namespace DescriptorHistory

def Allowed (_ : DescriptorHistory) : VfsEvent → Prop
  | .closed slot | .read slot => ∃ fd, slotOf fd = some slot
  | .opened _ | .failed | .memory => True

def record (history : DescriptorHistory) (event : VfsEvent) (after : VfsState) :
    DescriptorHistory :=
  match event with
  | .opened fd => ⟨after, insert fd history.openFds, history.closedFds⟩
  | .closed slot => ⟨after, history.openFds \ {slot}, insert slot history.closedFds⟩
  | .failed | .read _ | .memory => ⟨after, history.openFds, history.closedFds⟩

def Step : DescriptorHistory → DescriptorHistory → Prop :=
  RecordedStep DescriptorHistory.state Allowed record

end DescriptorHistory

theorem slotOf_eq_some {fd : Int} {slot : Nat} :
    slotOf fd = some slot ↔ fd = slot ∧ slot < maxOpenFiles := by
  unfold slotOf
  split
  · next inTable =>
    rw [Option.some.injEq]
    omega
  · next outside =>
    constructor
    · intro isSome
      cases isSome
    · omega

section Calls

variable {state after : VfsState} {slot : Nat}

theorem vfsRead_of_closed (isClosed : (state.vfsOpenedFiles slot).fsFileId = closedId)
    (buf nbytes : Word) : vfsRead state slot buf nbytes = some (0#64, state) := by
  rw [vfsRead, if_pos isClosed]

theorem vfsClose_of_closed (isClosed : (state.vfsOpenedFiles slot).fsFileId = closedId) :
    vfsClose state slot = some (0, state) := by
  rw [vfsClose, if_pos isClosed]

/-- There is no device for the mount point id of an unused slot. -/
theorem vfsRead_of_unused (unused : (state.vfsOpenedFiles slot).fsFileId = 0#64)
    (noDevice : (state.vfsOpenedFiles slot).mountpointId = 0) (buf nbytes : Word) :
    vfsRead state slot buf nbytes = none := by
  have notClosed : (state.vfsOpenedFiles slot).fsFileId ≠ closedId := by
    rw [unused]
    decide
  rw [vfsRead, if_neg notClosed, getMountpointById, if_pos noDevice]
  rfl

theorem rejected_of_closed {fd : Int} (inTable : slotOf fd = some slot)
    (isClosed : (state.vfsOpenedFiles slot).fsFileId = closedId) : Rejected state fd := by
  refine ⟨slot, inTable, vfsRead_of_closed isClosed, ⟨0, vfsClose_of_closed isClosed⟩, ?_⟩
  rw [descriptorAccesses, if_pos isClosed]
  exact fun access member => absurd member List.not_mem_nil

end Calls

namespace DescriptorHistory

variable {history next : DescriptorHistory}

/-- A closed descriptor keeps the id -1, and a slot that was never used is still
as it was at the start. -/
structure Marked (history : DescriptorHistory) : Prop where
  inTable : ∀ slot ∈ history.closedFds, slot < maxOpenFiles
  closed : ∀ slot ∈ history.closedFds, (history.state.vfsOpenedFiles slot).fsFileId = closedId
  unused : ∀ slot, slot ∉ history.openFds → slot ∉ history.closedFds →
    (history.state.vfsOpenedFiles slot).fsFileId = 0#64 ∧
      (history.state.vfsOpenedFiles slot).mountpointId = 0

theorem marked_init (space : ByteSpace) (moduleAddress : Word) (block : Stream) :
    Marked ⟨vfsInit space moduleAddress block, ∅, ∅⟩ where
  inTable := fun _ isClosed => absurd isClosed (Set.notMem_empty _)
  closed := fun _ isClosed => absurd isClosed (Set.notMem_empty _)
  unused := fun _ _ _ => ⟨rfl, rfl⟩

namespace Marked

/-- An open takes a slot with the id zero, so no closed one. -/
theorem opened (marked : history.Marked) {stack : StackBytes} {fuel fd : Nat} {path : Stream}
    {after : VfsState}
    (returned : vfsOpen stack fuel history.state path = some ((fd : Int), after)) :
    Marked ⟨after, insert fd history.openFds, history.closedFds⟩ := by
  obtain ⟨-, isFree, -, others⟩ := vfsOpen_table returned
  refine ⟨marked.inTable, ?_, ?_⟩
  · intro slot isClosed
    have different : slot ≠ fd := by
      rintro rfl
      have closedEq := marked.closed slot isClosed
      rw [isFree] at closedEq
      exact absurd closedEq (by decide)
    dsimp only
    rw [others slot different]
    exact marked.closed slot isClosed
  · intro slot notOpen notClosed
    rw [Set.mem_insert_iff, not_or] at notOpen
    dsimp only
    rw [others slot notOpen.1]
    exact marked.unused slot notOpen.2 notClosed

theorem of_table (marked : history.Marked) {after : VfsState}
    (table : after.vfsOpenedFiles = history.state.vfsOpenedFiles) :
    Marked ⟨after, history.openFds, history.closedFds⟩ := by
  refine ⟨marked.inTable, ?_, ?_⟩
  · dsimp only
    rw [table]
    exact marked.closed
  · dsimp only
    rw [table]
    exact marked.unused

theorem closes (marked : history.Marked) {slot : Nat} {result : Int} {after : VfsState}
    (inTable : slot < maxOpenFiles)
    (returned : vfsClose history.state slot = some (result, after)) :
    Marked ⟨after, history.openFds \ {slot}, insert slot history.closedFds⟩ := by
  obtain ⟨isClosed, others⟩ := vfsClose_table returned
  refine ⟨?_, ?_, ?_⟩
  · rintro other (rfl | before)
    · exact inTable
    · exact marked.inTable other before
  · rintro other (rfl | before)
    · exact isClosed
    · by_cases same : other = slot
      · rw [same]
        exact isClosed
      · dsimp only
        rw [others other same]
        exact marked.closed other before
  · intro other notOpen notClosed
    rw [Set.mem_insert_iff, not_or] at notClosed
    dsimp only
    rw [others other notClosed.1]
    exact marked.unused other (fun isOpen => notOpen ⟨isOpen, notClosed.1⟩) notClosed.2

/-- Only a read from an open descriptor changes its entry. -/
theorem reads (marked : history.Marked) {slot : Nat} {buf nbytes count : Word} {after : VfsState}
    (returned : vfsRead history.state slot buf nbytes = some (count, after)) :
    Marked ⟨after, history.openFds, history.closedFds⟩ := by
  obtain ⟨-, others, -⟩ := vfsRead_frame returned
  by_cases isClosed : slot ∈ history.closedFds
  · rw [vfsRead_of_closed (marked.closed slot isClosed)] at returned
    cases returned
    exact marked
  by_cases isOpen : slot ∈ history.openFds
  · refine ⟨marked.inTable, ?_, ?_⟩
    · intro other otherClosed
      dsimp only
      rw [others other fun same => isClosed (same ▸ otherClosed)]
      exact marked.closed other otherClosed
    · intro other notOpen notClosed
      dsimp only
      rw [others other fun same => notOpen (same ▸ isOpen)]
      exact marked.unused other notOpen notClosed
  · obtain ⟨unused, noDevice⟩ := marked.unused slot isOpen isClosed
    rw [vfsRead_of_unused unused noDevice] at returned
    cases returned

theorem step (marked : history.Marked) (step : Step history next) : next.Marked := by
  obtain ⟨event, after, called, allowed, rfl⟩ := step
  cases called with
  | opened returned => exact marked.opened returned
  | failed returned => exact marked.of_table (vfsOpen_failed_table returned)
  | closed returned =>
      obtain ⟨fd, inTable⟩ := allowed
      exact marked.closes (slotOf_eq_some.mp inTable).2 returned
  | read returned => exact marked.reads returned
  | memory space => exact marked.of_table rfl

end Marked

theorem marked_of_run {space : ByteSpace} {moduleAddress : Word} {block : Stream}
    (run : Relation.ReflTransGen Step ⟨vfsInit space moduleAddress block, ∅, ∅⟩ history) :
    history.Marked := by
  induction run with
  | refl => exact marked_init space moduleAddress block
  | tail _ step ih => exact ih.step step

end DescriptorHistory

/-- In every run, the calls on a descriptor that is not open are rejected if it
was open before and has been closed, and not otherwise. -/
theorem unopened_rejected_iff {space : ByteSpace} {moduleAddress : Word} {block : Stream}
    {history : DescriptorHistory}
    (run : Relation.ReflTransGen DescriptorHistory.Step ⟨vfsInit space moduleAddress block, ∅, ∅⟩
      history)
    {fd : Int} (notOpen : ∀ slot ∈ history.openFds, fd ≠ slot) :
    Rejected history.state fd ↔ ∃ slot ∈ history.closedFds, fd = slot := by
  have marked := DescriptorHistory.marked_of_run run
  constructor
  · rintro ⟨slot, inTable, reads, -⟩
    obtain ⟨rfl, -⟩ := slotOf_eq_some.mp inTable
    by_contra never
    have notClosed : slot ∉ history.closedFds := fun isClosed => never ⟨slot, isClosed, rfl⟩
    obtain ⟨unused, noDevice⟩ :=
      marked.unused slot (fun isOpen => notOpen slot isOpen rfl) notClosed
    have noResult := vfsRead_of_unused unused noDevice 0#64 0#64
    rw [reads] at noResult
    cases noResult
  · rintro ⟨slot, isClosed, rfl⟩
    apply rejected_of_closed (slotOf_eq_some.mpr ⟨rfl, marked.inTable slot isClosed⟩)
    exact marked.closed slot isClosed

theorem unopened_rejected_iff_closed : Rejected (closedVfs 1) 0 := by
  have opens : DescriptorHistory.Step ⟨closedVfs 0, ∅, ∅⟩ ⟨reopenedVfs 0, insert 0 ∅, ∅⟩ :=
    ⟨_, _, .opened (closedVfs_open (by decide)), trivial, rfl⟩
  have closes : DescriptorHistory.Step ⟨reopenedVfs 0, insert 0 ∅, ∅⟩
      ⟨closedVfs 1, insert 0 ∅ \ {0}, insert 0 ∅⟩ :=
    ⟨_, _, .closed (reopenedVfs_close 0), ⟨0, slotOf_eq_some.mpr ⟨rfl, by decide⟩⟩, rfl⟩
  rw [closedVfs_zero] at opens
  refine (unopened_rejected_iff (.tail (.single opens) closes) ?_).mpr
    ⟨0, Set.mem_insert 0 ∅, rfl⟩
  rintro slot ⟨isOpen, notZero⟩ -
  rcases isOpen with isZero | isEmpty
  · exact notZero isZero
  · exact isEmpty

/-- Right after `vfs_init` a read from the descriptor 0 uses the entry -1 of
`mounted_devices`, and -1 and 512 are outside the table of descriptors. -/
theorem unopened_uses_device :
    descriptorAccesses twoFilesVfs 0 = [.mountedDevice (-1), .operation 0#64] ∧
      ¬ Rejected twoFilesVfs 0 ∧ ¬ Rejected twoFilesVfs (-1) ∧ ¬ Rejected twoFilesVfs 512 := by
  refine ⟨rfl, ?_, ?_, ?_⟩
  · rintro ⟨slot, -, reads, -⟩
    have noResult : vfsRead twoFilesVfs slot 0#64 0#64 = none :=
      vfsRead_of_unused rfl rfl 0#64 0#64
    rw [reads] at noResult
    cases noResult
  · rintro ⟨slot, inTable, -⟩
    cases inTable
  · rintro ⟨slot, inTable, -⟩
    cases inTable

end MmdOS
