import MmdOS.VfsFiles
import Mathlib.Logic.Relation

/-!
# Which descriptor an open call returns

`vfs_open` takes the first descriptor whose file id is zero.  A descriptor that
has never been used has this id, and so has every open one of the first open
file; a closed one has the id -1 and is never used again.
-/

namespace MmdOS

open CString
open Function (update update_self update_of_ne)

variable {tarFilename : Stream} {id fd : Nat} {result : Int} {state : VfsState}
variable {fuel : Nat} {path : Stream}

section Calls

variable {stack : StackBytes} {state after : VfsState}

/-- What a call of `ustar_open` does: it takes another reference to a file that
it finds open, opens the file in a free slot, or fails and changes nothing. -/
inductive UstarOpened (tarFilename : Stream) (fuel : Nat) (state : VfsState) (path : Stream) :
    Int → VfsState → Prop
  | reopened {slot : Nat} {file : UstarFile} (already : isAlreadyOpen state path = some slot)
      (fileEq : state.openFiles slot = some file) :
      UstarOpened tarFilename fuel state path slot
        { state with
          openFiles := update state.openFiles slot
            (some { file with references := file.references + 1#16 }) }
  | opened {slot : Nat} {header : Word} (notOpen : isAlreadyOpen state path = none)
      (found : tarFileLookup state.space path state.tarFsStartAddress tarFilename fuel =
        some header)
      (nonNull : header ≠ 0#64) (slotEq : findOpenId state = some slot) :
      UstarOpened tarFilename fuel state path slot
        { state with
          openFiles := update state.openFiles slot
            (some ⟨header, 1#16, octAsciiToDec (headerFileSize state.space header) 12#16⟩) }
  | failed {header : Word} (notOpen : isAlreadyOpen state path = none)
      (found : tarFileLookup state.space path state.tarFsStartAddress tarFilename fuel =
        some header)
      (cause : header = 0#64 ∨ findOpenId state = none) :
      UstarOpened tarFilename fuel state path (-1) state

theorem isAlreadyOpen_eq_some {slot : Nat} (already : isAlreadyOpen state path = some slot) :
    slot < maxOpenFiles ∧ ∃ file, state.openFiles slot = some file ∧ 0#16 < file.references ∧
      kstrcmp (openFileName state.space file.header) path 256#32 = true := by
  rw [isAlreadyOpen] at already
  have test := List.find?_some already
  refine ⟨List.mem_range.mp (List.mem_of_find?_eq_some already), ?_⟩
  cases fileEq : state.openFiles slot with
  | none =>
      rw [fileEq] at test
      cases test
  | some file =>
      rw [fileEq, Bool.and_eq_true, decide_eq_true_iff] at test
      exact ⟨file, rfl, test⟩

theorem findOpenId_eq_some {slot : Nat} (slotEq : findOpenId state = some slot) :
    slot < maxOpenFiles ∧ state.openFiles slot = none := by
  rw [findOpenId] at slotEq
  have test := List.find?_some slotEq
  exact ⟨List.mem_range.mp (List.mem_of_find?_eq_some slotEq),
    Option.isNone_iff_eq_none.mp test⟩

theorem ustarOpen_opened {id : Int}
    (returned : ustarOpen tarFilename fuel state path = some (id, after)) :
    UstarOpened tarFilename fuel state path id after := by
  unfold ustarOpen at returned
  split at returned
  · next slot already =>
    obtain ⟨-, file, fileEq, -⟩ := isAlreadyOpen_eq_some already
    rw [fileEq, Option.map_some] at returned
    cases returned
    exact .reopened already fileEq
  · next notOpen =>
    obtain ⟨header, found, rest⟩ := Option.bind_eq_some_iff.mp returned
    split at rest
    · next isNull =>
      cases rest
      exact .failed notOpen found (.inl isNull)
    · next nonNull =>
      split at rest
      · next noSlot =>
        cases rest
        exact .failed notOpen found (.inr noSlot)
      · next slot slotEq =>
        cases rest
        exact .opened notOpen found nonNull slotEq

theorem ustarClose_eq_some {slot : Nat} (returned : ustarClose state slot = some (result, after)) :
    result = 0 ∧ ∃ file, state.openFiles slot = some file ∧
      after = { state with
        openFiles := update state.openFiles slot
          (if file.references - 1#16 < 1#16 then none
            else some { file with references := file.references - 1#16 }) } := by
  rw [ustarClose, Option.bind_eq_bind, Option.bind_eq_some_iff] at returned
  obtain ⟨file, fileEq, returned⟩ := returned
  rw [Option.some.injEq, Prod.mk.injEq] at returned
  exact ⟨returned.1.symm, file, fileEq, returned.2.symm⟩

/-- What a call of `vfs_open` does: it finds no mounted device, the file system
does not open the file, no slot is free for an opened file, or the first free
slot is written. -/
inductive VfsOpened (stack : StackBytes) (fuel : Nat) (state : VfsState) (path : Stream) :
    Int → VfsState → Prop
  | unmounted (noMount : vfsGetMountpoint state stack.mountpoint path = none) :
      VfsOpened stack fuel state path (-1) state
  | failed {mountpoint : Mountpoint} {relPath : Stream} {after : VfsState}
      (mounted : vfsGetMountpoint state stack.mountpoint path = some mountpoint)
      (relative : getRelPath fuel mountpoint.mountpoint path = some relPath)
      (opening : mountpoint.operations.openFile stack.tarFilename fuel state relPath =
        some (-1, after)) :
      VfsOpened stack fuel state path (-1) after
  | full {mountpoint : Mountpoint} {relPath : Stream} {id : Int} {after : VfsState}
      (mounted : vfsGetMountpoint state stack.mountpoint path = some mountpoint)
      (relative : getRelPath fuel mountpoint.mountpoint path = some relPath)
      (opening : mountpoint.operations.openFile stack.tarFilename fuel state relPath =
        some (id, after))
      (found : id ≠ -1) (noSlot : findFreeSlot after = none) :
      VfsOpened stack fuel state path (-1) after
  | opened {mountpoint : Mountpoint} {relPath : Stream} {id : Int} {middle : VfsState} {fd : Nat}
      {fileSize : Word}
      (mounted : vfsGetMountpoint state stack.mountpoint path = some mountpoint)
      (relative : getRelPath fuel mountpoint.mountpoint path = some relPath)
      (opening : mountpoint.operations.openFile stack.tarFilename fuel state relPath =
        some (id, middle))
      (found : id ≠ -1) (slot : findFreeSlot middle = some fd)
      (size : mountpoint.operations.getFileSize middle id.toNat = some fileSize) :
      VfsOpened stack fuel state path fd
        { middle with
          vfsOpenedFiles := update middle.vfsOpenedFiles fd
            ⟨BitVec.ofInt 64 id, mountpoint.id.toNat, 0#64, 0#64, fileSize⟩ }

theorem vfsOpen_opened (returned : vfsOpen stack fuel state path = some (result, after)) :
    VfsOpened stack fuel state path result after := by
  unfold vfsOpen at returned
  split at returned
  · next noMount =>
    cases returned
    exact .unmounted noMount
  · next mountpoint mounted =>
    obtain ⟨relPath, relative, returned⟩ := Option.bind_eq_some_iff.mp returned
    obtain ⟨⟨id, middle⟩, opening, returned⟩ := Option.bind_eq_some_iff.mp returned
    dsimp only at returned
    split at returned
    · next notFound =>
      cases returned
      exact .failed mounted relative (notFound ▸ opening)
    · next found =>
      split at returned
      · next noSlot =>
        cases returned
        exact .full mounted relative opening found noSlot
      · next fd slot =>
        obtain ⟨fileSize, size, returned⟩ := Option.bind_eq_some_iff.mp returned
        cases returned
        exact .opened mounted relative opening found slot size

/-- A call of `vfs_open` that returns a descriptor has opened a file and has
written the first free slot. -/
theorem vfsOpen_eq_some (returned : vfsOpen stack fuel state path = some ((fd : Int), after)) :
    ∃ mountpoint relPath id middle fileSize,
      vfsGetMountpoint state stack.mountpoint path = some mountpoint ∧
      getRelPath fuel mountpoint.mountpoint path = some relPath ∧
      mountpoint.operations.openFile stack.tarFilename fuel state relPath = some (id, middle) ∧
      id ≠ -1 ∧ findFreeSlot middle = some fd ∧
      mountpoint.operations.getFileSize middle id.toNat = some fileSize ∧
      after = { middle with
        vfsOpenedFiles := update middle.vfsOpenedFiles fd
          ⟨BitVec.ofInt 64 id, mountpoint.id.toNat, 0#64, 0#64, fileSize⟩ } := by
  obtain ⟨result, resultEq⟩ : ∃ result, (fd : Int) = result := ⟨_, rfl⟩
  rw [resultEq] at returned
  cases vfsOpen_opened returned with
  | unmounted => omega
  | failed => omega
  | full => omega
  | opened mounted relative opening found slot size =>
      obtain rfl := Int.natCast_inj.mp resultEq
      exact ⟨_, _, _, _, _, mounted, relative, opening, found, slot, size, rfl⟩

theorem FsOperations.openFile_table {operations : FsOperations} {id : Int}
    (returned : operations.openFile tarFilename fuel state path = some (id, after)) :
    after.vfsOpenedFiles = state.vfsOpenedFiles := by
  cases operations with
  | unset => cases returned
  | ustar =>
      rw [openFile] at returned
      cases ustarOpen_opened returned with
      | reopened => rfl
      | opened => rfl
      | failed => rfl

theorem vfsOpen_table (returned : vfsOpen stack fuel state path = some ((fd : Int), after)) :
    fd < maxOpenFiles ∧ (state.vfsOpenedFiles fd).fsFileId = 0#64 ∧
      (∀ i < fd, (state.vfsOpenedFiles i).fsFileId ≠ 0#64) ∧
      ∀ i ≠ fd, after.vfsOpenedFiles i = state.vfsOpenedFiles i := by
  obtain ⟨mountpoint, relPath, id, middle, fileSize, -, -, openEq, -, slotEq, -, rfl⟩ :=
    vfsOpen_eq_some returned
  rw [findFreeSlot, FsOperations.openFile_table openEq, List.find?_range_eq_some] at slotEq
  simp only [decide_eq_true_eq, List.mem_range, Bool.not_eq_eq_eq_not, Bool.not_true,
    decide_eq_false_iff_not] at slotEq
  obtain ⟨isFree, inRange, first⟩ := slotEq
  refine ⟨inRange, isFree, fun i before => first i before, ?_⟩
  intro i different
  dsimp only
  rw [update_of_ne different, FsOperations.openFile_table openEq]

/-- How a call of `vfs_close` ends: the descriptor was closed already, or the file
system has closed the file. -/
theorem vfsClose_returns (returned : vfsClose state fd = some (result, after)) :
    ((state.vfsOpenedFiles fd).fsFileId = closedId ∧ result = 0 ∧ after = state) ∨
    ((state.vfsOpenedFiles fd).fsFileId ≠ closedId ∧ result = 0 ∧
      ∃ mountpoint middle,
        getMountpointById state (state.vfsOpenedFiles fd).mountpointId = some mountpoint ∧
        mountpoint.operations = .ustar ∧
        ustarClose state (state.vfsOpenedFiles fd).fsFileId.toNat = some (0, middle) ∧
        after = { middle with
          vfsOpenedFiles := update middle.vfsOpenedFiles fd
            { middle.vfsOpenedFiles fd with fsFileId := closedId } }) := by
  unfold vfsClose at returned
  dsimp only at returned
  split at returned
  · next isClosed =>
    rw [Option.some.injEq, Prod.mk.injEq] at returned
    exact .inl ⟨isClosed, returned.1.symm, returned.2.symm⟩
  · next isOpen =>
    obtain ⟨mountpoint, mounted, returned⟩ := Option.bind_eq_some_iff.mp returned
    obtain ⟨⟨closeResult, middle⟩, closing, returned⟩ := Option.bind_eq_some_iff.mp returned
    cases operations : mountpoint.operations with
    | unset =>
        rw [operations] at closing
        cases closing
    | ustar =>
        rw [operations, FsOperations.closeFile] at closing
        obtain ⟨rfl, -⟩ := ustarClose_eq_some closing
        dsimp only at returned
        rw [if_pos rfl, Option.some.injEq, Prod.mk.injEq] at returned
        exact .inr ⟨isOpen, returned.1.symm, mountpoint, middle, mounted, operations, closing,
          returned.2.symm⟩

theorem vfsClose_table (returned : vfsClose state fd = some (result, after)) :
    (after.vfsOpenedFiles fd).fsFileId = closedId ∧
      ∀ i ≠ fd, after.vfsOpenedFiles i = state.vfsOpenedFiles i := by
  rcases vfsClose_returns returned with ⟨isClosed, -, rfl⟩ |
    ⟨-, -, mountpoint, middle, -, -, closing, rfl⟩
  · exact ⟨isClosed, fun _ _ => rfl⟩
  · obtain ⟨-, file, -, rfl⟩ := ustarClose_eq_some closing
    dsimp only
    constructor
    · rw [update_self]
    · intro i different
      rw [update_of_ne different]

end Calls

/-- What the caller knows of a call: which descriptor was opened, closed or read. -/
inductive VfsEvent
  | opened (fd : Nat)
  | failed
  | closed (fd : Nat)
  | read (fd : Nat)
  | memory

/-- Any call of `vfs_open`, `vfs_close` or `vfs_read` that returns, and any other
change of memory. -/
inductive VfsStep (state : VfsState) : VfsEvent → VfsState → Prop
  | opened {stack : StackBytes} {fuel fd : Nat} {path : Stream} {after : VfsState}
      (returned : vfsOpen stack fuel state path = some ((fd : Int), after)) :
      VfsStep state (.opened fd) after
  | failed {stack : StackBytes} {fuel : Nat} {path : Stream} {after : VfsState}
      (returned : vfsOpen stack fuel state path = some (-1, after)) : VfsStep state .failed after
  | closed {fd : Nat} {result : Int} {after : VfsState}
      (returned : vfsClose state fd = some (result, after)) : VfsStep state (.closed fd) after
  | read {fd : Nat} {buf nbytes count : Word} {after : VfsState}
      (returned : vfsRead state fd buf nbytes = some (count, after)) : VfsStep state (.read fd) after
  | memory (space : ByteSpace) : VfsStep state .memory { state with space }

/-- A call that is allowed, and what a history records of it. -/
def RecordedStep {History : Type} (state : History → VfsState)
    (allowed : History → VfsEvent → Prop) (record : History → VfsEvent → VfsState → History)
    (history next : History) : Prop :=
  ∃ event after, VfsStep (state history) event after ∧ allowed history event ∧
    next = record history event after

structure VfsHistory where
  state : VfsState
  openFds : Set Nat

namespace VfsHistory

def Allowed (history : VfsHistory) : VfsEvent → Prop
  | .opened _ => True
  | .closed fd => fd ∈ history.openFds
  | .failed | .read _ | .memory => False

def record (history : VfsHistory) (event : VfsEvent) (after : VfsState) : VfsHistory :=
  match event with
  | .opened fd => ⟨after, insert fd history.openFds⟩
  | .closed fd => ⟨after, history.openFds \ {fd}⟩
  | .failed | .read _ | .memory => ⟨after, history.openFds⟩

def Step : VfsHistory → VfsHistory → Prop :=
  RecordedStep VfsHistory.state Allowed record

theorem Step.opened {history : VfsHistory} {stack : StackBytes} {fuel fd : Nat} {path : Stream}
    {after : VfsState} (returned : vfsOpen stack fuel history.state path = some ((fd : Int), after)) :
    Step history ⟨after, insert fd history.openFds⟩ :=
  ⟨.opened fd, after, .opened returned, trivial, rfl⟩

end VfsHistory

/-- The slots below `used` have been used: they are open or have the id -1. -/
structure VfsHistory.Tracked (used : Nat) (history : VfsHistory) : Prop where
  unused : ∀ i, used ≤ i → (history.state.vfsOpenedFiles i).fsFileId = 0#64
  closed : ∀ i < used, i ∉ history.openFds →
    (history.state.vfsOpenedFiles i).fsFileId = closedId
  below : ∀ i ∈ history.openFds, i < used

namespace VfsHistory

variable {used : Nat} {history next : VfsHistory}

/-- A new descriptor is the first slot that has never been used, unless a
descriptor that is open is returned again. -/
theorem Tracked.opened (tracked : history.Tracked used) {stack : StackBytes} {fuel fd : Nat}
    {path : Stream} {after : VfsState}
    (returned : vfsOpen stack fuel history.state path = some ((fd : Int), after)) :
    ∃ used', Tracked used' ⟨after, insert fd history.openFds⟩ ∧
      (fd ∈ history.openFds ∧ used' = used ∨ fd ∉ history.openFds ∧ used' = used + 1) := by
  obtain ⟨-, isFree, first, others⟩ := vfsOpen_table returned
  have fdLe : fd ≤ used := by
    by_contra beyond
    exact first used (by omega) (tracked.unused used le_rfl)
  have fdEq : fd ∉ history.openFds → fd = used := by
    intro notOpen
    by_contra different
    have closed := tracked.closed fd (by omega) notOpen
    rw [isFree] at closed
    exact absurd closed (by decide)
  refine ⟨max used (fd + 1), ⟨?_, ?_, ?_⟩, ?_⟩
  · intro i iGe
    dsimp only
    rw [others i (by omega)]
    exact tracked.unused i (by omega)
  · intro i below notOpen
    rw [Set.mem_insert_iff, not_or] at notOpen
    dsimp only
    rw [others i notOpen.1]
    exact tracked.closed i (by omega) notOpen.2
  · intro i isOpen
    rcases Set.mem_insert_iff.mp isOpen with rfl | wasOpen
    · omega
    · have := tracked.below i wasOpen
      omega
  · by_cases isOpen : fd ∈ history.openFds
    · have := tracked.below fd isOpen
      exact .inl ⟨isOpen, by omega⟩
    · have := fdEq isOpen
      exact .inr ⟨isOpen, by omega⟩

theorem Tracked.closed_one (tracked : history.Tracked used) {after : VfsState}
    (isOpen : fd ∈ history.openFds) (returned : vfsClose history.state fd = some (result, after)) :
    Tracked used ⟨after, history.openFds \ {fd}⟩ := by
  obtain ⟨isClosed, others⟩ := vfsClose_table returned
  have fdLt := tracked.below fd isOpen
  refine ⟨?_, ?_, ?_⟩
  · intro i iGe
    dsimp only
    rw [others i (by omega)]
    exact tracked.unused i iGe
  · intro i below notOpen
    dsimp only
    by_cases same : i = fd
    · rw [same]
      exact isClosed
    · rw [others i same]
      exact tracked.closed i below fun wasOpen => notOpen ⟨wasOpen, same⟩
  · exact fun i stillOpen => tracked.below i stillOpen.1

theorem Tracked.step (tracked : history.Tracked used) (step : Step history next) :
    ∃ used', next.Tracked used' := by
  obtain ⟨event, after, called, allowed, rfl⟩ := step
  cases called with
  | opened returned =>
      obtain ⟨used', after, -⟩ := tracked.opened returned
      exact ⟨used', after⟩
  | closed returned => exact ⟨used, tracked.closed_one allowed returned⟩
  | failed | read | memory => exact allowed.elim

theorem tracked_of_run {space : ByteSpace} {moduleAddress : Word} {block : Stream}
    (run : Relation.ReflTransGen Step ⟨vfsInit space moduleAddress block, ∅⟩ history) :
    ∃ used, history.Tracked used := by
  induction run with
  | refl =>
      refine ⟨0, fun _ _ => rfl, ?_, ?_⟩
      · intro i below
        omega
      · intro i isOpen
        cases isOpen
  | tail _ step ih =>
      obtain ⟨used, tracked⟩ := ih
      exact tracked.step step

/-- The first slot with the id zero is open exactly when some open descriptor
has the id zero. -/
theorem Tracked.first_free_mem_iff (tracked : history.Tracked used)
    (isFree : (history.state.vfsOpenedFiles fd).fsFileId = 0#64)
    (first : ∀ i < fd, (history.state.vfsOpenedFiles i).fsFileId ≠ 0#64) :
    fd ∈ history.openFds ↔
      ∃ other ∈ history.openFds, (history.state.vfsOpenedFiles other).fsFileId = 0#64 := by
  constructor
  · exact fun isOpen => ⟨fd, isOpen, isFree⟩
  · rintro ⟨other, isOpen, isZero⟩
    have otherLt := tracked.below other isOpen
    have fdLe : fd ≤ other := by
      by_contra beyond
      exact first other (by omega) isZero
    by_contra notOpen
    have closed := tracked.closed fd (by omega) notOpen
    rw [isFree] at closed
    exact absurd closed (by decide)

end VfsHistory

/-- A successful `vfs_open` returns a descriptor that is not open, and leaves
the entries of the open ones alone, exactly when no open descriptor refers to
the file with the id zero. -/
theorem vfs_open_fresh_iff {space : ByteSpace} {moduleAddress : Word} {block : Stream}
    {history : VfsHistory}
    (run : Relation.ReflTransGen VfsHistory.Step ⟨vfsInit space moduleAddress block, ∅⟩ history)
    {stack : StackBytes} {fuel fd : Nat} {path : Stream} {after : VfsState}
    (returned : vfsOpen stack fuel history.state path = some ((fd : Int), after)) :
    (fd ∉ history.openFds ∧ ∀ other ∈ history.openFds,
      after.vfsOpenedFiles other = history.state.vfsOpenedFiles other) ↔
    ∀ other ∈ history.openFds, (history.state.vfsOpenedFiles other).fsFileId ≠ 0#64 := by
  obtain ⟨used, tracked⟩ := VfsHistory.tracked_of_run run
  obtain ⟨-, isFree, first, others⟩ := vfsOpen_table returned
  have aliased := tracked.first_free_mem_iff isFree first
  constructor
  · rintro ⟨notOpen, -⟩ other isOpen isZero
    exact notOpen (aliased.mpr ⟨other, isOpen, isZero⟩)
  · intro noZero
    have notOpen : fd ∉ history.openFds := by
      intro isOpen
      exact noZero fd isOpen isFree
    refine ⟨notOpen, fun other isOpen => others other ?_⟩
    rintro rfl
    exact notOpen isOpen

section Evaluation

/-- With one mounted file system, every path belongs to it. -/
theorem vfsGetMountpoint_single {state : VfsState} {mountpoint : Mountpoint}
    (mounted : state.mountedDevices = [mountpoint]) (buffer path : Stream) :
    vfsGetMountpoint state buffer path = some mountpoint := by
  have first : longestMountpoint path [mountpoint] 0 buffer 0 0 = 0 := by
    simp only [longestMountpoint]
    split
    · split <;> rfl
    · rfl
  rw [vfsGetMountpoint, mounted, first]
  rfl

theorem ustarOpen_of_found {header size : Word} (notOpen : isAlreadyOpen state path = none)
    (found : tarFileLookup state.space path state.tarFsStartAddress tarFilename fuel = some header)
    (nonNull : header ≠ 0#64) (idEq : findOpenId state = some id)
    (sizeEq : octAsciiToDec (headerFileSize state.space header) 12#16 = size) :
    ustarOpen tarFilename fuel state path = some ((id : Int),
      { state with
        openFiles := update state.openFiles id (some ⟨header, 1#16, size⟩) }) := by
  unfold ustarOpen
  rw [notOpen]
  dsimp only
  rw [found, Option.bind_eq_bind, Option.bind_some, if_neg nonNull, idEq]
  dsimp only
  rw [sizeEq]

/-- A call of `vfs_open` for a file that is not open yet. -/
theorem vfsOpen_of_found {stack : StackBytes} {relPath : Stream} {mountpoint : Mountpoint}
    {header size : Word} (mounted : state.mountedDevices = [mountpoint])
    (isUstar : mountpoint.operations = .ustar)
    (relEq : getRelPath fuel mountpoint.mountpoint path = some relPath)
    (notOpen : isAlreadyOpen state relPath = none)
    (found : tarFileLookup state.space relPath state.tarFsStartAddress stack.tarFilename fuel =
      some header) (nonNull : header ≠ 0#64) (idEq : findOpenId state = some id)
    (slotEq : findFreeSlot state = some fd)
    (sizeEq : octAsciiToDec (headerFileSize state.space header) 12#16 = size) :
    vfsOpen stack fuel state path = some ((fd : Int),
      { state with
        openFiles := update state.openFiles id (some ⟨header, 1#16, size⟩)
        vfsOpenedFiles := update state.vfsOpenedFiles fd
          ⟨BitVec.ofInt 64 id, mountpoint.id.toNat, 0#64, 0#64, size⟩ }) := by
  have idNe : (id : Int) ≠ -1 := by omega
  have slotEq' : ∀ openFiles, findFreeSlot { state with openFiles } = some fd :=
    fun _ => slotEq
  rw [vfsOpen, vfsGetMountpoint_single mounted]
  dsimp only
  rw [relEq, Option.bind_eq_bind, Option.bind_some, isUstar, FsOperations.openFile,
    ustarOpen_of_found notOpen found nonNull idEq sizeEq, Option.bind_eq_bind, Option.bind_some]
  dsimp only
  rw [if_neg idNe, slotEq']
  dsimp only
  rw [FsOperations.getFileSize, ustarGetFileSize, Int.toNat_natCast]
  dsimp only
  rw [update_self, Option.map_some, Option.bind_eq_bind, Option.bind_some]

theorem find?_range_of_first {count first : Nat} {test : Nat → Bool} (below : first < count)
    (holds : test first = true) (before : ∀ i < first, test i = false) :
    (List.range count).find? test = some first := by
  rw [List.find?_range_eq_some]
  refine ⟨holds, List.mem_range.mpr below, fun i iLt => ?_⟩
  rw [before i iLt]
  rfl

theorem getRelPath_root {block : Stream} (slash : path 0 = 0x2f#8) (more : path 1 ≠ 0#8) :
    getRelPath (fuel + 2) (kstrcpy block 0 (stringStream [0x2f#8]) 512) path =
      some (advance 1 path) := by
  have name : text 512 (stringStream [0x2f#8]) = [0x2f#8] :=
    Holds.text_eq (holds_stringStream (by decide)) 512
  have first : kstrcpy block 0 (stringStream [0x2f#8]) 512 0 = 0x2f#8 := by
    rw [kstrcpy_apply, if_pos (by omega)]
    rfl
  have second : kstrcpy block 0 (stringStream [0x2f#8]) 512 1 = 0#8 := by
    rw [kstrcpy_apply, name, if_pos (by decide)]
    rfl
  rw [getRelPath, if_pos (first.trans slash.symm), getRelPath, advance_apply, advance_apply,
    second, if_neg (fun same => more same.symm)]

end Evaluation

def twoFilesVfs : VfsState :=
  vfsInit (imageSpace 0x10000#64 (archive [plainFile, prefixedFile])) 0x10000#64 (fun _ => 0#8)

def oneOpenVfs : VfsState :=
  { twoFilesVfs with
    openFiles := update (fun _ => none) 0 (some ⟨0x10000#64, 1#16, 0#64⟩)
    vfsOpenedFiles := update (fun _ => ⟨0#64, 0, 0#64, 0#64, 0#64⟩) 0
      ⟨BitVec.ofInt 64 (0 : Nat), 1, 0#64, 0#64, 0#64⟩ }

theorem twoFiles_found (fuel : Nat) :
    tarFileLookup (imageSpace 0x10000#64 (archive [plainFile, prefixedFile]))
      (advance 1 (stringStream [0x2f#8, 0x61#8])) 0x10000#64 (fun _ => 0#8) (5 + fuel) =
        some 0x10000#64 := by
  have path : Holds (advance 1 (stringStream [0x2f#8, 0x61#8])) [0x61#8] :=
    ⟨by decide, by decide, by decide⟩
  apply tarFileLookupLoop_mono
  have first : firstMatch (fun entry => decide (entry.assembledName 0#8 = [0x61#8].take 256))
      0x10000#64 [plainFile, prefixedFile] = 0x10000#64 := by
    rw [firstMatch, if_pos (decide_eq_true ((plainFile_compared _ _).mpr plainFile_fullName))]
  rw [← first]
  exact tarFileLookupLoop_eq twoFiles_loaded path (fun _ => 0#8)

theorem twoFiles_size :
    octAsciiToDec (headerFileSize (imageSpace 0x10000#64 (archive [plainFile, prefixedFile]))
      0x10000#64) 12#16 = 0#64 :=
  twoFiles_loaded.head.fileSize_eq

theorem rootVfs_open {root : Mountpoint} (mounted : state.mountedDevices = [root])
    (isUstar : root.operations = .ustar)
    (rootPath : root.mountpoint = kstrcpy (fun _ => 0#8) 0 (stringStream [0x2f#8]) 512)
    (spaceEq : state.space = imageSpace 0x10000#64 (archive [plainFile, prefixedFile]))
    (startEq : state.tarFsStartAddress = 0x10000#64)
    (notOpen : isAlreadyOpen state (advance 1 (stringStream [0x2f#8, 0x61#8])) = none)
    (idEq : findOpenId state = some id) (slotEq : findFreeSlot state = some fd) :
    vfsOpen ⟨fun _ => 0#8, fun _ => 0#8⟩ 5 state (stringStream [0x2f#8, 0x61#8]) =
      some ((fd : Int),
        { state with
          openFiles := update state.openFiles id (some ⟨0x10000#64, 1#16, 0#64⟩)
          vfsOpenedFiles := update state.vfsOpenedFiles fd
            ⟨BitVec.ofInt 64 id, root.id.toNat, 0#64, 0#64, 0#64⟩ }) := by
  have relEq : getRelPath 5 root.mountpoint (stringStream [0x2f#8, 0x61#8]) =
      some (advance 1 (stringStream [0x2f#8, 0x61#8])) := by
    rw [rootPath]
    exact getRelPath_root rfl (by decide)
  have found : tarFileLookup state.space (advance 1 (stringStream [0x2f#8, 0x61#8]))
      state.tarFsStartAddress (fun _ => 0#8) 5 = some 0x10000#64 := by
    rw [spaceEq, startEq]
    exact twoFiles_found 0
  have sizeEq : octAsciiToDec (headerFileSize state.space 0x10000#64) 12#16 = 0#64 := by
    rw [spaceEq]
    exact twoFiles_size
  exact vfsOpen_of_found mounted isUstar relEq notOpen found (by decide) idEq slotEq sizeEq

theorem twoFilesVfs_open :
    vfsOpen ⟨fun _ => 0#8, fun _ => 0#8⟩ 5 twoFilesVfs (stringStream [0x2f#8, 0x61#8]) =
      some (((0 : Nat) : Int), oneOpenVfs) := by
  have notOpen : isAlreadyOpen twoFilesVfs (advance 1 (stringStream [0x2f#8, 0x61#8])) = none := by
    rw [isAlreadyOpen, List.find?_eq_none]
    intro i _
    exact Bool.false_ne_true
  have idEq : findOpenId twoFilesVfs = some 0 :=
    find?_range_of_first (by decide) rfl (by omega)
  have slotEq : findFreeSlot twoFilesVfs = some 0 :=
    find?_range_of_first (by decide) rfl (by omega)
  exact rootVfs_open rfl rfl rfl rfl rfl notOpen idEq slotEq

/-- `is_already_open` takes an open file without a prefix for one with an empty
name. -/
theorem kstrcmp_openFileName {space : ByteSpace} {header : Word}
    (noPrefix : headerFilenamePrefix space header 0 = 0#8) (name : Stream) :
    kstrcmp (openFileName space header) name 256#32 = decide (name 0 = 0#8) := by
  have empty : text 256 (openFileName space header) = [] := by
    apply text_succ_of_zero
    rw [openFileName, if_neg (fun nonzero => nonzero noPrefix), kstrcpy_apply, if_pos (by omega)]
    exact noPrefix
  rw [Bool.eq_iff_iff, kstrcmp_eq_true (by omega : 1 ≤ 256) (by omega), empty, eq_comm,
    text_succ_eq_nil, decide_eq_true_iff]

theorem letterVfs_notOpen
    (spaceEq : state.space = imageSpace 0x10000#64 (archive [plainFile, prefixedFile]))
    (headers : ∀ slot file, state.openFiles slot = some file → file.header = 0x10000#64) :
    isAlreadyOpen state (advance 1 (stringStream [0x2f#8, 0x61#8])) = none := by
  have noPrefix : headerFilenamePrefix
      (imageSpace 0x10000#64 (archive [plainFile, prefixedFile])) 0x10000#64 0 = 0#8 := by
    have empty := twoFiles_loaded.head.text_headerFilenamePrefix.trans plainFile_names.1
    exact text_succ_eq_nil.mp empty
  rw [isAlreadyOpen, List.find?_eq_none]
  intro slot _
  cases fileEq : state.openFiles slot with
  | none => exact Bool.false_ne_true
  | some file =>
      dsimp only
      rw [spaceEq, headers slot file fileEq, kstrcmp_openFileName noPrefix, Bool.and_eq_true]
      rintro ⟨-, isEmpty⟩
      exact absurd isEmpty (by decide)

/-- The state after the file `a` has been opened twice: its second slot stands in
the descriptor 0. -/
def twiceOpenVfs : VfsState :=
  { oneOpenVfs with
    openFiles := update oneOpenVfs.openFiles 1 (some ⟨0x10000#64, 1#16, 0#64⟩)
    vfsOpenedFiles := update oneOpenVfs.vfsOpenedFiles 0
      ⟨BitVec.ofInt 64 (1 : Nat), 1, 0#64, 0#64, 0#64⟩ }

theorem oneOpenVfs_headers (slot : Nat) (file : UstarFile)
    (fileEq : oneOpenVfs.openFiles slot = some file) : file.header = 0x10000#64 := by
  by_cases first : slot = 0
  · rw [first] at fileEq
    exact congrArg UstarFile.header (Option.some.inj fileEq).symm
  · have unchanged : oneOpenVfs.openFiles slot = none := by
      unfold oneOpenVfs
      dsimp only
      rw [update_of_ne first]
    rw [unchanged] at fileEq
    cases fileEq

theorem oneOpenVfs_open :
    vfsOpen ⟨fun _ => 0#8, fun _ => 0#8⟩ 5 oneOpenVfs (stringStream [0x2f#8, 0x61#8]) =
      some (((0 : Nat) : Int), twiceOpenVfs) := by
  have idEq : findOpenId oneOpenVfs = some 1 :=
    find?_range_of_first (by decide) rfl (by decide)
  have slotEq : findFreeSlot oneOpenVfs = some 0 :=
    find?_range_of_first (by decide) rfl (by omega)
  exact rootVfs_open rfl rfl rfl rfl rfl (letterVfs_notOpen rfl oneOpenVfs_headers) idEq slotEq

theorem twiceOpenVfs_open :
    ∃ after, vfsOpen ⟨fun _ => 0#8, fun _ => 0#8⟩ 5 twiceOpenVfs (stringStream [0x2f#8, 0x61#8]) =
      some (((1 : Nat) : Int), after) := by
  have headers : ∀ slot file, twiceOpenVfs.openFiles slot = some file →
      file.header = 0x10000#64 := by
    intro slot file fileEq
    by_cases second : slot = 1
    · rw [second] at fileEq
      exact congrArg UstarFile.header (Option.some.inj fileEq).symm
    · have unchanged : twiceOpenVfs.openFiles slot = oneOpenVfs.openFiles slot :=
        update_of_ne second _ _
      exact oneOpenVfs_headers slot file (unchanged.symm.trans fileEq)
  have idEq : findOpenId twiceOpenVfs = some 2 :=
    find?_range_of_first (by decide) rfl (by decide)
  have slotEq : findFreeSlot twiceOpenVfs = some 1 :=
    find?_range_of_first (by decide) rfl (by decide)
  exact ⟨_, rootVfs_open rfl rfl rfl rfl rfl (letterVfs_notOpen rfl headers) idEq slotEq⟩

theorem oneOpenVfs_reached :
    Relation.ReflTransGen VfsHistory.Step ⟨twoFilesVfs, ∅⟩ ⟨oneOpenVfs, insert 0 ∅⟩ :=
  Relation.ReflTransGen.single (.opened twoFilesVfs_open)

theorem vfs_open_fresh_iff_third :
    Relation.ReflTransGen VfsHistory.Step ⟨twoFilesVfs, ∅⟩ ⟨twiceOpenVfs, {0}⟩ ∧
      ∃ after, vfsOpen ⟨fun _ => 0#8, fun _ => 0#8⟩ 5 twiceOpenVfs
        (stringStream [0x2f#8, 0x61#8]) = some (((1 : Nat) : Int), after) ∧
        1 ∉ ({0} : Set Nat) ∧
        ∀ other ∈ ({0} : Set Nat),
          after.vfsOpenedFiles other = twiceOpenVfs.vfsOpenedFiles other := by
  have run : Relation.ReflTransGen VfsHistory.Step ⟨twoFilesVfs, ∅⟩ ⟨twiceOpenVfs, {0}⟩ := by
    have again : insert 0 (insert 0 ∅) = ({0} : Set Nat) := by simp
    have second := @VfsHistory.Step.opened ⟨oneOpenVfs, insert 0 ∅⟩ _ _ _ _ _ oneOpenVfs_open
    dsimp only at second
    rw [again] at second
    exact oneOpenVfs_reached.tail second
  obtain ⟨after, returned⟩ := twiceOpenVfs_open
  refine ⟨run, after, returned, (vfs_open_fresh_iff run returned).mpr ?_⟩
  intro other isZero
  rw [Set.mem_singleton_iff.mp isZero]
  exact (by decide : BitVec.ofInt 64 (1 : Nat) ≠ 0#64)

/-- Opening the file `a` twice returns the same descriptor twice. -/
theorem vfs_open_aliases :
    Relation.ReflTransGen VfsHistory.Step ⟨twoFilesVfs, ∅⟩ ⟨oneOpenVfs, insert 0 ∅⟩ ∧
      ∃ after, vfsOpen ⟨fun _ => 0#8, fun _ => 0#8⟩ 5 oneOpenVfs
        (stringStream [0x2f#8, 0x61#8]) = some (((0 : Nat) : Int), after) ∧
        0 ∈ (insert 0 ∅ : Set Nat) := by
  exact ⟨oneOpenVfs_reached, twiceOpenVfs, oneOpenVfs_open, Set.mem_insert 0 ∅⟩

end MmdOS
