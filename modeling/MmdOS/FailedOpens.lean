import MmdOS.FileSystemLeaks
import MmdOS.SpaceLifecycle
import MmdOS.VfsSlots

/-!
# Opens that fail

`vfs_open` returns -1 if nothing is mounted, if there is no such file, and if one
of the two tables is full.  In the last two cases `ustar_open` has already taken
a block, or has counted a reference, and nothing is given back.
-/

namespace MmdOS

open CString Outcome

variable {vfs : VfsState}

/-- The two tables of the file system, with all counts, and the pages in use,
apart from page tables, are as before. -/
structure FsState.SameResources (hhdm : Word) (before after : FsState) : Prop where
  descriptors : after.vfs.vfsOpenedFiles = before.vfs.vfsOpenedFiles
  files : after.vfs.openFiles = before.vfs.openFiles
  pointers : after.openFilePtrs = before.openFilePtrs
  pages : SameUsedPages hhdm before.kernel after.kernel

theorem HeapHistory.Standing.alloc_marks {hhdm : Word} {top fuel : Nat}
    {height : Nat → Option Nat} {kernel : Space} {others : List Space} {arenas : List Arena}
    {history : HeapHistory} {size ptr : Word} {mm : MmState Pmm}
    (standing : Standing hhdm top height kernel others arenas history)
    (call : kAlloc hhdm fuel history.kernel.mm history.kernel.vmmKernel size =
      some (.ok (ptr, mm))) :
    ¬ SameUsedPages hhdm history.kernel { history.kernel with mm } := by
  have ready := standing.forked.ready
  rw [standing.forked.kernel_eq] at call
  obtain ⟨arena, height', -, -, -, ext, arenaAt, -⟩ := kAlloc_returned ready call
  exact arenaAt.page_marked (ready.extends ext) standing.forked.kernel_eq ready.tables.valid.2
    (ext.taken_free (Arena.start_mem arenaAt.positive))

section Opens

variable {hhdm : Word} {state after : FsState} {stack : StackBytes} {fuel : Nat}
variable {path tarFilename : Stream} {id : Int}

theorem FsCall.finds_openFile {relPath : Stream} {mountpoint : Mountpoint}
    (mounted : vfsGetMountpoint vfs stack.mountpoint path = some mountpoint)
    (relative : getRelPath fuel mountpoint.mountpoint path = some relPath) :
    (FsCall.openFile stack path).Finds fuel vfs ↔
      isAlreadyOpen vfs relPath ≠ none ∨
        tarFileLookup vfs.space relPath vfs.tarFsStartAddress stack.tarFilename fuel ≠
          some 0#64 := by
  constructor
  · rintro ⟨device, path', mounted', relative', found⟩
    rw [mounted, Option.some.injEq] at mounted'
    subst mounted'
    rw [relative, Option.some.injEq] at relative'
    subst relative'
    exact found
  · intro found
    exact ⟨mountpoint, relPath, mounted, relative, found⟩

theorem FsState.UstarOpened.changes_files
    (opened : UstarOpened hhdm tarFilename fuel state path id after) (found : id ≠ -1) :
    after.vfs.openFiles ≠ state.vfs.openFiles := by
  intro same
  cases opened with
  | @reopened slot already =>
      obtain ⟨-, file, fileEq, -⟩ := isAlreadyOpen_eq_some already
      have row := congrFun same slot
      simp only [setFile, Function.update_self, fileEq, Option.map_some, Option.some.injEq] at row
      have references := congrArg UstarFile.references row
      exact absurd references (by simp)
  | missing => exact found rfl
  | full => exact found rfl
  | @opened header ptr middle slot notOpen lookup nonNull taken entry =>
      have row := congrFun same slot
      rw [(findOpenId_eq_some entry).2] at row
      simp [setFile] at row

/-- `ustar_open` fails on a file that is missing, or after it has taken a block
for one that it has found. -/
theorem FsState.UstarOpened.of_failed
    (opened : UstarOpened hhdm tarFilename fuel state path id after) (failed : id = -1) :
    (isAlreadyOpen state.vfs path = none ∧
      tarFileLookup state.vfs.space path state.vfs.tarFsStartAddress tarFilename fuel =
        some 0#64 ∧ after = state) ∨
    (tarFileLookup state.vfs.space path state.vfs.tarFsStartAddress tarFilename fuel ≠
        some 0#64 ∧
      ∃ ptr, Yields (kalloc hhdm fuel state sizeofUstarFile) (ptr, after)) := by
  cases opened with
  | reopened already => omega
  | missing notOpen lookup => exact .inl ⟨notOpen, lookup, rfl⟩
  | full notOpen lookup nonNull taken noEntry =>
      refine .inr ⟨?_, _, taken⟩
      rw [lookup]
      exact fun isNull => nonNull (Option.some.inj isNull)
  | opened notOpen lookup nonNull taken entry => omega

end Opens

/-- An open that fails leaves everything as it was exactly if the file is neither
open nor in the archive. -/
theorem failed_open_unchanged_iff {hhdm : Word} {layout : KernelLayout} {initial : MmState Pmm}
    {start : KernelState Pmm} {history : HeapHistory} (covered : initial.frames.Covered hhdm)
    (booted : vmmInit hhdm pmmSource layout initial = .ok start)
    (run : Relation.ReflTransGen (MemoryStep hhdm) ⟨start, [], []⟩ history)
    {state after : FsState} (heap : state.kernel = history.kernel) {stack : StackBytes}
    {fuel : Nat} {path : Stream}
    (returned : Yields (state.vfsOpen hhdm stack fuel path) (-1, after)) :
    state.SameResources hhdm after ↔ ¬ (FsCall.openFile stack path).Finds fuel state.vfs := by
  obtain ⟨result, failed⟩ : ∃ result : Int, result = -1 := ⟨_, rfl⟩
  rw [← failed] at returned
  have unchanged : state.SameResources hhdm state := ⟨rfl, rfl, rfl, fun _ _ _ => Iff.rfl⟩
  cases FsState.vfsOpen_opened returned with
  | unmounted noMount =>
      refine iff_of_true unchanged ?_
      rintro ⟨mountpoint, relPath, mounted, -⟩
      rw [noMount] at mounted
      cases mounted
  | failed mounted isUstar relative opening =>
      rw [FsCall.finds_openFile mounted relative]
      rcases (FsState.ustarOpen_opened opening).of_failed rfl with
        ⟨notOpen, missing, rfl⟩ | ⟨found, ptr, taken⟩
      · exact iff_of_true unchanged (by simp [notOpen, missing])
      · refine iff_of_false ?_ (not_not_intro (.inr found))
        intro same
        obtain ⟨height, kernel, others, arenas, standing⟩ :=
          HeapHistory.standing_of_run covered booted run
        obtain ⟨mm, call, rfl⟩ := FsState.kalloc_returns.mp taken
        rw [heap] at call
        have pages := same.pages
        rw [heap] at pages
        exact standing.alloc_marks call pages
  | full mounted isUstar relative opening found noSlot =>
      have opened := FsState.ustarOpen_opened opening
      refine iff_of_false (fun same => opened.changes_files found same.files) ?_
      rw [FsCall.finds_openFile mounted relative]
      apply not_not_intro
      cases opened with
      | reopened already => exact .inl (by simp [already])
      | missing => exact absurd rfl found
      | full => exact absurd rfl found
      | opened notOpen lookup nonNull =>
          refine .inr ?_
          rw [lookup]
          exact fun isNull => nonNull (Option.some.inj isNull)
  | opened => omega

theorem failed_open_unchanged_iff_machine : ∃ booted after,
    Yields (FsState.vfsOpen machineHhdm ⟨fun _ => 0#8, fun _ => 0#8⟩ 3
      ⟨emptyVfs, booted, fun _ => 0#64⟩ (stringStream [0x2f#8, 0x61#8])) (-1, after) ∧
    FsState.SameResources machineHhdm ⟨emptyVfs, booted, fun _ => 0#64⟩ after := by
  obtain ⟨pmm, -, -, booted, -, -, covered, returned, -⟩ := machine_boots
  have failed := empty_open_fails booted fun _ => 0#64
  exact ⟨booted, _, failed,
    (failed_open_unchanged_iff covered returned .refl rfl failed).mpr empty_findsNothing⟩

theorem closedVfs_noSlot (same : vfs.vfsOpenedFiles = (closedVfs 512).vfsOpenedFiles) :
    findFreeSlot vfs = none := by
  rw [findFreeSlot, List.find?_eq_none]
  intro i inTable
  have below : i < 512 := List.mem_range.mp inTable
  rw [same, closedVfs_fsFileId, if_pos below]
  decide

/-- Once the file `a` has been opened and closed 512 times no descriptor is left.
Opening it then fails, and leaves it open. -/
theorem failed_open_keeps_file : ∃ pmm booted after,
    Relation.ReflTransGen SlotHistory.Step ⟨twoFilesVfs, ∅, 0⟩ ⟨closedVfs 512, ∅, 512⟩ ∧
    pmmInit machineMap machineHhdm (fun _ => 0#8) 4 = some (.ok pmm) ∧
    vmmInit machineHhdm pmmSource machineLayout ⟨pmm, fun _ => 0#8⟩ = .ok booted ∧
    Yields (FsState.vfsOpen machineHhdm ⟨fun _ => 0#8, fun _ => 0#8⟩ 5
      ⟨closedVfs 512, booted, fun _ => 0#64⟩ (stringStream [0x2f#8, 0x61#8])) (-1, after) ∧
    (closedVfs 512).openFiles 0 = none ∧ after.vfs.openFiles 0 ≠ none ∧
    ¬ SameUsedPages machineHhdm booted after.kernel := by
  obtain ⟨pmm, booted, height, kernel, boots, -, returned, owned, enough⟩ :=
    machine_owned fun _ => True
  obtain ⟨arena, -, mm, call, -⟩ :=
    @HeapHistory.Owned.alloc_ok _ _ _ _ _ _ _ _ owned FsState.sizeofUstarFile trivial (by decide)
      (by dsimp only; omega) 4
  have opening : FsState.UstarOpened machineHhdm (fun _ => 0#8) 5
      ⟨closedVfs 512, booted, fun _ => 0#64⟩ (advance 1 (stringStream [0x2f#8, 0x61#8]))
      (0 : Nat) _ :=
    .opened (closedVfs_notOpen 512) (twoFiles_found 0) (by decide)
      (FsState.kalloc_returns.mpr ⟨mm, call, rfl⟩) (closedVfs_id 512)
  refine ⟨pmm, booted, _, closedVfs_run (by decide), boots, returned, FsState.VfsOpened.yields
    (.full (closedVfs_device 512) rfl letterPath_relPath opening.yields (by decide)
      (closedVfs_noSlot rfl)), rfl, ?_, owned.toStanding.alloc_marks call⟩
  simp [FsState.setFile]

end MmdOS
