import MmdOS.FileSystemHeap
import MmdOS.HeapRuns
import MmdOS.VfsReads

/-!
# Pages that the file system keeps

`vfs_open` fills a descriptor in a block that nobody frees, `ustar_open` takes a
block before it knows whether it can use it, and `ustar_read_dir` takes one for
every record of the archive.  A run of calls therefore leaves the bitmap as it
was only if none of its calls finds anything: the first one that does takes a
page for good.
-/

namespace MmdOS

open CString Outcome
open Function (update update_self update_of_ne)

variable {fd : Nat} {tarFilename path : Stream} {id : Int}

/-- The file system calls of a program, with what uninitialised memory on the
stack holds. -/
inductive FsCall
  | openFile (stack : StackBytes) (path : Stream)
  | readFile (fd : Nat) (buf nbytes : Word)
  | closeFile (fd : Nat)
  | readDir (mountpoint : Stream) (pathes : Nat → Word) (path : Stream) (buf nbytes offset : Word)

namespace FsCall

def run (hhdm : Word) (fuel : Nat) (state : FsState) : FsCall → Outcome Panic FsState
  | openFile stack path => do
      let (_, state) ← state.vfsOpen hhdm stack fuel path
      pure state
  | readFile fd buf nbytes => do
      let (_, state) ← state.vfsRead fd buf nbytes
      pure state
  | closeFile fd => do
      let (_, state) ← state.vfsClose hhdm fd
      pure state
  | readDir mountpoint pathes path buf nbytes offset => do
      let (_, state) ← state.vfsReadDir hhdm mountpoint pathes fuel path buf nbytes offset
      pure state

/-- The call finds a file that is open or in the archive, or an archive that is
not empty. -/
def Finds (fuel : Nat) (state : VfsState) : FsCall → Prop
  | openFile stack path => ∃ mountpoint relPath,
      vfsGetMountpoint state stack.mountpoint path = some mountpoint ∧
      getRelPath fuel mountpoint.mountpoint path = some relPath ∧
      (isAlreadyOpen state relPath ≠ none ∨
        tarFileLookup state.space relPath state.tarFsStartAddress stack.tarFilename fuel ≠
          some 0#64)
  | readFile .. => False
  | closeFile _ => False
  | readDir mountpoint _ path .. =>
      vfsGetMountpoint state mountpoint path ≠ none ∧
        tarFilePrefixLookup state.space state.tarFsStartAddress 0#64 ≠ 0#64

end FsCall

section Runs

variable (hhdm : Word) (fuel : Nat)

def runCalls : List FsCall → FsState → Outcome Panic FsState
  | [], state => pure state
  | call :: calls, state => do
      let state ← call.run hhdm fuel state
      runCalls calls state

def NoneFinds : List FsCall → FsState → Prop
  | [], _ => True
  | call :: calls, state => ¬ call.Finds fuel state.vfs ∧
      ∀ next, Yields (call.run hhdm fuel state) next → NoneFinds calls next

/-- The same pages are marked in the bitmap, apart from page tables. -/
def SameUsedPages (before after : KernelState Pmm) : Prop :=
  ∀ page < after.mm.frames.bitmapTopIndex, page ∉ tableFrames hhdm after.mm after.vmmKernel →
    (¬ after.mm.frames.Free page ↔ ¬ before.mm.frames.Free page)

end Runs

structure FsState.Quiet (state : FsState) : Prop where
  noneOpen : ∀ id, state.vfs.openFiles id = none
  unused : ∀ fd, (state.vfs.vfsOpenedFiles fd).fsFileId = 0#64

section Quiet

variable {hhdm : Word} {fuel : Nat} {state after : FsState}
variable {vfs : VfsState}

theorem isAlreadyOpen_of_noneOpen (noneOpen : ∀ id, vfs.openFiles id = none) (path : Stream) :
    isAlreadyOpen vfs path = none := by
  rw [isAlreadyOpen, List.find?_eq_none]
  intro i _
  rw [noneOpen i]
  exact Bool.false_ne_true

theorem FsState.Quiet.isAlreadyOpen_eq (quiet : state.Quiet) (path : Stream) :
    isAlreadyOpen state.vfs path = none :=
  isAlreadyOpen_of_noneOpen quiet.noneOpen path

theorem FsState.Quiet.findFreeSlot_eq (quiet : state.Quiet) : findFreeSlot state.vfs = some 0 :=
  find?_range_of_first (by decide) (decide_eq_true (quiet.unused 0)) (by omega)

theorem vfsRead_fsFileId {vfs' : VfsState} {buf nbytes count : Word}
    (returned : vfsRead vfs fd buf nbytes = some (count, vfs')) (other : Nat) :
    (vfs'.vfsOpenedFiles other).fsFileId = (vfs.vfsOpenedFiles other).fsFileId := by
  unfold vfsRead at returned
  dsimp only at returned
  split at returned
  · rw [Option.some.injEq, Prod.mk.injEq] at returned
    rw [← returned.2]
  · obtain ⟨mountpoint, -, returned⟩ := Option.bind_eq_some_iff.mp returned
    obtain ⟨⟨bytesRead, space⟩, -, returned⟩ := Option.bind_eq_some_iff.mp returned
    dsimp only at returned
    split at returned
    · rw [Option.some.injEq, Prod.mk.injEq] at returned
      rw [← returned.2]
    · rw [Option.some.injEq, Prod.mk.injEq] at returned
      rw [← returned.2]
      dsimp only
      by_cases same : other = fd
      · rw [same, update_self]
      · rw [update_of_ne same]

theorem FsState.Quiet.ustarOpen_missing (quiet : state.Quiet)
    (opening : Yields (FsState.ustarOpen hhdm tarFilename fuel state path) (id, after))
    (missing : tarFileLookup state.vfs.space path state.vfs.tarFsStartAddress tarFilename fuel =
      some 0#64) : id = -1 ∧ after = state := by
  cases FsState.ustarOpen_opened opening with
  | reopened already =>
      rw [quiet.isAlreadyOpen_eq] at already
      cases already
  | missing => exact ⟨rfl, rfl⟩
  | full _ lookup nonNull =>
      rw [missing, Option.some.injEq] at lookup
      exact absurd lookup.symm nonNull
  | opened _ lookup nonNull =>
      rw [missing, Option.some.injEq] at lookup
      exact absurd lookup.symm nonNull

/-- Before anything has been found, a call that finds nothing changes nothing
but the caller's memory. -/
theorem FsState.Quiet.call (quiet : state.Quiet) {call : FsCall}
    (returned : Yields (call.run hhdm fuel state) after)
    (findsNothing : ¬ call.Finds fuel state.vfs) :
    after.Quiet ∧ after.kernel = state.kernel := by
  cases call with
  | openFile stack path =>
      obtain ⟨result, returned⟩ := yields_snd.mp returned
      have missing : ∀ {mountpoint relPath id middle},
          vfsGetMountpoint state.vfs stack.mountpoint path = some mountpoint →
          getRelPath fuel mountpoint.mountpoint path = some relPath →
          Yields (FsState.ustarOpen hhdm stack.tarFilename fuel state relPath) (id, middle) →
          id = -1 ∧ middle = state := by
        intro mountpoint relPath id middle mounted relative opening
        apply quiet.ustarOpen_missing opening
        by_contra found
        exact findsNothing ⟨mountpoint, relPath, mounted, relative, .inr found⟩
      cases FsState.vfsOpen_opened returned with
      | unmounted => exact ⟨quiet, rfl⟩
      | failed mounted _ relative opening =>
          rw [(missing mounted relative opening).2]
          exact ⟨quiet, rfl⟩
      | full mounted _ relative opening found =>
          exact absurd (missing mounted relative opening).1 found
      | opened mounted _ relative opening found =>
          exact absurd (missing mounted relative opening).1 found
  | readFile fd buf nbytes =>
      obtain ⟨count, returned⟩ := yields_snd.mp returned
      obtain ⟨call, afterEq⟩ := FsState.vfsRead_returns.mp returned
      have tables := (vfsRead_frame call).1
      refine ⟨⟨fun id => ?_, fun other => ?_⟩, by rw [afterEq]⟩
      · rw [tables]
        exact quiet.noneOpen id
      · rw [vfsRead_fsFileId call]
        exact quiet.unused other
  | closeFile fd =>
      obtain ⟨result, returned⟩ := yields_snd.mp returned
      rcases FsState.vfsClose_returns returned with ⟨-, -, rfl⟩ | ⟨-, -, _, _, -, -, closing, -⟩
      · exact ⟨quiet, rfl⟩
      · obtain ⟨file, fileEq, -⟩ := FsState.ustarClose_returns closing
        rw [quiet.noneOpen] at fileEq
        cases fileEq
  | readDir mountpoint pathes path buf nbytes offset =>
      obtain ⟨count, returned⟩ := yields_snd.mp returned
      rcases FsState.vfsReadDir_returns returned with ⟨-, rfl⟩ |
        ⟨mounted, relPath, listing, middle, space, listed, rfl⟩
      · exact ⟨quiet, rfl⟩
      · cases fuel with
        | zero => cases listed
        | succ rounds =>
            rcases FsState.listEntries_returns listed with ⟨-, rfl⟩ | ⟨more, -⟩
            · exact ⟨⟨quiet.noneOpen, quiet.unused⟩, rfl⟩
            · exact absurd ⟨mounted, more⟩ findsNothing

theorem FsState.Quiet.calls {calls : List FsCall} (quiet : state.Quiet)
    (returned : Yields (runCalls hhdm fuel calls state) after)
    (noneFinds : NoneFinds hhdm fuel calls state) : after.kernel = state.kernel := by
  induction calls generalizing state with
  | nil =>
      rw [runCalls, yields_pure] at returned
      rw [returned]
  | cons call calls ih =>
      rw [runCalls, yields_bind] at returned
      obtain ⟨next, first, rest⟩ := returned
      obtain ⟨quietNext, kernelEq⟩ := quiet.call first noneFinds.1
      rw [ih quietNext rest (noneFinds.2 next first), kernelEq]

end Quiet

/-- The first page of an arena is marked; if it was free before, the used pages
are not the same. -/
theorem ArenaAt.page_marked {hhdm : Word} {top : Nat} {height : Nat → Option Nat} {kernel : Space}
    {before after : KernelState Pmm} {arena : Arena}
    (arenaAt : ArenaAt hhdm top height after.mm arena)
    (ready : KernelReady (heapSpec hhdm top) kernel height after.mm)
    (kernelEq : after.vmmKernel = kernel.vmm hhdm)
    (topEq : before.mm.frames.bitmapTopIndex = top)
    (wasFree : arena.start ∈ before.mm.frames.freeSet) : ¬ SameUsedPages hhdm before after := by
  have inside := Arena.start_mem arenaAt.positive
  obtain ⟨wasBelow, unmarked⟩ := Pmm.mem_freeSet.mp wasFree
  have below : arena.start < after.mm.frames.bitmapTopIndex := by
    rwa [ready.tables.valid.2, ← topEq]
  have notTable : arena.start ∉ tableFrames hhdm after.mm after.vmmKernel := by
    intro isTable
    rw [kernelEq] at isTable
    obtain ⟨h, heightEq, -⟩ := ready.table_height isTable
    rw [arenaAt.blank _ inside] at heightEq
    cases heightEq
  have marked : ¬ after.mm.frames.Free arena.start :=
    fun free => arenaAt.used _ inside (Pmm.mem_freeSet.mpr ⟨below, free⟩)
  intro same
  exact (same _ below notTable).mp marked unmarked

structure HeapBase where
  initial : Pmm
  height : Nat → Option Nat
  kernel : Space
  others : List Space
  arenas : List Arena
  spaces : List Word

section Accounts

variable {hhdm : Word} {base : HeapBase} {height : Nat → Option Nat} {files : List (Nat × Arena)}
variable {leaked : List Arena} {state after : FsState} {fuel : Nat} {size ptr : Word}

variable (hhdm base) in
/-- The arenas are those of the files that are open, those that nobody can free
any more, and those from before. -/
structure FsState.Accounted (height : Nat → Option Nat) (files : List (Nat × Arena))
    (leaked : List Arena) (state : FsState) : Prop where
  owned : HeapHistory.Owned hhdm (fun _ => True) base.initial height base.kernel base.others
    (files.map Prod.snd ++ (leaked ++ base.arenas))
    ⟨state.kernel, (files.map Prod.snd ++ (leaked ++ base.arenas)).map (Arena.block hhdm),
      base.spaces⟩
  keeps : ∀ page h, base.height page = some h → height page = some h
  keys_nodup : (files.map Prod.fst).Nodup
  open_iff : ∀ id, state.vfs.openFiles id ≠ none ↔ id ∈ files.map Prod.fst
  pointer : ∀ file ∈ files, state.openFilePtrs file.1 = file.2.ptr hhdm

namespace FsState.Accounted

variable (accounted : Accounted hhdm base height files leaked state)
variable {result : Int}
include accounted

theorem frame (kernelEq : after.kernel = state.kernel)
    (filesEq : ∀ id, after.vfs.openFiles id ≠ none ↔ state.vfs.openFiles id ≠ none)
    (pointersEq : after.openFilePtrs = state.openFilePtrs) :
    Accounted hhdm base height files leaked after where
  owned := by
    rw [kernelEq]
    exact accounted.owned
  keeps := accounted.keeps
  keys_nodup := accounted.keys_nodup
  open_iff := fun id => (filesEq id).trans (accounted.open_iff id)
  pointer := by
    rw [pointersEq]
    exact accounted.pointer

theorem kalloc (taken : Yields (state.kalloc hhdm fuel size) (ptr, after)) :
    ∃ arena height', ptr = arena.ptr hhdm ∧
      (∀ page h, base.height page = some h → height' page = some h) ∧
      HeapHistory.Owned hhdm (fun _ => True) base.initial height' base.kernel base.others
        (arena :: (files.map Prod.snd ++ (leaked ++ base.arenas)))
        ⟨after.kernel, (arena :: (files.map Prod.snd ++ (leaked ++ base.arenas))).map
          (Arena.block hhdm), base.spaces⟩ ∧
      after = { state with kernel := after.kernel } := by
  obtain ⟨mm, call, rfl⟩ := kalloc_returns.mp taken
  obtain ⟨arena, height', blockEq, keeps, owned, -⟩ :=
    accounted.owned.alloc_returned trivial call
  refine ⟨arena, height', (congrArg HeapBlock.ptr blockEq).symm, ?_, owned, rfl⟩
  intro page h was
  exact keeps page h (accounted.keeps page h was)

theorem leak (taken : Yields (state.kalloc hhdm fuel size) (ptr, after)) :
    ∃ arena height', Accounted hhdm base height' files (arena :: leaked) after := by
  obtain ⟨arena, height', -, keeps, owned, afterEq⟩ := accounted.kalloc taken
  refine ⟨arena, height', owned.perm List.perm_middle.symm, keeps, accounted.keys_nodup, ?_, ?_⟩
  · rw [afterEq]
    exact accounted.open_iff
  · rw [afterEq]
    exact accounted.pointer

theorem opened {slot : Nat} (isFree : state.vfs.openFiles slot = none)
    (taken : Yields (state.kalloc hhdm fuel size) (ptr, after)) (file : UstarFile) :
    ∃ arena height', Accounted hhdm base height' ((slot, arena) :: files) leaked
      { after.setFile slot (some file) with
        openFilePtrs := update state.openFilePtrs slot ptr } := by
  obtain ⟨arena, height', ptrEq, keeps, owned, afterEq⟩ := accounted.kalloc taken
  have fresh : slot ∉ files.map Prod.fst := by
    rw [← accounted.open_iff]
    exact fun isOpen => isOpen isFree
  refine ⟨arena, height', owned, keeps,
    List.nodup_cons.mpr ⟨fresh, accounted.keys_nodup⟩, ?_, ?_⟩
  · intro id
    rw [afterEq]
    by_cases same : id = slot
    · simp [setFile, same]
    · simp only [setFile, update_of_ne same, List.map_cons, List.mem_cons, same,
        false_or]
      exact accounted.open_iff id
  · intro entry member
    dsimp only
    rcases List.mem_cons.mp member with rfl | old
    · rw [update_self, ptrEq]
    · have different : entry.1 ≠ slot :=
        fun same => fresh (same ▸ List.mem_map_of_mem old)
      rw [update_of_ne different]
      exact accounted.pointer entry old

theorem closed {slot : Nat} {mm : MmState Pmm} (isOpen : state.vfs.openFiles slot ≠ none)
    (freed : kFree hhdm state.kernel.mm state.kernel.vmmKernel (state.openFilePtrs slot) =
      .ok mm) :
    ∃ rest, Accounted hhdm base height rest leaked
      { state.setFile slot none with kernel := { state.kernel with mm } } := by
  obtain ⟨⟨id, arena⟩, member, rfl⟩ := List.mem_map.mp ((accounted.open_iff slot).mp isOpen)
  dsimp only at isOpen freed
  obtain ⟨front, back, rfl⟩ := List.append_of_mem member
  have filePerm : (front ++ (id, arena) :: back).Perm ((id, arena) :: (front ++ back)) :=
    List.perm_middle
  have perm : ((front ++ (id, arena) :: back).map Prod.snd ++ (leaked ++ base.arenas)).Perm
      (arena :: ((front ++ back).map Prod.snd ++ (leaked ++ base.arenas))) :=
    (filePerm.map Prod.snd).append_right _
  have keys : id ∉ (front ++ back).map Prod.fst ∧ ((front ++ back).map Prod.fst).Nodup :=
    List.nodup_cons.mp ((filePerm.map Prod.fst).nodup_iff.mp accounted.keys_nodup)
  obtain ⟨mm', call, released, -⟩ :=
    accounted.owned.toStanding.free_arena (perm.mem_iff.mpr List.mem_cons_self)
  have pointer : state.openFilePtrs id = arena.ptr hhdm := accounted.pointer _ member
  rw [pointer, call] at freed
  cases freed
  refine ⟨front ++ back, (accounted.owned.free perm released).perm (List.Perm.refl _),
    accounted.keeps, keys.2, ?_, ?_⟩
  · intro other
    by_cases same : other = id
    · rw [same]
      simp only [setFile, update_self, ne_eq, not_true_eq_false, false_iff]
      exact keys.1
    · have inFiles := accounted.open_iff other
      simp only [(filePerm.map Prod.fst).mem_iff, List.map_cons, List.mem_cons, same,
        false_or] at inFiles
      simp only [setFile, update_of_ne same]
      exact inFiles
  · intro entry inRest
    exact accounted.pointer entry (filePerm.mem_iff.mpr (List.mem_cons_of_mem _ inRest))

theorem ustarOpen (opening : Yields (state.ustarOpen hhdm tarFilename fuel path) (id, after)) :
    ∃ height' files' leaked',
      Accounted hhdm base height' files' leaked' after ∧
      leaked ⊆ leaked' ∧
      (state.Quiet → id = -1 → tarFileLookup state.vfs.space path state.vfs.tarFsStartAddress
        tarFilename fuel ≠ some 0#64 → leaked' ≠ []) := by
  cases ustarOpen_opened opening with
  | @reopened slot already =>
      refine ⟨height, files, leaked, accounted.frame rfl ?_ rfl, List.Subset.refl _, ?_⟩
      · intro id
        by_cases same : id = slot
        · rw [same]
          simp [setFile]
        · simp only [setFile, update_of_ne same]
      · intro quiet
        rw [quiet.isAlreadyOpen_eq] at already
        cases already
  | missing notOpen lookup =>
      exact ⟨height, files, leaked, accounted, List.Subset.refl _,
        fun _ _ found => absurd lookup found⟩
  | full notOpen lookup nonNull taken noEntry =>
      obtain ⟨arena, height', leaking⟩ := accounted.leak taken
      exact ⟨height', files, arena :: leaked, leaking, List.subset_cons_self _ _,
        fun _ _ _ => List.cons_ne_nil _ _⟩
  | @opened header ptr middle slot notOpen lookup nonNull taken entry =>
      obtain ⟨arena, height', opening⟩ :=
        accounted.opened (findOpenId_eq_some entry).2 taken
          ⟨header, 1#16, octAsciiToDec (headerFileSize state.vfs.space header) 12#16⟩
      refine ⟨height', (slot, arena) :: files, leaked, opening, List.Subset.refl _, ?_⟩
      intro _ failed
      omega

theorem vfsOpen {stack : StackBytes}
    (returned : Yields (state.vfsOpen hhdm stack fuel path) (result, after)) :
    ∃ height' files' leaked',
      Accounted hhdm base height' files' leaked' after ∧
      leaked ⊆ leaked' ∧
      (state.Quiet → (FsCall.openFile stack path).Finds fuel state.vfs → leaked' ≠ []) := by
  cases vfsOpen_opened returned with
  | unmounted noMount =>
      refine ⟨height, files, leaked, accounted, List.Subset.refl _, ?_⟩
      rintro - ⟨mountpoint, relPath, mounted, -⟩
      rw [noMount] at mounted
      cases mounted
  | @failed device rel _ mounted isUstar relative opening =>
      obtain ⟨height', files', leaked', accounted', subset, finds⟩ := accounted.ustarOpen opening
      refine ⟨height', files', leaked', accounted', subset, ?_⟩
      rintro quiet ⟨mountpoint, relPath, mounted', relative', found⟩
      rw [mounted, Option.some.injEq] at mounted'
      subst mounted'
      rw [relative, Option.some.injEq] at relative'
      subst relative'
      rcases found with already | found
      · exact absurd (quiet.isAlreadyOpen_eq rel) already
      · exact finds quiet rfl found
  | full mounted isUstar relative opening found noSlot =>
      obtain ⟨height', files', leaked', accounted', subset, -⟩ := accounted.ustarOpen opening
      refine ⟨height', files', leaked', accounted', subset, ?_⟩
      -- the table of descriptors is full only after calls that have succeeded
      intro quiet
      have sameSlots := FsOperations.openFile_table (openFile_erased isUstar opening)
      rw [findFreeSlot, sameSlots] at noSlot
      have firstSlot := quiet.findFreeSlot_eq
      rw [findFreeSlot, noSlot] at firstSlot
      cases firstSlot
  | opened mounted isUstar relative opening found slot taken size =>
      obtain ⟨height₁, files', leaked₁, accounted₁, subset, -⟩ := accounted.ustarOpen opening
      obtain ⟨arena, height₂, accounted₂⟩ := accounted₁.leak taken
      obtain ⟨mm, -, afterEq⟩ := kalloc_returns.mp taken
      refine ⟨height₂, files', arena :: leaked₁, accounted₂.frame rfl ?_ rfl, ?_, ?_⟩
      · intro id
        rw [afterEq]
      · exact List.subset_cons_of_subset _ subset
      · exact fun _ _ => List.cons_ne_nil _ _

theorem vfsClose (returned : Yields (state.vfsClose hhdm fd) (result, after)) :
    ∃ files', Accounted hhdm base height files' leaked after := by
  rcases vfsClose_returns returned with ⟨-, -, rfl⟩ |
    ⟨-, -, mountpoint, middle, -, -, closing, rfl⟩
  · exact ⟨files, accounted⟩
  · obtain ⟨file, fileEq, -, ⟨-, rfl⟩ | ⟨-, mm, freed, rfl⟩⟩ := ustarClose_returns closing
    · refine ⟨files, accounted.frame rfl ?_ rfl⟩
      intro id
      by_cases same : id = (state.vfs.vfsOpenedFiles fd).fsFileId.toNat
      · rw [same, fileEq]
        simp [setFile]
      · simp only [setFile, update_of_ne same]
    · have isOpen : state.vfs.openFiles (state.vfs.vfsOpenedFiles fd).fsFileId.toNat ≠ none := by
        rw [fileEq]
        exact Option.some_ne_none file
      obtain ⟨rest, closed⟩ := accounted.closed isOpen freed
      exact ⟨rest, closed.frame rfl (fun _ => Iff.rfl) rfl⟩

theorem listEntries {rounds : Nat} {dir : Stream} {header : Word} {listing result : Listing}
    (returned : Yields (state.listEntries hhdm fuel dir rounds header listing) (result, after)) :
    ∃ height' leaked',
      Accounted hhdm base height' files leaked' after ∧
      leaked ⊆ leaked' ∧
      (tarFilePrefixLookup state.vfs.space state.vfs.tarFsStartAddress header ≠ 0#64 →
        leaked' ≠ []) := by
  induction rounds generalizing height leaked state header listing with
  | zero => cases returned
  | succ rounds ih =>
      rcases listEntries_returns returned with ⟨atEnd, rfl⟩ |
        ⟨more, ptr, middle, space, next, listed, taken, rest⟩
      · exact ⟨height, leaked, accounted, List.Subset.refl _, fun found => absurd atEnd found⟩
      · obtain ⟨arena, height₁, accounted₁⟩ := accounted.leak taken
        have written : Accounted hhdm base height₁ files (arena :: leaked)
            { middle with vfs := { middle.vfs with space } } :=
          accounted₁.frame rfl (fun _ => Iff.rfl) rfl
        obtain ⟨height₂, leaked', accounted₂, subset, -⟩ := ih written rest
        refine ⟨height₂, leaked', accounted₂, List.subset_of_cons_subset subset, ?_⟩
        exact fun _ => List.ne_nil_of_mem (subset List.mem_cons_self)

theorem call {call : FsCall} (returned : Yields (call.run hhdm fuel state) after) :
    ∃ height' files' leaked',
      Accounted hhdm base height' files' leaked' after ∧
      leaked ⊆ leaked' ∧ (state.Quiet → call.Finds fuel state.vfs → leaked' ≠ []) := by
  cases call with
  | openFile stack path =>
      obtain ⟨result, returned⟩ := yields_snd.mp returned
      exact accounted.vfsOpen returned
  | readFile fd buf nbytes =>
      obtain ⟨count, returned⟩ := yields_snd.mp returned
      obtain ⟨call, afterEq⟩ := vfsRead_returns.mp returned
      have tables := (vfsRead_frame call).1
      refine ⟨height, files, leaked, accounted.frame (by rw [afterEq]) ?_ (by rw [afterEq]),
        List.Subset.refl _, fun _ => False.elim⟩
      intro id
      rw [tables]
  | closeFile fd =>
      obtain ⟨result, returned⟩ := yields_snd.mp returned
      obtain ⟨files', closed⟩ := accounted.vfsClose returned
      exact ⟨height, files', leaked, closed, List.Subset.refl _, fun _ => False.elim⟩
  | readDir mountpoint pathes path buf nbytes offset =>
      obtain ⟨count, returned⟩ := yields_snd.mp returned
      rcases vfsReadDir_returns returned with ⟨noMount, rfl⟩ |
        ⟨mounted, relPath, listing, middle, space, listed, rfl⟩
      · exact ⟨height, files, leaked, accounted, List.Subset.refl _,
          fun _ finds => absurd noMount finds.1⟩
      · obtain ⟨height', leaked', accounted', subset, found⟩ := accounted.listEntries listed
        exact ⟨height', files, leaked', accounted'.frame rfl (fun _ => Iff.rfl) rfl, subset,
          fun _ finds => found finds.2⟩

theorem calls {calls : List FsCall} (returned : Yields (runCalls hhdm fuel calls state) after) :
    ∃ height' files' leaked',
      Accounted hhdm base height' files' leaked' after ∧
      leaked ⊆ leaked' := by
  induction calls generalizing height files leaked state with
  | nil =>
      rw [runCalls, yields_pure] at returned
      rw [← returned]
      exact ⟨height, files, leaked, accounted, List.Subset.refl _⟩
  | cons call calls ih =>
      rw [runCalls, yields_bind] at returned
      obtain ⟨next, first, rest⟩ := returned
      obtain ⟨height₁, files₁, leaked₁, accounted₁, subset₁, -⟩ := accounted.call first
      obtain ⟨height₂, files₂, leaked₂, accounted₂, subset₂⟩ := ih accounted₁ rest
      exact ⟨height₂, files₂, leaked₂, accounted₂, List.Subset.trans subset₁ subset₂⟩

/-- The first call that finds something leaks a block. -/
theorem calls_finds {calls : List FsCall} (quiet : state.Quiet)
    (returned : Yields (runCalls hhdm fuel calls state) after)
    (someFinds : ¬ NoneFinds hhdm fuel calls state) :
    ∃ height' files' leaked',
      Accounted hhdm base height' files' leaked' after ∧
      leaked' ≠ [] := by
  induction calls generalizing height files leaked state with
  | nil => exact absurd trivial someFinds
  | cons call calls ih =>
      rw [runCalls, yields_bind] at returned
      obtain ⟨next, first, rest⟩ := returned
      obtain ⟨height₁, files₁, leaked₁, accounted₁, -, leaks⟩ := accounted.call first
      by_cases finds : call.Finds fuel state.vfs
      · obtain ⟨arena, member⟩ := List.exists_mem_of_ne_nil _ (leaks quiet finds)
        obtain ⟨height₂, files₂, leaked₂, accounted₂, subset⟩ := accounted₁.calls rest
        exact ⟨height₂, files₂, leaked₂, accounted₂, List.ne_nil_of_mem (subset member)⟩
      · apply ih accounted₁ (quiet.call first finds).1 rest
        intro noneFinds
        refine someFinds ⟨finds, ?_⟩
        intro other again
        rw [← first.unique again]
        exact noneFinds

/-- A page of a leaked block was free before and is marked now. -/
theorem leaked_page {start : KernelState Pmm}
    (owned : HeapHistory.Owned hhdm (fun _ => True) base.initial base.height base.kernel base.others
      base.arenas ⟨start, base.arenas.map (Arena.block hhdm), base.spaces⟩)
    {arena : Arena} (member : arena ∈ leaked) : ¬ SameUsedPages hhdm start state.kernel := by
  have inArenas : arena ∈ files.map Prod.snd ++ (leaked ++ base.arenas) := by
    simp [member]
  have arenaAt := accounted.owned.arena_at arena inArenas
  have inside := Arena.start_mem arenaAt.positive
  have apartBase : ∀ other ∈ base.arenas, arena.start ∉ other.pages := by
    intro other inBase inOther
    have disjoint := (List.pairwise_append.mp
      (List.pairwise_append.mp accounted.owned.disjoint).2.1).2.2 arena member other inBase
    exact Set.disjoint_left.mp disjoint inside inOther
  have wasFree : arena.start ∈ start.mm.frames.freeSet := by
    refine (owned.free_iff _).mpr ⟨accounted.owned.origin arena inArenas _ inside,
      blank_before (accounted.keeps _) (arenaAt.blank _ inside), ?_, apartBase⟩
    rintro space inOthers same
    exact accounted.owned.apart arena inArenas space (List.mem_cons_of_mem base.kernel inOthers)
      (same ▸ inside)
  exact arenaAt.page_marked accounted.owned.forked.ready accounted.owned.forked.kernel_eq
    owned.forked.ready.tables.valid.2 wasFree

end FsState.Accounted

end Accounts

section Start

variable {hhdm : Word} {layout : KernelLayout} {state : MmState Pmm} {booted : KernelState Pmm}
variable {heap : HeapHistory} {space : ByteSpace} {moduleAddress : Word} {block : Stream}
variable {pointers : Nat → Word} {fuel : Nat} {calls : List FsCall} {final : FsState}

theorem vfsInit_quiet (space : ByteSpace) (moduleAddress : Word) (block : Stream)
    (kernel : KernelState Pmm) (pointers : Nat → Word) :
    FsState.Quiet ⟨vfsInit space moduleAddress block, kernel, pointers⟩ :=
  ⟨fun _ => rfl, fun _ => rfl⟩

theorem used_pages_differ (covered : state.frames.Covered hhdm)
    (returned : vmmInit hhdm pmmSource layout state = .ok booted)
    (run : Relation.ReflTransGen (HeapStep hhdm fun _ => True) ⟨booted, [], []⟩ heap)
    (called : Yields (runCalls hhdm fuel calls
      ⟨vfsInit space moduleAddress block, heap.kernel, pointers⟩) final)
    (someFinds : ¬ NoneFinds hhdm fuel calls
      ⟨vfsInit space moduleAddress block, heap.kernel, pointers⟩) :
    ¬ SameUsedPages hhdm heap.kernel final.kernel := by
  obtain ⟨before, kernel, others, arenas, owned⟩ := HeapHistory.owned_of_run covered returned run
  have start := owned.perm (List.Perm.refl arenas)
  have accounted : FsState.Accounted hhdm
      ⟨booted.mm.frames, before, kernel, others, arenas, heap.spaces⟩ before [] []
      ⟨vfsInit space moduleAddress block, heap.kernel, pointers⟩ :=
    ⟨start, fun _ _ was => was, List.nodup_nil, fun id => by simp [vfsInit, vfsMount], by simp⟩
  obtain ⟨height, files, leaked, atEnd, nonempty⟩ :=
    accounted.calls_finds (vfsInit_quiet _ _ _ _ _) called someFinds
  obtain ⟨arena, member⟩ := List.exists_mem_of_ne_nil _ nonempty
  exact atEnd.leaked_page start member

/-- A run of file system calls leaves the same pages marked exactly if no call
of it finds a file or a record of the archive. -/
theorem fs_calls_keep_pages_iff (covered : state.frames.Covered hhdm)
    (returned : vmmInit hhdm pmmSource layout state = .ok booted)
    (run : Relation.ReflTransGen (HeapStep hhdm fun _ => True) ⟨booted, [], []⟩ heap)
    (called : Yields (runCalls hhdm fuel calls
      ⟨vfsInit space moduleAddress block, heap.kernel, pointers⟩) final) :
    SameUsedPages hhdm heap.kernel final.kernel ↔
      NoneFinds hhdm fuel calls ⟨vfsInit space moduleAddress block, heap.kernel, pointers⟩ := by
  constructor
  · intro same
    by_contra someFinds
    exact used_pages_differ covered returned run called someFinds same
  · intro noneFinds page _ _
    rw [(vfsInit_quiet _ _ _ _ _).calls called noneFinds]

end Start

def emptyVfs : VfsState :=
  vfsInit (imageSpace 0x10000#64 (archive [])) 0x10000#64 (fun _ => 0#8)

theorem empty_loaded :
    Loaded (imageSpace 0x10000#64 (archive [])) 0x10000#64 (archive []) := by
  apply loaded_imageSpace (by decide)
  rw [archive, List.length_replicate]
  decide

theorem empty_missing :
    tarFileLookup (imageSpace 0x10000#64 (archive [])) (advance 1 (stringStream [0x2f#8, 0x61#8]))
      0x10000#64 (fun _ => 0#8) 3 = some 0#64 :=
  tarFileLookupLoop_eq empty_loaded greeting_path (fun _ => 0#8)

theorem empty_listed :
    tarFilePrefixLookup (imageSpace 0x10000#64 (archive [])) 0x10000#64 0#64 = 0#64 := by
  rw [tarFilePrefixLookup, if_pos rfl, prefixLookupLoop_two, if_pos empty_loaded.end_isZeroed]

theorem root_relPath (fuel : Nat) :
    getRelPath (fuel + 2) (kstrcpy (fun _ => 0#8) 0 (stringStream [0x2f#8]) 512)
      (stringStream [0x2f#8, 0x61#8]) = some (advance 1 (stringStream [0x2f#8, 0x61#8])) :=
  getRelPath_root rfl (by decide)

theorem empty_notOpen (path : Stream) : isAlreadyOpen emptyVfs path = none :=
  isAlreadyOpen_of_noneOpen (fun _ => rfl) path

theorem empty_open_fails (kernel : KernelState Pmm) (pointers : Nat → Word) :
    Yields (FsState.vfsOpen machineHhdm ⟨fun _ => 0#8, fun _ => 0#8⟩ 3 ⟨emptyVfs, kernel, pointers⟩
      (stringStream [0x2f#8, 0x61#8])) (-1, ⟨emptyVfs, kernel, pointers⟩) :=
  FsState.VfsOpened.yields (.failed (vfsGetMountpoint_single rfl _ _) rfl (root_relPath 1)
    (FsState.UstarOpened.yields (.missing (empty_notOpen _) empty_missing)))

theorem empty_findsNothing :
    ¬ (FsCall.openFile ⟨fun _ => 0#8, fun _ => 0#8⟩ (stringStream [0x2f#8, 0x61#8])).Finds 3
      emptyVfs := by
  rintro ⟨mountpoint, relPath, found, relative, finds⟩
  have deviceEq := Option.some.inj
    ((@vfsGetMountpoint_single emptyVfs _ rfl _ _).symm.trans found)
  subst deviceEq
  have relEq := Option.some.inj ((root_relPath 1).symm.trans relative)
  subst relEq
  rcases finds with already | inArchive
  · exact already (empty_notOpen _)
  · exact inArchive empty_missing

theorem fs_calls_keep_pages_iff_machine : ∃ booted final,
    Yields (runCalls machineHhdm 3
      [.openFile ⟨fun _ => 0#8, fun _ => 0#8⟩ (stringStream [0x2f#8, 0x61#8]),
        .readDir (fun _ => 0#8) (fun _ => 0#64) (stringStream [0x2f#8, 0x61#8]) 0x20000#64 16#64
          0#64] ⟨emptyVfs, booted, fun _ => 0#64⟩) final ∧
    SameUsedPages machineHhdm booted final.kernel := by
  obtain ⟨pmm, -, -, booted, -, -, covered, returned, -⟩ := machine_boots
  let start : FsState := ⟨emptyVfs, booted, fun _ => 0#64⟩
  have mounted := @vfsGetMountpoint_single emptyVfs _ rfl
  have opened : Yields (start.vfsOpen machineHhdm ⟨fun _ => 0#8, fun _ => 0#8⟩ 3
      (stringStream [0x2f#8, 0x61#8])) (-1, start) := empty_open_fails booted _
  have listed : Yields (start.vfsReadDir machineHhdm (fun _ => 0#8) (fun _ => 0#64) 3
      (stringStream [0x2f#8, 0x61#8]) 0x20000#64 16#64 0#64) (0#64, start) := by
    unfold FsState.vfsReadDir
    rw [mounted]
    refine yields_bind.mpr ⟨_, yields_lift.mpr (root_relPath 1), ?_⟩
    refine yields_bind.mpr ⟨(⟨fun _ => 0#64, 0⟩, start), ?_,
      yields_bind.mpr ⟨(0#64, start.vfs.space), yields_lift.mpr rfl, yields_pure.mpr rfl⟩⟩
    unfold FsState.listEntries
    exact (if_pos empty_listed).symm ▸ yields_pure.mpr rfl
  have called : Yields (runCalls machineHhdm 3
      [.openFile ⟨fun _ => 0#8, fun _ => 0#8⟩ (stringStream [0x2f#8, 0x61#8]),
        .readDir (fun _ => 0#8) (fun _ => 0#64) (stringStream [0x2f#8, 0x61#8]) 0x20000#64 16#64
          0#64] start) start := by
    refine yields_bind.mpr ⟨start, yields_bind.mpr ⟨_, opened, yields_pure.mpr rfl⟩, ?_⟩
    exact yields_bind.mpr ⟨start, yields_bind.mpr ⟨_, listed, yields_pure.mpr rfl⟩,
      yields_pure.mpr rfl⟩
  refine ⟨booted, start, called, ?_⟩
  apply (fs_calls_keep_pages_iff covered returned Relation.ReflTransGen.refl called).mpr
  refine ⟨empty_findsNothing, fun next first => ⟨?_, fun _ _ => trivial⟩⟩
  have nextEq : start = next :=
    Yields.unique (yields_bind.mpr ⟨_, opened, yields_pure.mpr rfl⟩) first
  rw [← nextEq]
  exact fun finds => finds.2 empty_listed

def FsState.withOpened (state : FsState) (slot fd : Nat) (device : Mountpoint) (file : UstarFile)
    (ptr : Word) (mm : MmState Pmm) : FsState where
  vfs := { state.vfs with
    openFiles := update state.vfs.openFiles slot (some file)
    vfsOpenedFiles := update state.vfs.vfsOpenedFiles fd
      ⟨BitVec.ofInt 64 (slot : Int), device.id.toNat, 0#64, 0#64, file.size⟩ }
  kernel := { state.kernel with mm }
  openFilePtrs := update state.openFilePtrs slot ptr

section NewFile

variable {hhdm : Word} {state : FsState} {stack : StackBytes} {fuel slot fd : Nat}
  {path relPath : Stream} {device : Mountpoint} {header ptr ptr' : Word} {mm₁ mm₂ mm₃ : MmState Pmm}

variable (mounted : state.vfs.mountedDevices = [device])
  (isUstar : device.operations = .ustar)
  (relative : getRelPath fuel device.mountpoint path = some relPath)
  (notOpen : isAlreadyOpen state.vfs relPath = none)
  (lookup : tarFileLookup state.vfs.space relPath state.vfs.tarFsStartAddress stack.tarFilename
    fuel = some header) (nonNull : header ≠ 0#64)
  (entry : findOpenId state.vfs = some slot) (free : findFreeSlot state.vfs = some fd)
  (taken₁ : kAlloc hhdm fuel state.kernel.mm state.kernel.vmmKernel FsState.sizeofUstarFile =
    some (.ok (ptr, mm₁)))
  (taken₂ : kAlloc hhdm fuel mm₁ state.kernel.vmmKernel FsState.sizeofFileDescriptor =
    some (.ok (ptr', mm₂)))
include mounted isUstar relative notOpen lookup nonNull entry free taken₁ taken₂

/-- With enough memory, a file of the archive that is not open can be opened. -/
theorem FsState.vfsOpen_new :
    Yields (state.vfsOpen hhdm stack fuel path)
      ((fd : Int), state.withOpened slot fd device
        ⟨header, 1#16, octAsciiToDec (headerFileSize state.vfs.space header) 12#16⟩ ptr mm₂) := by
  let file : UstarFile :=
    ⟨header, 1#16, octAsciiToDec (headerFileSize state.vfs.space header) 12#16⟩
  let middle : FsState :=
    ⟨{ state.vfs with openFiles := update state.vfs.openFiles slot (some file) },
      { state.kernel with mm := mm₁ }, update state.openFilePtrs slot ptr⟩
  have fileEq : middle.vfs.openFiles slot = some file := update_self _ _ _
  have opening : UstarOpened hhdm stack.tarFilename fuel state relPath slot middle :=
    .opened notOpen lookup nonNull (kalloc_returns.mpr ⟨mm₁, taken₁, rfl⟩) entry
  have isOpen : VfsOpened hhdm stack fuel state path fd
      (state.withOpened slot fd device file ptr mm₂) :=
    .opened (vfsGetMountpoint_single mounted _ _) isUstar relative opening.yields (by omega) free
      (kalloc_returns.mpr ⟨mm₂, taken₂, rfl⟩)
        (by rw [ustarGetFileSize, Int.toNat_natCast, fileEq]; rfl)
  exact isOpen.yields

theorem FsState.open_close (idEq : device.id = 1#8)
    (freed : kFree hhdm mm₂ state.kernel.vmmKernel ptr = .ok mm₃) :
    ∃ opened final, Yields (state.vfsOpen hhdm stack fuel path) ((fd : Int), opened) ∧
      Yields (opened.vfsClose hhdm fd) (0, final) ∧
      (final.vfs.vfsOpenedFiles fd).fsFileId = closedId := by
  have slotLt := (findOpenId_eq_some entry).1
  rw [maxOpenFiles] at slotLt
  let file : UstarFile :=
    ⟨header, 1#16, octAsciiToDec (headerFileSize state.vfs.space header) 12#16⟩
  let opened : FsState := state.withOpened slot fd device file ptr mm₂
  have fileEq : opened.vfs.openFiles slot = some file := update_self _ _ _
  have descriptorEq : opened.vfs.vfsOpenedFiles fd =
      ⟨BitVec.ofInt 64 (slot : Int), device.id.toNat, 0#64, 0#64, file.size⟩ :=
    update_self _ _ _
  have pointerEq : opened.openFilePtrs slot = ptr := update_self _ _ _
  have last : file.references - 1#16 < 1#16 := by
    change 1#16 - 1#16 < 1#16
    decide
  have slotEq : (BitVec.ofInt 64 (slot : Int)).toNat = slot := by
    rw [BitVec.ofInt_natCast, BitVec.toNat_ofNat]
    omega
  have closing : Yields (ustarClose hhdm opened (opened.vfs.vfsOpenedFiles fd).fsFileId.toNat)
      (0, { opened.setFile slot none with kernel := { state.kernel with mm := mm₃ } }) := by
    rw [descriptorEq, slotEq]
    exact ustarClose_last fileEq last (by rw [pointerEq]; exact freed)
  refine ⟨opened, _, vfsOpen_new mounted isUstar relative notOpen lookup nonNull entry free taken₁
    taken₂, vfsClose_open ?_ ?_ isUstar closing, ?_⟩
  · rw [descriptorEq]
    intro isClosed
    have := congrArg BitVec.toNat isClosed
    rw [slotEq, closedId, BitVec.toNat_allOnes] at this
    omega
  · rw [descriptorEq]
    change getMountpointById opened.vfs device.id.toNat = some device
    rw [idEq, getMountpointById, if_neg (by decide)]
    change state.vfs.mountedDevices[0]? = some device
    rw [mounted]
    rfl
  · dsimp only
    rw [update_self]

end NewFile

/-- Opening the file `a` and closing it again leaves a page marked. -/
theorem open_close_leaks : ∃ pmm booted opened final,
    pmmInit machineMap machineHhdm (fun _ => 0#8) 4 = some (.ok pmm) ∧
    vmmInit machineHhdm pmmSource machineLayout ⟨pmm, fun _ => 0#8⟩ = .ok booted ∧
    Yields (FsState.vfsOpen machineHhdm ⟨fun _ => 0#8, fun _ => 0#8⟩ 4
      ⟨greetingVfs, booted, fun _ => 0#64⟩ (stringStream [0x2f#8, 0x61#8]))
        (((0 : Nat) : Int), opened) ∧
    Yields (FsState.vfsClose machineHhdm opened 0) (0, final) ∧
    (final.vfs.vfsOpenedFiles 0).fsFileId = closedId ∧
    ¬ SameUsedPages machineHhdm booted final.kernel := by
  obtain ⟨pmm, booted, height, kernel, boots, initial, returned, owned, enough⟩ :=
    machine_owned fun _ => True
  obtain ⟨file, height₁, mm₁, call₁, -, owned₁, -, supply₁⟩ :=
    @HeapHistory.Owned.alloc_ok _ _ _ _ _ _ _ _ owned FsState.sizeofUstarFile trivial (by decide)
      (by dsimp only; omega) 3
  dsimp only at supply₁
  obtain ⟨descriptor, height₂, mm₂, call₂, -, owned₂, -, -⟩ :=
    @HeapHistory.Owned.alloc_ok _ _ _ _ _ _ _ _ owned₁ FsState.sizeofFileDescriptor trivial
      (by decide) (by dsimp only; omega) 3
  obtain ⟨mm₃, freed, -⟩ := owned₂.toStanding.free_arena (List.mem_cons_of_mem _ List.mem_cons_self)
  have slotEq : findFreeSlot greetingVfs = some 0 :=
    find?_range_of_first (by decide) rfl (by omega)
  obtain ⟨opened, final, opening, closing, isClosed⟩ := @FsState.open_close machineHhdm
    ⟨greetingVfs, booted, fun _ => 0#64⟩ ⟨fun _ => 0#8, fun _ => 0#8⟩ 4 0 0 _ _ _ _ _ _ _ _ _ rfl rfl
    (root_relPath 2) greeting_notOpen greeting_found (by decide) greeting_id slotEq call₁ call₂ rfl
    freed
  refine ⟨pmm, booted, opened, final, boots, returned, opening, closing, isClosed, ?_⟩
  have called : Yields (runCalls machineHhdm 4
      [.openFile ⟨fun _ => 0#8, fun _ => 0#8⟩ (stringStream [0x2f#8, 0x61#8]), .closeFile 0]
      ⟨greetingVfs, booted, fun _ => 0#64⟩) final := by
    refine yields_bind.mpr ⟨opened, yields_bind.mpr ⟨_, opening, yields_pure.mpr rfl⟩, ?_⟩
    exact yields_bind.mpr ⟨final, yields_bind.mpr ⟨_, closing, yields_pure.mpr rfl⟩,
      yields_pure.mpr rfl⟩
  apply used_pages_differ initial returned Relation.ReflTransGen.refl called
  intro noneFinds
  apply noneFinds.1
  refine ⟨_, _, vfsGetMountpoint_single rfl _ _, root_relPath 2, .inr ?_⟩
  intro isMissing
  have found := greeting_found.symm.trans isMissing
  rw [Option.some.injEq] at found
  exact absurd found (by decide)

end MmdOS
