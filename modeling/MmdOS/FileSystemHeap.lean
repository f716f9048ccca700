import MmdOS.KernelHeap
import MmdOS.Outcome
import MmdOS.VfsFiles

/-!
# The file system and the heap

The calls of `vfs.c` and `ustar.c` once more, now with every call of `kalloc`
and `kfree`.  The heap keeps its own state; what a new block holds is left open,
and so is what an uninitialised array on the stack holds.  Without the heap the
calls are those of the open files.

`ustar_read_dir` works on pointers into the name buffers that it allocates: the
comparison of two paths truncates both of them in place.
-/

namespace MmdOS

open CString Outcome
open Function (update update_idem)

section Paths

variable (space : ByteSpace)

def dropSlash (path : Word) : Word :=
  if space path ≠ 0#8 ∧ space path = 0x2f#8 then path + 1#64 else path

/-- The loop of `is_in_same_dir` to the end of the first component. -/
def componentEnd (path : Word) : (fuel : Nat) → (index : BitVec 16) → Option (BitVec 16)
  | 0, _ => none
  | fuel + 1, index =>
      if space (path + index.setWidth 64) ≠ 0#8 ∧ space (path + index.setWidth 64) ≠ 0x2f#8 then
        componentEnd path fuel (index + 1#16)
      else some index

/-- The loop of `remove_prefix`; it returns `dest`. -/
def skipPrefix : (fuel : Nat) → (dest : Word) → (dir : Stream) → Option Word
  | 0, _, _ => none
  | fuel + 1, dest, dir =>
      if space dest = dir 0 then
        if space (dest + 1#64) = 0#8 ∨ dir 1 = 0#8 then some (dest + 1#64)
        else skipPrefix fuel (dest + 1#64) (advance 1 dir)
      else some dest

/-- `remove_prefix`.  It returns a pointer, or the empty literal. -/
def removePrefix (fuel : Nat) (dest : Word) (dir : Stream) : Option (Option Word) :=
  let dest := dropSlash space dest
  let dir := if dir 0 ≠ 0#8 ∧ dir 0 = 0x2f#8 then advance 1 dir else dir
  if dir 0 = 0#8 then some (some dest)
  else do
    let dest ← skipPrefix space fuel dest dir
    if space dest ≠ 0x2f#8 then some none else some (some (dest + 1#64))

end Paths

/-- `is_in_same_dir` of a path and a result of `remove_prefix`. -/
def isInSameDir (space : ByteSpace) (fuel : Nat) (path1 : Word) (path2 : Option Word) :
    Option (Bool × ByteSpace) :=
  let path1 := dropSlash space path1
  match path2 with
  | none => some (false, space)
  | some path2 =>
      let path2 := dropSlash space path2
      if space path2 = 0#8 then some (false, space)
      else do
        let index1 ← componentEnd space path1 fuel 0#16
        let space := update space (path1 + index1.setWidth 64) 0#8
        let index2 ← componentEnd space path2 fuel 0#16
        let space := update space (path2 + index2.setWidth 64) 0#8
        some (kstrcmp (deref space path1) (deref space path2) 0#32, space)

/-- The array `pathes` of `ustar_read_dir` and the number of paths stored. -/
structure Listing where
  pathes : Nat → Word
  pathesLen : Nat

section Listing

variable (fuel : Nat) (dir : Stream)

/-- The search for a path with the same first component, with `left` of the 50
positions left. -/
def isDuplicate (path : Word) (pathes : Nat → Word) :
    (left index : Nat) → ByteSpace → Option (Bool × ByteSpace)
  | 0, _, space => some (false, space)
  | left + 1, index, space =>
      if pathes index = 0#64 then some (false, space)
      else do
        let other ← removePrefix space fuel (pathes index) dir
        let (same, space) ← isInSameDir space fuel path other
        if same then some (true, space) else isDuplicate path pathes left (index + 1) space

/-- The name of a record, written into a buffer of 256 bytes. -/
def writeName (space : ByteSpace) (header tarFilename : Word) : ByteSpace :=
  let name := replaceBackslashes (assembleName space header (deref space tarFilename))
  fun address =>
    if (address - tarFilename).toNat < 256 then name (address - tarFilename).toNat
    else space address

/-- One round of the first loop of `ustar_read_dir`, from its buffer on. -/
def listEntry (header tarFilename : Word) (space : ByteSpace) (listing : Listing) :
    Option (ByteSpace × Listing) := do
  let space := writeName space header tarFilename
  match ← removePrefix space fuel tarFilename dir with
  | none => some (space, listing)
  | some path =>
      if space path = 0#8 then some (space, listing)
      else do
        let (duplicate, space) ← isDuplicate fuel dir path listing.pathes 50 0 space
        if duplicate then some (space, listing)
        else
          some (space, ⟨update listing.pathes listing.pathesLen path,
            listing.pathesLen + 1⟩)

/-- The inner loop of the output, which copies a path to the buffer. -/
def copyPath : (fuel : Nat) → (address buffer readBytes : Word) → ByteSpace →
    Option (Word × Word × ByteSpace)
  | 0, _, _, _, _ => none
  | fuel + 1, address, buffer, readBytes, space =>
      if space address = 0#8 then some (buffer, readBytes, space)
      else
        copyPath fuel (address + 1#64) (buffer + 1#64) (readBytes + 1#64)
          (update space buffer (space address))

/-- The last loop of `ustar_read_dir`; the number of bytes does not limit it. -/
def writeListing (pathes : Nat → Word) :
    (left index : Nat) → (buffer readBytes : Word) → ByteSpace → Option (Word × ByteSpace)
  | 0, _, _, readBytes, space => some (readBytes, space)
  | left + 1, index, buffer, readBytes, space =>
      if pathes index = 0#64 then some (readBytes, space)
      else do
        let (buffer, readBytes, space) ← copyPath fuel (pathes index) buffer readBytes space
        writeListing pathes left (index + 1) (buffer + 1#64) (readBytes + 1#64)
          (update space buffer 0x0a#8)

end Listing

/-- The file system, the kernel's memory, and the pointers that `open_files`
holds for the files that are open. -/
structure FsState where
  vfs : VfsState
  kernel : KernelState Pmm
  openFilePtrs : Nat → Word

namespace FsState

variable (hhdm : Word)

def setFile (state : FsState) (id : Nat) (file : Option UstarFile) : FsState :=
  { state with
    vfs := { state.vfs with openFiles := update state.vfs.openFiles id file } }

def kalloc (fuel : Nat) (state : FsState) (size : Word) : Outcome Panic (Word × FsState) := do
  let (ptr, mm) ← ExceptT.mk (kAlloc hhdm fuel state.kernel.mm state.kernel.vmmKernel size)
  pure (ptr, { state with kernel := { state.kernel with mm } })

def kfree (state : FsState) (addr : Word) : Outcome Panic FsState := do
  let mm ← ExceptT.mk (some (kFree hhdm state.kernel.mm state.kernel.vmmKernel addr))
  pure { state with kernel := { state.kernel with mm } }

section Ustar

def sizeofUstarFile : Word := 24#64

/-- `ustar_open`.  The block is allocated before a free entry is looked for. -/
def ustarOpen (tarFilename : Stream) (fuel : Nat) (state : FsState) (path : Stream) :
    Outcome Panic (Int × FsState) :=
  match isAlreadyOpen state.vfs path with
  | some id =>
      let reopened := (state.vfs.openFiles id).map fun file =>
        { file with references := file.references + 1#16 }
      pure (id, state.setFile id reopened)
  | none => do
      let header ←
        tarFileLookup state.vfs.space path state.vfs.tarFsStartAddress tarFilename fuel
      if header = 0#64 then pure (-1, state)
      else do
        let (fileDescriptor, state) ← kalloc hhdm fuel state sizeofUstarFile
        match findOpenId state.vfs with
        | none => pure (-1, state)
        | some id =>
            let file : UstarFile :=
              { header
                references := 1#16
                size := octAsciiToDec (headerFileSize state.vfs.space header) 12#16 }
            pure (id,
              { state.setFile id (some file) with
                openFilePtrs := update state.openFilePtrs id fileDescriptor })

def ustarClose (state : FsState) (fileId : Nat) : Outcome Panic (Int × FsState) := do
  let file ← state.vfs.openFiles fileId
  let references := file.references - 1#16
  let state := state.setFile fileId (some { file with references })
  if references < 1#16 then do
    let state ← kfree hhdm state (state.openFilePtrs fileId)
    pure (0, state.setFile fileId none)
  else pure (0, state)

/-- The first loop of `ustar_read_dir`, with a new buffer for every record. -/
def listEntries (fuel : Nat) (dir : Stream) :
    (rounds : Nat) → (header : Word) → Listing → FsState → Outcome Panic (Listing × FsState)
  | 0, _, _, _ => ExceptT.mk none
  | rounds + 1, header, listing, state =>
      let header :=
        tarFilePrefixLookup state.vfs.space state.vfs.tarFsStartAddress header
      if header = 0#64 then pure (listing, state)
      else do
        let (tarFilename, state) ← kalloc hhdm fuel state 256#64
        let (space, listing) ← listEntry fuel dir header tarFilename state.vfs.space listing
        listEntries fuel dir rounds header listing { state with vfs := { state.vfs with space } }

/-- `ustar_read_dir` with what its uninitialised array holds.  It uses neither
the number of bytes nor the offset. -/
def ustarReadDir (pathes : Nat → Word) (fuel : Nat) (state : FsState) (dir : Stream)
    (buffer _nbytes _offset : Word) : Outcome Panic (Word × FsState) := do
  let (listing, state) ← listEntries hhdm fuel dir fuel 0#64 ⟨pathes, 0⟩ state
  let (readBytes, space) ← writeListing fuel listing.pathes 50 0 buffer 0#64 state.vfs.space
  pure (readBytes, { state with vfs := { state.vfs with space } })

end Ustar

section Vfs

/-- A call through a function pointer that is not set does not return. -/
def openFile (operations : FsOperations) (tarFilename : Stream) (fuel : Nat) (state : FsState)
    (path : Stream) : Outcome Panic (Int × FsState) :=
  match operations with
  | .unset => ExceptT.mk none
  | .ustar => ustarOpen hhdm tarFilename fuel state path

def closeFile (operations : FsOperations) (state : FsState) (fileId : Nat) :
    Outcome Panic (Int × FsState) :=
  match operations with
  | .unset => ExceptT.mk none
  | .ustar => ustarClose hhdm state fileId

def readDir (operations : FsOperations) (pathes : Nat → Word) (fuel : Nat) (state : FsState)
    (dir : Stream) (buffer nbytes offset : Word) : Outcome Panic (Word × FsState) :=
  match operations with
  | .unset => ExceptT.mk none
  | .ustar => ustarReadDir hhdm pathes fuel state dir buffer nbytes offset

/-- `sizeof(file_descriptor)`, the size of the pointer. -/
def sizeofFileDescriptor : Word := 8#64

/-- `vfs_open`.  The descriptor is filled in a block and copied to the table. -/
def vfsOpen (stack : StackBytes) (fuel : Nat) (state : FsState) (path : Stream) :
    Outcome Panic (Int × FsState) :=
  match vfsGetMountpoint state.vfs stack.mountpoint path with
  | none => pure (-1, state)
  | some mountpoint => do
      let relPath ← getRelPath fuel mountpoint.mountpoint path
      let (fsSpecificId, state) ←
        openFile hhdm mountpoint.operations stack.tarFilename fuel state relPath
      if fsSpecificId = -1 then pure (-1, state)
      else
        match findFreeSlot state.vfs with
        | none => pure (-1, state)
        | some vfsId => do
            let (_, state) ← kalloc hhdm fuel state sizeofFileDescriptor
            let fileSize ← mountpoint.operations.getFileSize state.vfs fsSpecificId.toNat
            let fileDescriptor : FileDescriptor :=
              { fsFileId := BitVec.ofInt 64 fsSpecificId
                mountpointId := mountpoint.id.toNat
                bufReadPos := 0#64
                bufWritePos := 0#64
                fileSize }
            pure (vfsId, { state with
              vfs := { state.vfs with
                vfsOpenedFiles :=
                  update state.vfs.vfsOpenedFiles vfsId fileDescriptor } })

def vfsClose (state : FsState) (fileDescriptorId : Nat) : Outcome Panic (Int × FsState) :=
  let file := state.vfs.vfsOpenedFiles fileDescriptorId
  if file.fsFileId = closedId then pure (0, state)
  else do
    let mountpoint ← getMountpointById state.vfs file.mountpointId
    let (fsCloseResult, state) ←
      closeFile hhdm mountpoint.operations state file.fsFileId.toNat
    if fsCloseResult = 0 then
      pure (0, { state with
        vfs := { state.vfs with
          vfsOpenedFiles := update state.vfs.vfsOpenedFiles fileDescriptorId
            { state.vfs.vfsOpenedFiles fileDescriptorId with fsFileId := closedId } } })
    else pure (-1, state)

def vfsRead (state : FsState) (fileDescriptorId : Nat) (buf nbytes : Word) :
    Outcome Panic (Word × FsState) := do
  let (bytesRead, vfs) ← MmdOS.vfsRead state.vfs fileDescriptorId buf nbytes
  pure (bytesRead, { state with vfs })

def vfsReadDir (mountpoint : Stream) (pathes : Nat → Word) (fuel : Nat) (state : FsState)
    (path : Stream) (buf nbytes offset : Word) : Outcome Panic (Word × FsState) :=
  match vfsGetMountpoint state.vfs mountpoint path with
  | none => pure (0#64, state)
  | some mountpoint => do
      let relPath ← getRelPath fuel mountpoint.mountpoint path
      readDir hhdm mountpoint.operations pathes fuel state relPath buf nbytes offset

end Vfs

section Returned

variable {hhdm : Word} {state after : FsState}
variable {fuel fd : Nat} {tarFilename path : Stream} {id result : Int} {stack : StackBytes}
variable {fileId : Nat} {operations : FsOperations} {buf nbytes count : Word}

theorem kalloc_returns {size ptr : Word} :
    Yields (kalloc hhdm fuel state size) (ptr, after) ↔
      ∃ mm, kAlloc hhdm fuel state.kernel.mm state.kernel.vmmKernel size = some (.ok (ptr, mm)) ∧
        after = { state with kernel := { state.kernel with mm } } := by
  simp only [kalloc, yields_bind, yields_mk, yields_pure, Prod.exists, Prod.mk.injEq]
  constructor
  · rintro ⟨ptr, mm, call, rfl, rfl⟩
    exact ⟨mm, call, rfl⟩
  · rintro ⟨mm, call, rfl⟩
    exact ⟨ptr, mm, call, rfl, rfl⟩

theorem kfree_returns {addr : Word} :
    Yields (kfree hhdm state addr) after ↔
      ∃ mm, kFree hhdm state.kernel.mm state.kernel.vmmKernel addr = .ok mm ∧
        after = { state with kernel := { state.kernel with mm } } := by
  simp only [kfree, yields_bind, yields_mk, yields_pure, Option.some.injEq, eq_comm]

variable (hhdm) in
inductive UstarOpened (tarFilename : Stream) (fuel : Nat) (state : FsState) (path : Stream) :
    Int → FsState → Prop
  | reopened {slot : Nat} (already : isAlreadyOpen state.vfs path = some slot) :
      UstarOpened tarFilename fuel state path slot
        (state.setFile slot ((state.vfs.openFiles slot).map fun file =>
          { file with references := file.references + 1#16 }))
  | missing (notOpen : isAlreadyOpen state.vfs path = none)
      (lookup : tarFileLookup state.vfs.space path state.vfs.tarFsStartAddress tarFilename fuel =
        some 0#64) : UstarOpened tarFilename fuel state path (-1) state
  | full {header ptr : Word} {middle : FsState} (notOpen : isAlreadyOpen state.vfs path = none)
      (lookup : tarFileLookup state.vfs.space path state.vfs.tarFsStartAddress tarFilename fuel =
        some header) (nonNull : header ≠ 0#64)
      (taken : Yields (kalloc hhdm fuel state sizeofUstarFile) (ptr, middle))
      (noEntry : findOpenId state.vfs = none) :
      UstarOpened tarFilename fuel state path (-1) middle
  | opened {header ptr : Word} {middle : FsState} {slot : Nat}
      (notOpen : isAlreadyOpen state.vfs path = none)
      (lookup : tarFileLookup state.vfs.space path state.vfs.tarFsStartAddress tarFilename fuel =
        some header) (nonNull : header ≠ 0#64)
      (taken : Yields (kalloc hhdm fuel state sizeofUstarFile) (ptr, middle))
      (entry : findOpenId state.vfs = some slot) :
      UstarOpened tarFilename fuel state path slot
        { middle.setFile slot (some
            ⟨header, 1#16, octAsciiToDec (headerFileSize state.vfs.space header) 12#16⟩) with
          openFilePtrs := update state.openFilePtrs slot ptr }

theorem ustarOpen_opened
    (returned : Yields (ustarOpen hhdm tarFilename fuel state path) (id, after)) :
    UstarOpened hhdm tarFilename fuel state path id after := by
  unfold ustarOpen at returned
  split at returned
  · next slot already =>
    rw [yields_pure] at returned
    cases returned
    exact .reopened already
  · next notOpen =>
    obtain ⟨header, lookup, returned⟩ := yields_bind.mp returned
    rw [yields_lift] at lookup
    split at returned
    · next isNull =>
      rw [yields_pure] at returned
      cases returned
      rw [isNull] at lookup
      exact .missing notOpen lookup
    · next nonNull =>
      obtain ⟨⟨ptr, middle⟩, taken, returned⟩ := yields_bind.mp returned
      obtain ⟨mm, -, middleEq⟩ := kalloc_returns.mp taken
      have same : middle.vfs = state.vfs := by rw [middleEq]
      have pointers : middle.openFilePtrs = state.openFilePtrs := by rw [middleEq]
      dsimp only at returned
      rw [same, pointers] at returned
      split at returned
      · next noEntry =>
        rw [yields_pure] at returned
        cases returned
        exact .full notOpen lookup nonNull taken noEntry
      · next slot entry =>
        rw [yields_pure] at returned
        cases returned
        exact .opened notOpen lookup nonNull taken entry

theorem UstarOpened.yields (opened : UstarOpened hhdm tarFilename fuel state path id after) :
    Yields (ustarOpen hhdm tarFilename fuel state path) (id, after) := by
  unfold ustarOpen
  cases opened with
  | reopened already =>
      rw [already]
      exact yields_pure.mpr rfl
  | missing notOpen lookup =>
      rw [notOpen]
      exact yields_bind.mpr ⟨_, yields_lift.mpr lookup, yields_pure.mpr rfl⟩
  | full notOpen lookup nonNull taken noEntry =>
      rw [notOpen]
      refine yields_bind.mpr ⟨_, yields_lift.mpr lookup, ?_⟩
      rw [if_neg nonNull]
      refine yields_bind.mpr ⟨_, taken, ?_⟩
      obtain ⟨mm, -, rfl⟩ := kalloc_returns.mp taken
      dsimp only
      rw [noEntry]
      exact yields_pure.mpr rfl
  | opened notOpen lookup nonNull taken entry =>
      rw [notOpen]
      refine yields_bind.mpr ⟨_, yields_lift.mpr lookup, ?_⟩
      rw [if_neg nonNull]
      refine yields_bind.mpr ⟨_, taken, ?_⟩
      obtain ⟨mm, -, rfl⟩ := kalloc_returns.mp taken
      dsimp only
      rw [entry]
      exact yields_pure.mpr rfl

/-- Without the blocks, `ustar_open` is the one of the table. -/
theorem ustarOpen_erased
    (returned : Yields (ustarOpen hhdm tarFilename fuel state path) (id, after)) :
    MmdOS.ustarOpen tarFilename fuel state.vfs path = some (id, after.vfs) := by
  unfold MmdOS.ustarOpen
  cases ustarOpen_opened returned with
  | reopened already =>
      rw [already]
      rfl
  | missing notOpen lookup =>
      rw [notOpen, lookup]
      rfl
  | full notOpen lookup nonNull taken noEntry =>
      obtain ⟨mm, -, rfl⟩ := kalloc_returns.mp taken
      rw [notOpen, lookup, Option.bind_eq_bind, Option.bind_some, if_neg nonNull, noEntry]
  | opened notOpen lookup nonNull taken entry =>
      obtain ⟨mm, -, rfl⟩ := kalloc_returns.mp taken
      rw [notOpen, lookup, Option.bind_eq_bind, Option.bind_some, if_neg nonNull, entry]
      rfl

/-- How a call of `ustar_close` ends: a file that is still referenced stays, and
the block of any other is freed. -/
theorem ustarClose_returns (returned : Yields (ustarClose hhdm state fileId) (result, after)) :
    ∃ file, state.vfs.openFiles fileId = some file ∧ result = 0 ∧
      ((1#16 ≤ file.references - 1#16 ∧
          after = state.setFile fileId (some { file with references := file.references - 1#16 })) ∨
        (file.references - 1#16 < 1#16 ∧ ∃ mm,
          kFree hhdm state.kernel.mm state.kernel.vmmKernel (state.openFilePtrs fileId) = .ok mm ∧
          after = { state.setFile fileId none with kernel := { state.kernel with mm } })) := by
  unfold ustarClose at returned
  obtain ⟨file, fileEq, returned⟩ := yields_bind.mp returned
  rw [yields_lift] at fileEq
  refine ⟨file, fileEq, ?_⟩
  dsimp only at returned
  split at returned
  · next last =>
    obtain ⟨freed, freeing, returned⟩ := yields_bind.mp returned
    rw [yields_pure] at returned
    cases returned
    obtain ⟨mm, call, rfl⟩ := kfree_returns.mp freeing
    refine ⟨rfl, .inr ⟨last, mm, call, ?_⟩⟩
    simp only [setFile, update_idem]
  · next more =>
    rw [yields_pure] at returned
    cases returned
    exact ⟨rfl, .inl ⟨BitVec.not_lt.mp more, rfl⟩⟩

theorem ustarClose_last {file : UstarFile} {mm : MmState Pmm}
    (isOpen : state.vfs.openFiles fileId = some file) (last : file.references - 1#16 < 1#16)
    (freed : kFree hhdm state.kernel.mm state.kernel.vmmKernel (state.openFilePtrs fileId) = .ok mm) :
    Yields (ustarClose hhdm state fileId)
      (0, { state.setFile fileId none with kernel := { state.kernel with mm } }) := by
  refine yields_bind.mpr ⟨file, yields_lift.mpr isOpen, ?_⟩
  dsimp only
  rw [if_pos last]
  refine yields_bind.mpr ⟨_, kfree_returns.mpr ⟨mm, freed, rfl⟩, yields_pure.mpr ?_⟩
  simp only [setFile, update_idem]

variable (hhdm) in
inductive VfsOpened (stack : StackBytes) (fuel : Nat) (state : FsState) (path : Stream) :
    Int → FsState → Prop
  | unmounted (noMount : vfsGetMountpoint state.vfs stack.mountpoint path = none) :
      VfsOpened stack fuel state path (-1) state
  | failed {mountpoint : Mountpoint} {relPath : Stream} {after : FsState}
      (mounted : vfsGetMountpoint state.vfs stack.mountpoint path = some mountpoint)
      (isUstar : mountpoint.operations = .ustar)
      (relative : getRelPath fuel mountpoint.mountpoint path = some relPath)
      (opening : Yields (ustarOpen hhdm stack.tarFilename fuel state relPath) (-1, after)) :
      VfsOpened stack fuel state path (-1) after
  | full {mountpoint : Mountpoint} {relPath : Stream} {id : Int} {after : FsState}
      (mounted : vfsGetMountpoint state.vfs stack.mountpoint path = some mountpoint)
      (isUstar : mountpoint.operations = .ustar)
      (relative : getRelPath fuel mountpoint.mountpoint path = some relPath)
      (opening : Yields (ustarOpen hhdm stack.tarFilename fuel state relPath) (id, after))
      (found : id ≠ -1) (noSlot : findFreeSlot after.vfs = none) :
      VfsOpened stack fuel state path (-1) after
  | opened {mountpoint : Mountpoint} {relPath : Stream} {id : Int} {middle after : FsState}
      {fd : Nat} {ptr fileSize : Word}
      (mounted : vfsGetMountpoint state.vfs stack.mountpoint path = some mountpoint)
      (isUstar : mountpoint.operations = .ustar)
      (relative : getRelPath fuel mountpoint.mountpoint path = some relPath)
      (opening : Yields (ustarOpen hhdm stack.tarFilename fuel state relPath) (id, middle))
      (found : id ≠ -1) (slot : findFreeSlot middle.vfs = some fd)
      (taken : Yields (kalloc hhdm fuel middle sizeofFileDescriptor) (ptr, after))
      (size : ustarGetFileSize middle.vfs id.toNat = some fileSize) :
      VfsOpened stack fuel state path fd
        { after with
          vfs := { middle.vfs with
            vfsOpenedFiles := update middle.vfs.vfsOpenedFiles fd
              ⟨BitVec.ofInt 64 id, mountpoint.id.toNat, 0#64, 0#64, fileSize⟩ } }

theorem openFile_returns
    (returned : Yields (openFile hhdm operations tarFilename fuel state path) (id, after)) :
    operations = .ustar ∧ Yields (ustarOpen hhdm tarFilename fuel state path) (id, after) := by
  cases operations with
  | unset => cases returned
  | ustar => exact ⟨rfl, returned⟩

theorem vfsOpen_opened (returned : Yields (vfsOpen hhdm stack fuel state path) (result, after)) :
    VfsOpened hhdm stack fuel state path result after := by
  unfold vfsOpen at returned
  split at returned
  · next noMount =>
    rw [yields_pure] at returned
    cases returned
    exact .unmounted noMount
  · next mountpoint mounted =>
    obtain ⟨relPath, relative, returned⟩ := yields_bind.mp returned
    rw [yields_lift] at relative
    obtain ⟨⟨id, middle⟩, opening, returned⟩ := yields_bind.mp returned
    obtain ⟨isUstar, opening⟩ := openFile_returns opening
    dsimp only at returned
    split at returned
    · next failed =>
      rw [yields_pure] at returned
      cases returned
      rw [failed] at opening
      exact .failed mounted isUstar relative opening
    · next found =>
      split at returned
      · next noSlot =>
        rw [yields_pure] at returned
        cases returned
        exact .full mounted isUstar relative opening found noSlot
      · next fd slot =>
        obtain ⟨⟨ptr, taken⟩, taking, returned⟩ := yields_bind.mp returned
        obtain ⟨fileSize, size, returned⟩ := yields_bind.mp returned
        rw [yields_lift, isUstar] at size
        rw [yields_pure] at returned
        cases returned
        obtain ⟨mm, -, takenEq⟩ := kalloc_returns.mp taking
        have same : taken.vfs = middle.vfs := by rw [takenEq]
        dsimp only at size ⊢
        rw [same] at size ⊢
        exact .opened mounted isUstar relative opening found slot taking size

theorem VfsOpened.yields (opened : VfsOpened hhdm stack fuel state path result after) :
    Yields (vfsOpen hhdm stack fuel state path) (result, after) := by
  unfold vfsOpen
  cases opened with
  | unmounted noMount =>
      rw [noMount]
      exact yields_pure.mpr rfl
  | failed mounted isUstar relative opening =>
      rw [mounted]
      refine yields_bind.mpr ⟨_, yields_lift.mpr relative, ?_⟩
      rw [isUstar]
      exact yields_bind.mpr ⟨_, opening, yields_pure.mpr rfl⟩
  | full mounted isUstar relative opening found noSlot =>
      rw [mounted]
      refine yields_bind.mpr ⟨_, yields_lift.mpr relative, ?_⟩
      rw [isUstar]
      refine yields_bind.mpr ⟨_, opening, ?_⟩
      dsimp only
      rw [if_neg found, noSlot]
      exact yields_pure.mpr rfl
  | opened mounted isUstar relative opening found slot taken size =>
      rw [mounted]
      refine yields_bind.mpr ⟨_, yields_lift.mpr relative, ?_⟩
      rw [isUstar]
      refine yields_bind.mpr ⟨_, opening, ?_⟩
      dsimp only
      rw [if_neg found, slot]
      refine yields_bind.mpr ⟨_, taken, ?_⟩
      obtain ⟨mm, -, rfl⟩ := kalloc_returns.mp taken
      exact yields_bind.mpr ⟨_, yields_lift.mpr size, yields_pure.mpr rfl⟩

theorem openFile_erased (isUstar : operations = .ustar)
    (returned : Yields (ustarOpen hhdm tarFilename fuel state path) (id, after)) :
    operations.openFile tarFilename fuel state.vfs path = some (id, after.vfs) := by
  rw [isUstar, FsOperations.openFile]
  exact ustarOpen_erased returned

theorem vfsOpen_erased (returned : Yields (vfsOpen hhdm stack fuel state path) (result, after)) :
    MmdOS.vfsOpen stack fuel state.vfs path = some (result, after.vfs) := by
  unfold MmdOS.vfsOpen
  cases vfsOpen_opened returned with
  | unmounted noMount => rw [noMount]
  | failed mounted isUstar relative opening =>
      simp only [mounted, relative, openFile_erased isUstar opening, Option.bind_eq_bind,
        Option.bind_some, if_true]
  | full mounted isUstar relative opening found noSlot =>
      simp only [mounted, relative, openFile_erased isUstar opening, Option.bind_eq_bind,
        Option.bind_some, if_neg found, noSlot]
  | @opened mountpoint _ id middle _ _ _ fileSize mounted isUstar relative opening found slot taken
      size =>
      have sizeEq : mountpoint.operations.getFileSize middle.vfs id.toNat = some fileSize := by
        rw [isUstar]
        exact size
      simp only [mounted, relative, openFile_erased isUstar opening, Option.bind_eq_bind,
        Option.bind_some, if_neg found, slot, sizeEq]

theorem vfsClose_returns (returned : Yields (vfsClose hhdm state fd) (result, after)) :
    ((state.vfs.vfsOpenedFiles fd).fsFileId = closedId ∧ result = 0 ∧ after = state) ∨
    ((state.vfs.vfsOpenedFiles fd).fsFileId ≠ closedId ∧ result = 0 ∧
      ∃ mountpoint middle,
        getMountpointById state.vfs (state.vfs.vfsOpenedFiles fd).mountpointId =
          some mountpoint ∧ mountpoint.operations = .ustar ∧
        Yields (ustarClose hhdm state (state.vfs.vfsOpenedFiles fd).fsFileId.toNat)
          (0, middle) ∧
        after = { middle with
          vfs := { middle.vfs with
            vfsOpenedFiles := update middle.vfs.vfsOpenedFiles fd
              { middle.vfs.vfsOpenedFiles fd with fsFileId := closedId } } }) := by
  unfold vfsClose at returned
  dsimp only at returned
  split at returned
  · next isClosed =>
    rw [yields_pure, Prod.mk.injEq] at returned
    exact .inl ⟨isClosed, returned.1.symm, returned.2.symm⟩
  · next isOpen =>
    obtain ⟨mountpoint, mounted, returned⟩ := yields_bind.mp returned
    rw [yields_lift] at mounted
    obtain ⟨⟨closeResult, middle⟩, closing, returned⟩ := yields_bind.mp returned
    cases operations : mountpoint.operations with
    | unset =>
        rw [operations] at closing
        cases closing
    | ustar =>
        rw [operations] at closing
        have closing : Yields (ustarClose hhdm state
          (state.vfs.vfsOpenedFiles fd).fsFileId.toNat) (closeResult, middle) := closing
        obtain ⟨-, -, rfl, -⟩ := ustarClose_returns closing
        dsimp only at returned
        rw [if_pos rfl, yields_pure, Prod.mk.injEq] at returned
        exact .inr ⟨isOpen, returned.1.symm, mountpoint, middle, mounted, operations, closing,
          returned.2.symm⟩

theorem vfsClose_open {mountpoint : Mountpoint} {middle : FsState}
    (isOpen : (state.vfs.vfsOpenedFiles fd).fsFileId ≠ closedId)
    (mounted : getMountpointById state.vfs (state.vfs.vfsOpenedFiles fd).mountpointId =
      some mountpoint) (isUstar : mountpoint.operations = .ustar)
    (closing : Yields (ustarClose hhdm state (state.vfs.vfsOpenedFiles fd).fsFileId.toNat)
      (0, middle)) :
    Yields (vfsClose hhdm state fd)
      (0, { middle with
        vfs := { middle.vfs with
          vfsOpenedFiles := update middle.vfs.vfsOpenedFiles fd
            { middle.vfs.vfsOpenedFiles fd with fsFileId := closedId } } }) := by
  unfold vfsClose
  dsimp only
  rw [if_neg isOpen]
  refine yields_bind.mpr ⟨mountpoint, yields_lift.mpr mounted, ?_⟩
  rw [isUstar]
  exact yields_bind.mpr ⟨_, closing, yields_pure.mpr rfl⟩

theorem vfsRead_returns :
    Yields (vfsRead state fd buf nbytes) (count, after) ↔
      MmdOS.vfsRead state.vfs fd buf nbytes = some (count, after.vfs) ∧
        after = { state with vfs := after.vfs } := by
  simp only [vfsRead, yields_bind, yields_lift, yields_pure, Prod.exists, Prod.mk.injEq]
  constructor
  · rintro ⟨count, vfs, call, rfl, rfl⟩
    exact ⟨call, rfl⟩
  · rintro ⟨call, afterEq⟩
    exact ⟨count, after.vfs, call, rfl, afterEq.symm⟩

/-- A round of the listing ends it, or takes a block and goes on. -/
theorem listEntries_returns {rounds : Nat} {dir : Stream} {header : Word} {listing result : Listing}
    (returned : Yields (listEntries hhdm fuel dir (rounds + 1) header listing state)
      (result, after)) :
    (tarFilePrefixLookup state.vfs.space state.vfs.tarFsStartAddress header = 0#64 ∧
      after = state) ∨
    (tarFilePrefixLookup state.vfs.space state.vfs.tarFsStartAddress header ≠ 0#64 ∧
      ∃ ptr middle space next listed,
        Yields (kalloc hhdm fuel state 256#64) (ptr, middle) ∧
        Yields (listEntries hhdm fuel dir rounds next listed
          { middle with vfs := { middle.vfs with space } }) (result, after)) := by
  unfold listEntries at returned
  dsimp only at returned
  split at returned
  · next atEnd =>
    rw [yields_pure, Prod.mk.injEq] at returned
    exact .inl ⟨atEnd, returned.2.symm⟩
  · next more =>
    obtain ⟨⟨ptr, middle⟩, taken, returned⟩ := yields_bind.mp returned
    obtain ⟨⟨space, listed⟩, -, returned⟩ := yields_bind.mp returned
    exact .inr ⟨more, ptr, middle, space, _, listed, taken, returned⟩

theorem vfsReadDir_returns {mountpoint : Stream} {pathes : Nat → Word} {offset : Word}
    (returned : Yields (vfsReadDir hhdm mountpoint pathes fuel state path buf nbytes offset)
      (count, after)) :
    (vfsGetMountpoint state.vfs mountpoint path = none ∧ after = state) ∨
    (vfsGetMountpoint state.vfs mountpoint path ≠ none ∧ ∃ relPath listing middle space,
      Yields (listEntries hhdm fuel relPath fuel 0#64 ⟨pathes, 0⟩ state) (listing, middle) ∧
      after = { middle with vfs := { middle.vfs with space } }) := by
  unfold vfsReadDir at returned
  split at returned
  · next noMount =>
    rw [yields_pure, Prod.mk.injEq] at returned
    exact .inl ⟨noMount, returned.2.symm⟩
  · next device mounted =>
    refine .inr ⟨by rw [mounted]; exact Option.some_ne_none device, ?_⟩
    obtain ⟨relPath, -, returned⟩ := yields_bind.mp returned
    cases operations : device.operations with
    | unset =>
        rw [operations] at returned
        cases returned
    | ustar =>
        rw [operations, readDir, ustarReadDir, yields_bind] at returned
        obtain ⟨⟨listing, middle⟩, listed, returned⟩ := returned
        obtain ⟨⟨readBytes, space⟩, -, returned⟩ := yields_bind.mp returned
        rw [yields_pure, Prod.mk.injEq] at returned
        exact ⟨relPath, listing, middle, space, listed, returned.2.symm⟩

end Returned

end FsState

end MmdOS
