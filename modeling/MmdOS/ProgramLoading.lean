import MmdOS.FileSystemLeaks

/-!
# Loading a program

`vfs_execute` reads a file in pieces of 512 bytes into an array of 512 words, and
copies as many words as bytes were read.  The block that it copies to has one
byte for each byte of the file.
-/

namespace MmdOS

open CString Outcome
open Function (update_self)

variable {state : VfsState} {fd size position fuel : Nat} {address : Word} {stack : StackBytes}
variable {path : Stream}

/-- What `vfs_execute` has done with a file: the block it has allocated, the
addresses of the words it has stored, and what it passes to `process_create`. -/
structure ProgramImage where
  size : Word
  dest : Word
  stores : List Word
  function : Word

def storeElement (buffer iter : Word) (j : Nat) (space : ByteSpace) : ByteSpace :=
  fun address =>
    if (address - iter).toNat < 8 then space (buffer + BitVec.ofNat 64 (8 * j) + (address - iter))
    else space address

def copyElements (buffer : Word) : (left j : Nat) → (iter : Word) → ByteSpace → List Word →
    Word × ByteSpace × List Word
  | 0, _, iter, space, stores => (iter, space, stores)
  | left + 1, j, iter, space, stores =>
      copyElements buffer left (j + 1) (iter + 8#64) (storeElement buffer iter j space)
        (stores ++ [iter])

namespace FsState

variable (hhdm : Word)

def executeLoop (fd : Nat) (buffer : Word) : (rounds : Nat) → (iter : Word) → List Word → FsState →
    Outcome Panic (List Word × FsState)
  | 0, _, _, _ => ExceptT.mk none
  | rounds + 1, iter, stores, state => do
      let (read, state) ← vfsRead state fd buffer 512#64
      let (iter, space, stores) := copyElements buffer read.toNat 0 iter state.vfs.space stores
      let state := { state with vfs := { state.vfs with space } }
      if read ≠ 0#64 then executeLoop fd buffer rounds iter stores state
      else pure (stores, state)

/-- `vfs_execute` with the address of its array.  A file that cannot be opened
leads to no image. -/
def vfsExecute (stack : StackBytes) (buffer : Word) (fuel rounds : Nat) (state : FsState)
    (path : Stream) : Outcome Panic (Option ProgramImage × FsState) := do
  let (id, state) ← vfsOpen hhdm stack fuel state path
  if id < 0 then pure (none, state)
  else do
    let size := (state.vfs.vfsOpenedFiles id.toNat).fileSize
    let (dest, state) ← kalloc hhdm fuel state size
    let (stores, state) ← executeLoop id.toNat buffer rounds dest [] state
    pure (some ⟨size, dest, stores, dest⟩, state)

end FsState

/-- The block of the file's size holds the content, nothing else was written, and
the process starts at the block. -/
structure ProgramImage.LoadsExactly (image : ProgramImage) (space : ByteSpace)
    (content : List Byte) : Prop where
  allocated : image.size = BitVec.ofNat 64 content.length
  holds : readBytes space image.dest content.length = content
  inside : ∀ iter ∈ image.stores, ∀ b < 8, ∃ i < content.length,
    iter + BitVec.ofNat 64 b = image.dest + BitVec.ofNat 64 i
  starts : image.function = image.dest

section Elements

def wordAddresses (iter : Word) (count : Nat) : List Word :=
  (List.range count).map fun k => iter + BitVec.ofNat 64 (8 * k)

theorem wordAddresses_succ (iter : Word) (count : Nat) :
    wordAddresses iter (count + 1) = iter :: wordAddresses (iter + 8#64) count := by
  unfold wordAddresses
  rw [List.range_succ_eq_map, List.map_cons, List.map_map, Nat.mul_zero, BitVec.add_zero]
  congr 1
  apply List.map_congr_left
  intro k _
  rw [Function.comp_apply, Nat.mul_succ, Nat.add_comm, BitVec.ofNat_add, BitVec.add_assoc]

theorem wordAddresses_add (iter : Word) (count count' : Nat) :
    wordAddresses iter (count + count') =
      wordAddresses iter count ++ wordAddresses (iter + BitVec.ofNat 64 (8 * count)) count' := by
  induction count generalizing iter with
  | zero =>
      rw [Nat.zero_add, Nat.mul_zero, BitVec.add_zero]
      rfl
  | succ count ih =>
      rw [Nat.succ_add, wordAddresses_succ, wordAddresses_succ, ih, List.cons_append, Nat.mul_succ,
        Nat.add_comm (8 * count), BitVec.ofNat_add, BitVec.add_assoc]

theorem copyElements_stores (buffer : Word) (left j : Nat) (iter : Word) (space : ByteSpace)
    (stores : List Word) :
    ∃ copied, copyElements buffer left j iter space stores =
      (iter + BitVec.ofNat 64 (8 * left), copied, stores ++ wordAddresses iter left) := by
  induction left generalizing j iter space stores with
  | zero =>
      refine ⟨space, ?_⟩
      rw [copyElements, Nat.mul_zero, BitVec.add_zero]
      exact congrArg (fun list => (iter, space, list)) (List.append_nil stores).symm
  | succ left ih =>
      obtain ⟨copied, result⟩ :=
        ih (j + 1) (iter + 8#64) (storeElement buffer iter j space) (stores ++ [iter])
      refine ⟨copied, ?_⟩
      rw [copyElements, result, wordAddresses_succ, List.append_assoc, List.singleton_append,
        Nat.mul_succ, Nat.add_comm (8 * left), BitVec.ofNat_add, BitVec.add_assoc]

end Elements

/-- A read moves the position by what it delivers; the contents of memory play no
part in that. -/
theorem VfsState.Positioned.read (positioned : state.Positioned fd address size position)
    (buf nbytes : Word) :
    ∃ after, vfsRead state fd buf nbytes =
        some (BitVec.ofNat 64 (min nbytes.toNat (size - position)), after) ∧
      ∀ space, VfsState.Positioned fd address size
        (position + min nbytes.toNat (size - position)) { after with space } := by
  refine ⟨_, positioned.vfsRead_eq buf nbytes, fun space => ⟨?_, ?_, ?_, ?_, ?_, ?_⟩⟩
  · dsimp only
    rw [update_self]
    exact positioned.isOpen
  · dsimp only
    rw [update_self]
    exact positioned.mounted
  · dsimp only
    rw [update_self]
    exact positioned.refers
  · dsimp only
    rw [update_self]
  · have inside := positioned.inside
    omega
  · exact positioned.sizeLt

theorem vfsOpen_fileSize {after : VfsState}
    (returned : vfsOpen stack fuel state path = some ((fd : Int), after)) {file : UstarFile}
    (fileEq : after.openFiles (after.vfsOpenedFiles fd).fsFileId.toNat = some file) :
    (after.vfsOpenedFiles fd).fileSize = file.size := by
  obtain ⟨mountpoint, relPath, id, middle, fileSize, -, -, opening, valid, -, size, rfl⟩ :=
    vfsOpen_eq_some returned
  dsimp only at fileEq ⊢
  rw [update_self] at fileEq ⊢
  cases isUstar : mountpoint.operations with
  | unset =>
      rw [isUstar] at size
      cases size
  | ustar =>
      rw [isUstar, FsOperations.openFile] at opening
      rw [isUstar, FsOperations.getFileSize, ustarGetFileSize] at size
      obtain ⟨isError, -⟩ | ⟨slot, -, slotLt, rfl, -⟩ := ustarOpen_cases opening
      · exact absurd isError valid
      · rw [maxOpenFiles] at slotLt
        have slotEq : (BitVec.ofInt 64 (slot : Int)).toNat = slot := by
          rw [BitVec.ofInt_natCast, BitVec.toNat_ofNat]
          omega
        rw [slotEq] at fileEq
        rw [Int.toNat_natCast, fileEq, Option.map_some, Option.some.injEq] at size
        exact size.symm

namespace FsState

variable {rounds : Nat}

theorem executeLoop_yields {state : FsState}
    (positioned : state.vfs.Positioned fd address size position) (enough : size - position < rounds)
    (buffer iter : Word) (stores : List Word) :
    ∃ after, Yields (executeLoop fd buffer rounds iter stores state)
      (stores ++ wordAddresses iter (size - position), after) := by
  induction rounds generalizing state position iter stores with
  | zero => omega
  | succ rounds ih =>
      obtain ⟨vfs, readEq, advanced⟩ := positioned.read buffer 512#64
      have reads : Yields (vfsRead state fd buffer 512#64)
          (BitVec.ofNat 64 (min 512 (size - position)), { state with vfs }) :=
        vfsRead_returns.mpr ⟨readEq, rfl⟩
      have inside := positioned.inside
      have sizeLt := positioned.sizeLt
      have countEq : (BitVec.ofNat 64 (min 512 (size - position))).toNat =
          min 512 (size - position) := by
        rw [BitVec.toNat_ofNat]
        omega
      obtain ⟨copied, copying⟩ :=
        copyElements_stores buffer (min 512 (size - position)) 0 iter vfs.space stores
      by_cases atEnd : size - position = 0
      · refine ⟨{ state with vfs := { vfs with space := copied } }, yields_bind.mpr ⟨_, reads, ?_⟩⟩
        dsimp only
        rw [countEq, copying, atEnd]
        exact yields_pure.mpr rfl
      · have nonzero : BitVec.ofNat 64 (min 512 (size - position)) ≠ 0#64 := by
          intro isZero
          rw [isZero] at countEq
          change 0 = _ at countEq
          omega
        obtain ⟨after, loops⟩ := @ih (position + min 512 (size - position))
          { state with vfs := { vfs with space := copied } } (advanced copied) (by omega)
          (iter + BitVec.ofNat 64 (8 * min 512 (size - position)))
          (stores ++ wordAddresses iter (min 512 (size - position)))
        refine ⟨after, yields_bind.mpr ⟨_, reads, ?_⟩⟩
        dsimp only
        rw [countEq, copying]
        dsimp only
        rw [if_pos nonzero]
        have split : min 512 (size - position) + (size - (position + min 512 (size - position))) =
            size - position := by omega
        rw [List.append_assoc, ← wordAddresses_add, split] at loops
        exact loops

/-- The call stores one word for every byte of the file, from the block on. -/
theorem vfsExecute_yields {hhdm dest buffer : Word} {state opened allocated : FsState}
    (opens : Yields (state.vfsOpen hhdm stack fuel path) ((fd : Int), opened))
    (allocates : Yields (opened.kalloc hhdm fuel (opened.vfs.vfsOpenedFiles fd).fileSize)
      (dest, allocated)) (positioned : opened.vfs.Positioned fd address size 0)
    (enough : size < rounds) :
    ∃ after, Yields (state.vfsExecute hhdm stack buffer fuel rounds path)
      (some ⟨(opened.vfs.vfsOpenedFiles fd).fileSize, dest, wordAddresses dest size, dest⟩,
        after) := by
  obtain ⟨mm, -, allocatedEq⟩ := kalloc_returns.mp allocates
  have sameVfs : allocated.vfs = opened.vfs := by rw [allocatedEq]
  rw [← sameVfs] at positioned
  obtain ⟨after, loops⟩ := executeLoop_yields positioned (by omega : size - 0 < rounds) buffer dest []
  refine ⟨after, yields_bind.mpr ⟨_, opens, ?_⟩⟩
  dsimp only
  rw [if_neg (by omega)]
  exact yields_bind.mpr ⟨_, allocates, yields_bind.mpr ⟨_, loops, yields_pure.mpr rfl⟩⟩

end FsState

/-- The last byte of the last word is outside a block of one byte for each word. -/
theorem ProgramImage.LoadsExactly.content_eq_nil {image : ProgramImage} {space : ByteSpace}
    {content : List Byte} (loads : image.LoadsExactly space content)
    (small : content.length < 8 ^ 10)
    (stores : image.stores = wordAddresses image.dest content.length) : content = [] := by
  by_contra nonempty
  have positive := List.length_pos_iff.mpr nonempty
  have isStore : image.dest + BitVec.ofNat 64 (8 * (content.length - 1)) ∈ image.stores := by
    rw [stores]
    exact List.mem_map.mpr ⟨content.length - 1, List.mem_range.mpr (by omega), rfl⟩
  obtain ⟨i, below, same⟩ := loads.inside _ isStore 7 (by decide)
  rw [BitVec.add_assoc, ← BitVec.ofNat_add] at same
  have offsets := ofNat_add_inj (by omega) (by omega) same
  omega

/-- `vfs_execute` loads a file exactly only if there is nothing to load. -/
theorem vfsExecute_loads_iff {hhdm start dest buffer : Word} {space : ByteSpace}
    {entries : List ArchiveEntry} {block path : Stream} {state opened allocated : FsState}
    {stack : StackBytes} {fuel fd : Nat} (loaded : Loaded space start (archive entries))
    (run : Relation.ReflTransGen (VfsState.Step start (archive entries).length)
      (vfsInit space start block) state.vfs)
    (opens : Yields (state.vfsOpen hhdm stack fuel path) ((fd : Int), opened))
    (allocates : Yields (opened.kalloc hhdm fuel (opened.vfs.vfsOpenedFiles fd).fileSize)
      (dest, allocated)) :
    ∃ address entry, (address, entry) ∈ placedEntries start entries ∧
      (∃ file, opened.vfs.openFiles (opened.vfs.vfsOpenedFiles fd).fsFileId.toNat = some file ∧
        file.header = address) ∧
      ∀ rounds > entry.content.length, ∃ image after,
        Yields (state.vfsExecute hhdm stack buffer fuel rounds path) (some image, after) ∧
        (image.LoadsExactly after.vfs.space entry.content ↔ entry.content = []) := by
  have erased := FsState.vfsOpen_erased opens
  obtain ⟨relPath, address, entry, -, -, reading⟩ :=
    (VfsState.sound_of_run loaded run).reading erased
  obtain ⟨references, fileEq⟩ := reading.refers
  refine ⟨address, entry, reading.placed, ⟨_, fileEq, rfl⟩, fun rounds enough => ?_⟩
  have sizeEq : (opened.vfs.vfsOpenedFiles fd).fileSize = BitVec.ofNat 64 entry.content.length :=
    vfsOpen_fileSize erased fileEq
  obtain ⟨after, executes⟩ :=
    FsState.vfsExecute_yields opens allocates reading.positioned enough
  refine ⟨_, after, executes, ?_⟩
  constructor
  · intro loads
    exact loads.content_eq_nil entry.content_lt rfl
  · intro isEmpty
    refine ⟨sizeEq, ?_, ?_, rfl⟩
    · rw [isEmpty]
      rfl
    · rw [isEmpty]
      exact fun iter member => absurd member List.not_mem_nil

/-- On the example machine a file that is not open yet can be opened, and a block
for it can be allocated if it fits one page. -/
theorem machine_opens {vfs : VfsState} {device : Mountpoint} {fuel : Nat} {path relPath : Stream}
    {header size : Word} (mounted : vfs.mountedDevices = [device])
    (isUstar : device.operations = .ustar)
    (relative : getRelPath (fuel + 1) device.mountpoint path = some relPath)
    (notOpen : isAlreadyOpen vfs relPath = none)
    (lookup : tarFileLookup vfs.space relPath vfs.tarFsStartAddress (fun _ => 0#8) (fuel + 1) =
      some header) (nonNull : header ≠ 0#64) (entry : findOpenId vfs = some 0)
    (free : findFreeSlot vfs = some 0)
    (sizeEq : octAsciiToDec (headerFileSize vfs.space header) 12#16 = size)
    (onePage : heapPages size = 1#64) :
    ∃ booted opened dest allocated,
      Yields (FsState.vfsOpen machineHhdm ⟨fun _ => 0#8, fun _ => 0#8⟩ (fuel + 1)
        ⟨vfs, booted, fun _ => 0#64⟩ path) (((0 : Nat) : Int), opened) ∧
      Yields (opened.kalloc machineHhdm (fuel + 1) (opened.vfs.vfsOpenedFiles 0).fileSize)
        (dest, allocated) := by
  obtain ⟨-, booted, height, kernel, -, -, -, owned, enough⟩ := machine_owned fun _ => True
  obtain ⟨file, height₁, mm₁, call₁, -, owned₁, -, supply₁⟩ :=
    @HeapHistory.Owned.alloc_ok _ _ _ _ _ _ _ _ owned FsState.sizeofUstarFile trivial (by decide)
      (by dsimp only; omega) fuel
  dsimp only at supply₁
  obtain ⟨descriptor, height₂, mm₂, call₂, -, owned₂, -, supply₂⟩ :=
    @HeapHistory.Owned.alloc_ok _ _ _ _ _ _ _ _ owned₁ FsState.sizeofFileDescriptor trivial
      (by decide) (by dsimp only; omega) fuel
  dsimp only at supply₂
  obtain ⟨content, height₃, mm₃, call₃, -⟩ :=
    @HeapHistory.Owned.alloc_ok _ _ _ _ _ _ _ _ owned₂ size trivial onePage
      (by dsimp only; omega) fuel
  refine ⟨booted, _, content.ptr machineHhdm, _, FsState.vfsOpen_new mounted isUstar relative
    notOpen lookup nonNull entry free call₁ call₂, FsState.kalloc_returns.mpr ⟨mm₃, ?_, rfl⟩⟩
  dsimp only [FsState.withOpened]
  rw [update_self, sizeEq]
  exact call₃

theorem greeting_size : octAsciiToDec (headerFileSize greetingVfs.space 0x10000#64) 12#16 = 2#64 :=
  greeting_loaded.head.fileSize_eq

theorem vfsExecute_loads_empty : ∃ booted image after,
    Yields (FsState.vfsExecute machineHhdm ⟨fun _ => 0#8, fun _ => 0#8⟩ 0x20000#64 5 1
      ⟨twoFilesVfs, booted, fun _ => 0#64⟩ (stringStream [0x2f#8, 0x61#8])) (some image, after) ∧
    image.LoadsExactly after.vfs.space [] := by
  have free : findFreeSlot twoFilesVfs = some 0 :=
    find?_range_of_first (by decide) rfl (by omega)
  have idEq : findOpenId twoFilesVfs = some 0 :=
    find?_range_of_first (by decide) rfl (by omega)
  obtain ⟨booted, opened, dest, allocated, opens, allocates⟩ :=
    @machine_opens twoFilesVfs _ 4 _ _ _ _ rfl rfl (root_relPath 3)
      (isAlreadyOpen_of_noneOpen (fun _ => rfl) _) (twoFiles_found 0) (by decide) idEq free
      twoFiles_size (by decide)
  obtain ⟨address, entry, placed, refers, executes⟩ :=
    vfsExecute_loads_iff twoFiles_loaded Relation.ReflTransGen.refl opens allocates
  have isEmpty : entry.content = [] := by
    rcases List.mem_pair.mp (List.of_mem_zip placed).2 with rfl | rfl
    · rfl
    · rfl
  rw [isEmpty] at executes
  obtain ⟨image, after, yields, loads⟩ := executes 1 Nat.one_pos
  exact ⟨booted, image, after, yields, loads.mpr rfl⟩

/-- Of the file `a` with its two bytes two words are stored, and the second one is
behind the block. -/
theorem vfsExecute_overruns_block : ∃ booted image after,
    Yields (FsState.vfsExecute machineHhdm ⟨fun _ => 0#8, fun _ => 0#8⟩ 0x20000#64 4 3
      ⟨greetingVfs, booted, fun _ => 0#64⟩ (stringStream [0x2f#8, 0x61#8])) (some image, after) ∧
    image.size = 2#64 ∧ image.stores = [image.dest, image.dest + 8#64] ∧
    ¬ image.LoadsExactly after.vfs.space greetingFile.content := by
  have free : findFreeSlot greetingVfs = some 0 :=
    find?_range_of_first (by decide) rfl (by omega)
  obtain ⟨booted, opened, dest, allocated, opens, allocates⟩ :=
    @machine_opens greetingVfs _ 3 _ _ _ _ rfl rfl (root_relPath 2) greeting_notOpen
      greeting_found (by decide) greeting_id free greeting_size (by decide)
  have erased := FsState.vfsOpen_erased opens
  obtain ⟨relPath, address, entry, -, -, reading⟩ :=
    (VfsState.sound_of_run greeting_loaded Relation.ReflTransGen.refl).reading erased
  obtain rfl : entry = greetingFile :=
    List.mem_singleton.mp (List.of_mem_zip reading.placed).2
  obtain ⟨references, fileEq⟩ := reading.refers
  obtain ⟨after, executes⟩ := FsState.vfsExecute_yields opens allocates reading.positioned
    (by decide : greetingFile.content.length < 3)
  have stores : wordAddresses dest 2 = [dest, dest + 8#64] := by
    rw [wordAddresses_succ, wordAddresses_succ]
    rfl
  refine ⟨booted, _, after, executes, vfsOpen_fileSize erased fileEq, stores, fun loads => ?_⟩
  exact absurd (loads.content_eq_nil greetingFile.content_lt rfl) (by decide)

end MmdOS
