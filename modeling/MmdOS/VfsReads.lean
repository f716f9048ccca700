import MmdOS.VfsDescriptors

/-!
# Reading a file in pieces

The descriptor keeps the position behind the bytes that have been read.  As
long as the caller's buffers lie outside the archive, successive reads deliver
the content of the file piece by piece, whatever is read through other
descriptors in between.
-/

namespace MmdOS

open CString
open Function (update update_self update_of_ne update_eq_self)

variable {count address nbytes offset buf : Word} {space : ByteSpace} {tarFilename path : Stream}
variable {fuel fd : Nat}
variable {id : Int} {stack : StackBytes}
variable {start : Word} {entries : List ArchiveEntry} {state after : VfsState}

def copyBytes : (count : Nat) → (b contentPointer : Word) → ByteSpace → ByteSpace
  | 0, _, _, space => space
  | count + 1, b, contentPointer, space =>
      copyBytes count (b + 1#64) (contentPointer + 1#64)
        (update space b (space contentPointer))

def readBytes (space : ByteSpace) (buf : Word) (count : Nat) : List Byte :=
  (List.range count).map (deref space buf)

section Copy

variable {b contentPointer : Word}

theorem add_one_add_ofNat (pointer : Word) (offset : Nat) :
    pointer + 1#64 + BitVec.ofNat 64 offset = pointer + BitVec.ofNat 64 (offset + 1) := by
  rw [BitVec.add_assoc, BitVec.add_comm 1#64, ← BitVec.ofNat_add]

theorem ofNat_add_inj {pointer : Word} {first second : Nat} (firstLt : first < 2 ^ 64)
    (secondLt : second < 2 ^ 64)
    (same : pointer + BitVec.ofNat 64 first = pointer + BitVec.ofNat 64 second) :
    first = second := by
  have offsets := congrArg BitVec.toNat ((BitVec.add_right_inj pointer).mp same)
  rw [BitVec.toNat_ofNat, BitVec.toNat_ofNat] at offsets
  omega

theorem copyBytes_outside {count : Nat} (outside : ∀ k < count, address ≠ b + BitVec.ofNat 64 k) :
    copyBytes count b contentPointer space address = space address := by
  induction count generalizing b contentPointer space with
  | zero => rfl
  | succ count ih =>
      have first : address ≠ b := by
        have := outside 0 (by omega)
        rwa [BitVec.add_zero] at this
      rw [copyBytes, ih, update_of_ne first]
      intro k below
      rw [add_one_add_ofNat]
      exact outside (k + 1) (by omega)

theorem copyBytes_inside {count : Nat} (countLt : count < 2 ^ 64)
    (apart : ∀ k < count, ∀ l < count, contentPointer + BitVec.ofNat 64 l ≠ b + BitVec.ofNat 64 k)
    {k : Nat} (below : k < count) :
    copyBytes count b contentPointer space (b + BitVec.ofNat 64 k) =
      space (contentPointer + BitVec.ofNat 64 k) := by
  induction count generalizing b contentPointer space k with
  | zero => omega
  | succ count ih =>
      rw [copyBytes]
      cases k with
      | zero =>
          rw [copyBytes_outside, BitVec.add_zero, BitVec.add_zero, update_self]
          intro l lLt same
          rw [add_one_add_ofNat] at same
          have := ofNat_add_inj (by omega) (by omega) same
          omega
      | succ k =>
          have first := apart 0 (by omega) (k + 1) below
          rw [BitVec.add_zero] at first
          have rest : ∀ i < count, ∀ l < count,
              contentPointer + 1#64 + BitVec.ofNat 64 l ≠ b + 1#64 + BitVec.ofNat 64 i := by
            intro i iLt l lLt
            rw [add_one_add_ofNat, add_one_add_ofNat]
            exact apart (i + 1) (by omega) (l + 1) (by omega)
          have kLt : k < count := by omega
          rw [← add_one_add_ofNat b k, ih (by omega) rest kLt, add_one_add_ofNat,
            update_of_ne first]

theorem ustarReadLoop_eq {size : Word} {left done : Nat} (offsetLe : offset.toNat ≤ size.toNat)
    (total : done + left = nbytes.toNat) (inside : done ≤ size.toNat - offset.toNat) :
    ustarReadLoop size nbytes offset left (BitVec.ofNat 64 done) b contentPointer space =
      (BitVec.ofNat 64 (min nbytes.toNat (size.toNat - offset.toNat)),
        copyBytes (min nbytes.toNat (size.toNat - offset.toNat) - done) b contentPointer space) := by
  have sizeLt := size.isLt
  have nbytesLt := nbytes.isLt
  induction left generalizing done b contentPointer space with
  | zero =>
      have finished : min nbytes.toNat (size.toNat - offset.toNat) = done := by omega
      rw [ustarReadLoop, finished, Nat.sub_self, copyBytes]
  | succ left ih =>
      have doneEq : (BitVec.ofNat 64 done).toNat = done := by
        rw [BitVec.toNat_ofNat]
        omega
      have more : (BitVec.ofNat 64 done < nbytes ∧ BitVec.ofNat 64 done + offset < size) ↔
          done < size.toNat - offset.toNat := by
        rw [BitVec.lt_def, BitVec.lt_def, BitVec.toNat_add, doneEq]
        omega
      rw [ustarReadLoop]
      by_cases continues : done < size.toNat - offset.toNat
      · have count : min nbytes.toNat (size.toNat - offset.toNat) - done =
            min nbytes.toNat (size.toNat - offset.toNat) - (done + 1) + 1 := by omega
        rw [if_pos (more.mpr continues), ← BitVec.ofNat_add, ih (by omega) (by omega), count,
          copyBytes]
      · have finished : min nbytes.toNat (size.toNat - offset.toNat) = done := by omega
        rw [if_neg (fun both => continues (more.mp both)), finished, Nat.sub_self, copyBytes]

end Copy

def Apart (start : Word) (length : Nat) (buf : Word) (count : Nat) : Prop :=
  ∀ k < count, ∀ i < length, start + BitVec.ofNat 64 i ≠ buf + BitVec.ofNat 64 k

def placedEntries (start : Word) (entries : List ArchiveEntry) : List (Word × ArchiveEntry) :=
  (headerAddresses start entries).zip entries

namespace Loaded

variable {space : ByteSpace}

theorem of_agree {other : ByteSpace} {bytes : List Byte} (loaded : Loaded space start bytes)
    (agree : ∀ i < bytes.length,
      other (start + BitVec.ofNat 64 i) = space (start + BitVec.ofNat 64 i)) :
    Loaded other start bytes where
  nonNull := loaded.nonNull
  fits := loaded.fits
  bytes_eq := by
    intro i below
    rw [loaded.bytes_eq i below, deref, deref, agree i below]

theorem placed (loaded : Loaded space start (archive entries)) {entry : ArchiveEntry}
    (member : (address, entry) ∈ placedEntries start entries) :
    Loaded space address entry.bytes ∧ ∃ offset, address = start + BitVec.ofNat 64 offset ∧
      offset + entry.bytes.length ≤ (archive entries).length := by
  induction entries generalizing start with
  | nil => cases member
  | cons first rest ih =>
      rw [placedEntries, headerAddresses, List.zip_cons_cons, List.mem_cons] at member
      have total : (archive (first :: rest)).length = first.bytes.length + (archive rest).length := by
        rw [archive, List.length_append]
      rcases member with isFirst | inRest
      · cases isFirst
        rw [archive] at loaded
        exact ⟨loaded.left, 0, by rw [BitVec.add_zero], by omega⟩
      · obtain ⟨here, offset, rfl, inside⟩ := ih (right loaded (archive_length_pos rest)) inRest
        refine ⟨here, first.bytes.length + offset, ?_, by omega⟩
        rw [BitVec.ofNat_add, BitVec.add_assoc]

/-- The lookup returns `NULL` or an entry of the archive. -/
theorem lookup_placed (loaded : Loaded space start (archive entries)) {searchedFile : Stream}
    {header : Word}
    (returned : tarFileLookupLoop space searchedFile fuel ⟨tarFilename, 0, start⟩ = some header)
    (nonNull : header ≠ 0#64) : ∃ entry, (header, entry) ∈ placedEntries start entries := by
  induction entries generalizing start tarFilename fuel with
  | nil =>
      have atEnd : tarFileLookupLoop space searchedFile (fuel + 3) ⟨tarFilename, 0, start⟩ =
          some 0#64 := tarFileLookupLoop_of_isZeroed rfl loaded.end_isZeroed fuel
      rw [tarFileLookupLoop_mono returned 3, Option.some.injEq] at atEnd
      exact absurd atEnd nonNull
  | cons first rest ih =>
      cases fuel with
      | zero => cases returned
      | succ fuel =>
          rw [tarFileLookupLoop, if_pos Nat.zero_lt_two, lookupRound,
            if_neg (by rw [loaded.head.not_isZeroed]; decide)] at returned
          dsimp only at returned
          rw [placedEntries, headerAddresses, List.zip_cons_cons]
          split at returned
          · next next round =>
            split at round
            · cases round
            · rw [Sum.inl.injEq] at round
              rw [← round, nextRecord_eq loaded.head] at returned
              obtain ⟨entry, member⟩ := ih (right loaded (archive_length_pos rest)) returned
              exact ⟨entry, List.mem_cons_of_mem _ member⟩
          · next found round =>
            split at round
            · rw [Sum.inr.injEq] at round
              rw [Option.some.injEq] at returned
              rw [← returned, ← round]
              exact ⟨first, List.mem_cons_self⟩
            · cases round

end Loaded

/-- The archive is in place and mounted at the root, and every open file is one
of its entries. -/
structure VfsState.Sound (start : Word) (entries : List ArchiveEntry) (block : Stream)
    (state : VfsState) : Prop where
  loaded : Loaded state.space start (archive entries)
  startEq : state.tarFsStartAddress = start
  mounted : state.mountedDevices = [⟨1#8, kstrcpy block 0 (stringStream [0x2f#8]) 512, .ustar⟩]
  files : ∀ i file, state.openFiles i = some file → ∃ entry,
    (file.header, entry) ∈ placedEntries start entries ∧
      file.size = BitVec.ofNat 64 entry.content.length

/-- A call of `vfs_open`, `vfs_close` or `vfs_read`; what is read does not
overwrite the archive. -/
inductive VfsState.Step (start : Word) (length : Nat) : VfsState → VfsState → Prop
  | opened {state after : VfsState} {stack : StackBytes} {fuel : Nat} {path : Stream}
      {result : Int} (returned : vfsOpen stack fuel state path = some (result, after)) :
      Step start length state after
  | closed {state after : VfsState} {fd : Nat} {result : Int}
      (returned : vfsClose state fd = some (result, after)) : Step start length state after
  | read {state after : VfsState} {fd : Nat} {buf nbytes count : Word}
      (returned : vfsRead state fd buf nbytes = some (count, after))
      (apart : Apart start length buf count.toNat) : Step start length state after

section Calls

variable {result : Int} {fileId : Nat} {buffer : Word}

theorem ustarOpen_cases (returned : ustarOpen tarFilename fuel state path = some (id, after)) :
    (id = -1 ∧ after = state) ∨
    ∃ slot file, slot < maxOpenFiles ∧ id = (slot : Int) ∧
      after = { state with openFiles := update state.openFiles slot (some file) } ∧
      ((isAlreadyOpen state path = some slot ∧ ∃ before, state.openFiles slot = some before ∧
          file.header = before.header ∧ file.size = before.size) ∨
        (tarFileLookup state.space path state.tarFsStartAddress tarFilename fuel =
            some file.header ∧ file.header ≠ 0#64 ∧
          file.size = octAsciiToDec (headerFileSize state.space file.header) 12#16)) := by
  cases ustarOpen_opened returned with
  | @reopened slot before already beforeEq =>
      exact .inr ⟨slot, _, (isAlreadyOpen_eq_some already).1, rfl, rfl,
        .inl ⟨already, before, beforeEq, rfl, rfl⟩⟩
  | @opened slot header notOpen found nonNull slotEq =>
      exact .inr ⟨slot, _, (findOpenId_eq_some slotEq).1, rfl, rfl, .inr ⟨found, nonNull, rfl⟩⟩
  | failed => exact .inl ⟨rfl, rfl⟩

/-- Whatever `vfs_open` returns, it has changed nothing outside the two tables,
and the table of open files only through the file system. -/
theorem vfsOpen_frame (returned : vfsOpen stack fuel state path = some (result, after)) :
    after = state ∨ ∃ mountpoint relPath id middle,
      vfsGetMountpoint state stack.mountpoint path = some mountpoint ∧
      mountpoint.operations.openFile stack.tarFilename fuel state relPath = some (id, middle) ∧
      after = { middle with vfsOpenedFiles := after.vfsOpenedFiles } := by
  cases vfsOpen_opened returned with
  | unmounted => exact .inl rfl
  | failed mounted _ opening => exact .inr ⟨_, _, _, _, mounted, opening, rfl⟩
  | full mounted _ opening => exact .inr ⟨_, _, _, _, mounted, opening, rfl⟩
  | opened mounted _ opening => exact .inr ⟨_, _, _, _, mounted, opening, rfl⟩

theorem vfsClose_frame (returned : vfsClose state fd = some (result, after)) :
    after = { state with openFiles := after.openFiles, vfsOpenedFiles := after.vfsOpenedFiles } ∧
      ∀ i file, after.openFiles i = some file → ∃ before, state.openFiles i = some before ∧
        file.header = before.header ∧ file.size = before.size := by
  rcases vfsClose_returns returned with ⟨-, -, rfl⟩ |
    ⟨-, -, mountpoint, middle, -, -, closeEq, rfl⟩
  · exact ⟨rfl, fun i file fileEq => ⟨file, fileEq, rfl, rfl⟩⟩
  · obtain ⟨-, closing, closingEq, rfl⟩ := ustarClose_eq_some closeEq
    refine ⟨rfl, ?_⟩
    intro i file fileEq
    dsimp only at fileEq
    by_cases same : i = (state.vfsOpenedFiles fd).fsFileId.toNat
    · rw [same, update_self] at fileEq
      split at fileEq
      · cases fileEq
      · rw [Option.some.injEq] at fileEq
        rw [same, ← fileEq]
        exact ⟨closing, closingEq, rfl, rfl⟩
    · rw [update_of_ne same] at fileEq
      exact ⟨file, fileEq, rfl, rfl⟩

theorem ustarRead_eq {file : UstarFile} (fileEq : state.openFiles fileId = some file)
    (inside : offset.toNat ≤ file.size.toNat) :
    ustarRead state fileId buffer nbytes offset =
      (BitVec.ofNat 64 (min nbytes.toNat (file.size.toNat - offset.toNat)),
        copyBytes (min nbytes.toNat (file.size.toNat - offset.toNat)) buffer
          (file.header + 512#64 + offset) state.space) := by
  have notBeyond : ¬file.size < offset := by
    rw [BitVec.lt_def]
    omega
  rw [ustarRead, fileEq]
  dsimp only
  rw [if_neg notBeyond]
  exact ustarReadLoop_eq inside (Nat.zero_add nbytes.toNat) (Nat.zero_le _)

theorem ustarRead_outside (returned : ustarRead state fileId buffer nbytes offset = (count, space))
    (outside : ∀ k < count.toNat, address ≠ buffer + BitVec.ofNat 64 k) :
    space address = state.space address := by
  cases fileEq : state.openFiles fileId with
  | none =>
      rw [ustarRead, fileEq, Prod.mk.injEq] at returned
      rw [← returned.2]
  | some file =>
      by_cases inside : offset.toNat ≤ file.size.toNat
      · rw [ustarRead_eq fileEq inside] at returned
        cases returned
        apply copyBytes_outside
        intro k below
        apply outside
        have sizeLt := file.size.isLt
        rw [BitVec.toNat_ofNat]
        omega
      · have beyond : file.size < offset := by
          rw [BitVec.lt_def]
          omega
        rw [ustarRead, fileEq] at returned
        dsimp only at returned
        rw [if_pos beyond, Prod.mk.injEq] at returned
        rw [← returned.2]

/-- What a call of `vfs_read` leaves alone. -/
theorem vfsRead_frame (returned : vfsRead state fd buf nbytes = some (count, after)) :
    after = { state with space := after.space, vfsOpenedFiles := after.vfsOpenedFiles } ∧
      (∀ i ≠ fd, after.vfsOpenedFiles i = state.vfsOpenedFiles i) ∧
      ∀ address, (∀ k < count.toNat, address ≠ buf + BitVec.ofNat 64 k) →
        after.space address = state.space address := by
  unfold vfsRead at returned
  dsimp only at returned
  split at returned
  · rw [Option.some.injEq, Prod.mk.injEq] at returned
    obtain ⟨-, rfl⟩ := returned
    exact ⟨rfl, fun _ _ => rfl, fun _ _ => rfl⟩
  · obtain ⟨mountpoint, -, returned⟩ := Option.bind_eq_some_iff.mp returned
    obtain ⟨⟨bytesRead, space⟩, readEq, returned⟩ := Option.bind_eq_some_iff.mp returned
    cases operations : mountpoint.operations with
    | unset =>
        rw [operations] at readEq
        cases readEq
    | ustar =>
        rw [operations, FsOperations.readFile, Option.some.injEq] at readEq
        dsimp only at returned
        split at returned
        · next isZero =>
          cases returned
          refine ⟨rfl, fun _ _ => rfl, fun address outside => ?_⟩
          apply ustarRead_outside readEq
          rw [isZero]
          exact outside
        · cases returned
          exact ⟨rfl, fun i different => update_of_ne different _ _,
            fun address outside => ustarRead_outside readEq outside⟩

end Calls

namespace VfsState

variable {block : Stream}

theorem Sound.openFile (sound : state.Sound start entries block)
    (returned : ustarOpen tarFilename fuel state path = some (id, after)) :
    after.Sound start entries block := by
  obtain ⟨-, rfl⟩ | ⟨slot, file, -, -, rfl, origin⟩ := ustarOpen_cases returned
  · exact sound
  · refine ⟨sound.loaded, sound.startEq, sound.mounted, ?_⟩
    intro i other otherEq
    dsimp only at otherEq
    by_cases same : i = slot
    · rw [same, update_self, Option.some.injEq] at otherEq
      rw [← otherEq]
      obtain ⟨-, before, beforeEq, headerEq, sizeEq⟩ | ⟨found, nonNull, sizeEq⟩ := origin
      · rw [headerEq, sizeEq]
        exact sound.files slot before beforeEq
      · rw [sound.startEq] at found
        obtain ⟨entry, placed⟩ := sound.loaded.lookup_placed found nonNull
        have here := (sound.loaded.placed placed).1
        rw [ArchiveEntry.bytes] at here
        exact ⟨entry, placed, sizeEq.trans here.left.fileSize_eq⟩
    · rw [update_of_ne same] at otherEq
      exact sound.files i other otherEq

theorem Sound.transfer (sound : state.Sound start entries block)
    (loaded : Loaded after.space start (archive entries))
    (startEq : after.tarFsStartAddress = state.tarFsStartAddress)
    (mounted : after.mountedDevices = state.mountedDevices)
    (files : ∀ i file, after.openFiles i = some file → ∃ before,
      state.openFiles i = some before ∧ file.header = before.header ∧ file.size = before.size) :
    after.Sound start entries block where
  loaded := loaded
  startEq := startEq.trans sound.startEq
  mounted := mounted.trans sound.mounted
  files := by
    intro i file fileEq
    obtain ⟨before, beforeEq, headerEq, sizeEq⟩ := files i file fileEq
    rw [headerEq, sizeEq]
    exact sound.files i before beforeEq

theorem Sound.read (sound : state.Sound start entries block)
    (returned : vfsRead state fd buf nbytes = some (count, after))
    (apart : Apart start (archive entries).length buf count.toNat) :
    after.Sound start entries block := by
  obtain ⟨frame, -, outside⟩ := vfsRead_frame returned
  have startEq := congrArg tarFsStartAddress frame
  have mounted := congrArg mountedDevices frame
  have openFiles := congrArg openFiles frame
  apply sound.transfer _ startEq mounted
  · intro i file fileEq
    rw [openFiles] at fileEq
    exact ⟨file, fileEq, rfl, rfl⟩
  · apply sound.loaded.of_agree
    intro i below
    exact outside _ fun k kLt => apart k kLt i below

theorem Sound.opened (sound : state.Sound start entries block) {stack : StackBytes} {fuel : Nat}
    {path : Stream} {result : Int} (returned : vfsOpen stack fuel state path = some (result, after)) :
    after.Sound start entries block := by
  obtain rfl | ⟨mountpoint, relPath, id, middle, mountEq, openEq, frame⟩ := vfsOpen_frame returned
  · exact sound
  · rw [vfsGetMountpoint_single sound.mounted, Option.some.injEq] at mountEq
    rw [← mountEq, FsOperations.openFile] at openEq
    rw [frame]
    exact (sound.openFile openEq).transfer (sound.openFile openEq).loaded rfl rfl
      fun i file fileEq => ⟨file, fileEq, rfl, rfl⟩

theorem Sound.step (sound : state.Sound start entries block)
    (step : Step start (archive entries).length state after) :
    after.Sound start entries block := by
  cases step with
  | opened returned => exact sound.opened returned
  | closed returned =>
      obtain ⟨frame, files⟩ := vfsClose_frame returned
      have spaceEq := congrArg space frame
      have startEq := congrArg tarFsStartAddress frame
      have mounted := congrArg mountedDevices frame
      apply sound.transfer _ startEq mounted files
      rw [spaceEq]
      exact sound.loaded
  | read returned apart => exact sound.read returned apart

theorem sound_of_run (loaded : Loaded space start (archive entries))
    (run : Relation.ReflTransGen (Step start (archive entries).length)
      (vfsInit space start block) state) : state.Sound start entries block := by
  induction run with
  | refl =>
      refine ⟨loaded, rfl, rfl, ?_⟩
      intro i file fileEq
      cases fileEq
  | tail _ step ih => exact ih.step step

/-- The descriptor `fd` reads the entry at `address`, of which `delivered` has
been read. -/
structure Reading (start : Word) (entries : List ArchiveEntry) (block : Stream) (fd : Nat)
    (address : Word) (entry : ArchiveEntry) (delivered : List Byte) (state : VfsState) : Prop
    extends state.Sound start entries block where
  placed : (address, entry) ∈ placedEntries start entries
  isOpen : (state.vfsOpenedFiles fd).fsFileId ≠ closedId
  mount : (state.vfsOpenedFiles fd).mountpointId = 1
  refers : ∃ references, state.openFiles (state.vfsOpenedFiles fd).fsFileId.toNat =
    some ⟨address, references, BitVec.ofNat 64 entry.content.length⟩
  position : (state.vfsOpenedFiles fd).bufReadPos = BitVec.ofNat 64 delivered.length
  isPrefix : delivered <+: entry.content

/-- Reads through the descriptor `fd`, each of at least one byte, interleaved
with reads through other descriptors.  The list is what has been delivered
through `fd`. -/
inductive ReadRun (start : Word) (length fd : Nat) (opened : VfsState) :
    List Byte → VfsState → Prop
  | refl : ReadRun start length fd opened [] opened
  | own {delivered : List Byte} {state after : VfsState} {buf nbytes count : Word}
      (run : ReadRun start length fd opened delivered state) (positive : nbytes ≠ 0#64)
      (returned : vfsRead state fd buf nbytes = some (count, after))
      (apart : Apart start length buf count.toNat) :
      ReadRun start length fd opened (delivered ++ readBytes after.space buf count.toNat) after
  | other {delivered : List Byte} {state after : VfsState} {other : Nat} {buf nbytes count : Word}
      (run : ReadRun start length fd opened delivered state) (different : other ≠ fd)
      (returned : vfsRead state other buf nbytes = some (count, after))
      (apart : Apart start length buf count.toNat) : ReadRun start length fd opened delivered after

/-- A descriptor is open for a file of the given size, and the next read starts at
the given position. -/
structure Positioned (fd : Nat) (address : Word) (size position : Nat) (state : VfsState) :
    Prop where
  isOpen : (state.vfsOpenedFiles fd).fsFileId ≠ closedId
  mounted : ∃ mountpoint,
    getMountpointById state (state.vfsOpenedFiles fd).mountpointId = some mountpoint ∧
      mountpoint.operations = .ustar
  refers : ∃ references, state.openFiles (state.vfsOpenedFiles fd).fsFileId.toNat =
    some ⟨address, references, BitVec.ofNat 64 size⟩
  atPosition : (state.vfsOpenedFiles fd).bufReadPos = BitVec.ofNat 64 position
  inside : position ≤ size
  sizeLt : size < 2 ^ 64

/-- How much a read delivers depends on the tables only. -/
theorem Positioned.vfsRead_eq {size position : Nat}
    (positioned : state.Positioned fd address size position) (buf nbytes : Word) :
    vfsRead state fd buf nbytes =
      some (BitVec.ofNat 64 (min nbytes.toNat (size - position)),
        { state with
          space := copyBytes (min nbytes.toNat (size - position)) buf
            (address + 512#64 + BitVec.ofNat 64 position) state.space
          vfsOpenedFiles := update state.vfsOpenedFiles fd
            { state.vfsOpenedFiles fd with
              bufReadPos := BitVec.ofNat 64 (position + min nbytes.toNat (size - position)) } }) := by
  obtain ⟨references, fileEq⟩ := positioned.refers
  obtain ⟨mountpoint, mountEq, isUstar⟩ := positioned.mounted
  have positionLe := positioned.inside
  have sizeLt := positioned.sizeLt
  have sizeEq : (BitVec.ofNat 64 size).toNat = size := by
    rw [BitVec.toNat_ofNat]
    omega
  have offsetEq : (BitVec.ofNat 64 position).toNat = position := by
    rw [BitVec.toNat_ofNat]
    omega
  have inside : (BitVec.ofNat 64 position).toNat ≤ (BitVec.ofNat 64 size).toNat := by omega
  have readEq : ustarRead state (state.vfsOpenedFiles fd).fsFileId.toNat buf nbytes
      (BitVec.ofNat 64 position) = _ := ustarRead_eq fileEq inside
  dsimp only at readEq
  rw [sizeEq, offsetEq] at readEq
  unfold vfsRead
  dsimp only
  rw [if_neg positioned.isOpen, mountEq, Option.bind_eq_bind, Option.bind_some, isUstar,
    FsOperations.readFile, positioned.atPosition, readEq, Option.bind_eq_bind, Option.bind_some]
  dsimp only
  by_cases atEnd : min nbytes.toNat (size - position) = 0
  · rw [atEnd, if_pos rfl, Nat.add_zero, ← positioned.atPosition, update_eq_self]
  · have nonzero : BitVec.ofNat 64 (min nbytes.toNat (size - position)) ≠ 0#64 := by
      intro isZero
      have := congrArg BitVec.toNat isZero
      rw [BitVec.toNat_ofNat, BitVec.toNat_ofNat] at this
      omega
    rw [if_neg nonzero, BitVec.ofNat_add]

namespace Reading

variable {fd : Nat} {address : Word} {entry : ArchiveEntry} {delivered : List Byte}

section

variable (reading : state.Reading start entries block fd address entry delivered)
include reading

theorem remaining :
    entry.content = delivered ++ entry.content.drop delivered.length := by
  obtain ⟨rest, whole⟩ := reading.isPrefix
  rw [← whole, List.drop_left]

theorem positioned :
    state.Positioned fd address entry.content.length delivered.length where
  isOpen := reading.isOpen
  mounted := by
    refine ⟨⟨1#8, kstrcpy block 0 (stringStream [0x2f#8]) 512, .ustar⟩, ?_, rfl⟩
    rw [reading.mount, getMountpointById, if_neg Nat.one_ne_zero, reading.mounted]
    rfl
  refers := reading.refers
  atPosition := reading.position
  inside := reading.isPrefix.length_le
  sizeLt := by
    have contentLt := entry.content_lt
    omega

theorem vfsRead_eq (buf nbytes : Word) :
    vfsRead state fd buf nbytes =
      some (BitVec.ofNat 64 (min nbytes.toNat (entry.content.length - delivered.length)),
        { state with
          space := copyBytes (min nbytes.toNat (entry.content.length - delivered.length)) buf
            (address + 512#64 + BitVec.ofNat 64 delivered.length) state.space
          vfsOpenedFiles := update state.vfsOpenedFiles fd
            { state.vfsOpenedFiles fd with
              bufReadPos := BitVec.ofNat 64 (delivered.length +
                min nbytes.toNat (entry.content.length - delivered.length)) } }) :=
  reading.positioned.vfsRead_eq buf nbytes

theorem readBytes_eq (apart : Apart start (archive entries).length buf
      (min nbytes.toNat (entry.content.length - delivered.length))) :
    readBytes (copyBytes (min nbytes.toNat (entry.content.length - delivered.length)) buf
        (address + 512#64 + BitVec.ofNat 64 delivered.length) state.space) buf
        (min nbytes.toNat (entry.content.length - delivered.length)) =
      (entry.content.drop delivered.length).take nbytes.toNat := by
  obtain ⟨here, offset, addressEq, inside⟩ := reading.loaded.placed reading.placed
  have deliveredLe := reading.isPrefix.length_le
  have contentLt := entry.content_lt
  have length := entry.length_bytes
  have source : ∀ k, address + 512#64 + BitVec.ofNat 64 delivered.length + BitVec.ofNat 64 k =
      address + BitVec.ofNat 64 (512 + (delivered.length + k)) := by
    intro k
    rw [BitVec.ofNat_add 512, BitVec.ofNat_add delivered.length, BitVec.add_assoc, BitVec.add_assoc]
  generalize countEq : min nbytes.toNat (entry.content.length - delivered.length) = count at apart ⊢
  have sourceApart : ∀ k < count, ∀ l < count,
      address + 512#64 + BitVec.ofNat 64 delivered.length + BitVec.ofNat 64 l ≠
        buf + BitVec.ofNat 64 k := by
    intro k kLt l lLt
    rw [source, addressEq, BitVec.add_assoc, ← BitVec.ofNat_add]
    exact apart k kLt _ (by omega)
  apply List.ext_getElem?
  intro k
  by_cases below : k < count
  · have char := here.bytes_eq (512 + (delivered.length + k)) (by omega)
    rw [ArchiveEntry.bytes, List.getElem?_append_right (by rw [entry.header_length]; omega),
      entry.header_length, Nat.add_sub_cancel_left, List.getElem?_append_left (by omega)] at char
    rw [readBytes, List.getElem?_map, List.getElem?_range below, Option.map_some, deref,
      copyBytes_inside (by omega) sourceApart below, source, List.getElem?_take_of_lt (by omega),
      List.getElem?_drop, char, deref]
  · have lengthRead : (readBytes (copyBytes count buf
        (address + 512#64 + BitVec.ofNat 64 delivered.length) state.space) buf count).length =
        count := by
      rw [readBytes, List.length_map, List.length_range]
    rw [List.getElem?_eq_none (by omega), List.getElem?_eq_none]
    rw [List.length_take, List.length_drop]
    omega

theorem own (returned : vfsRead state fd buf nbytes = some (count, after))
    (apart : Apart start (archive entries).length buf count.toNat) :
    after.Reading start entries block fd address entry
      (delivered ++ readBytes after.space buf count.toNat) := by
  have sound := reading.toSound.read returned apart
  have deliveredLe := reading.isPrefix.length_le
  have contentLt := entry.content_lt
  have countEq : (BitVec.ofNat 64
      (min nbytes.toNat (entry.content.length - delivered.length))).toNat =
        min nbytes.toNat (entry.content.length - delivered.length) := by
    rw [BitVec.toNat_ofNat]
    omega
  rw [reading.vfsRead_eq buf nbytes] at returned
  cases returned
  rw [countEq] at apart ⊢
  have chunk := reading.readBytes_eq apart
  have chunkLength : ((entry.content.drop delivered.length).take nbytes.toNat).length =
      min nbytes.toNat (entry.content.length - delivered.length) := by
    rw [List.length_take, List.length_drop]
  refine ⟨sound, reading.placed, ?_, ?_, ?_, ?_, ?_⟩
  · dsimp only
    rw [update_self]
    exact reading.isOpen
  · dsimp only
    rw [update_self]
    exact reading.mount
  · dsimp only
    rw [update_self]
    exact reading.refers
  · dsimp only
    rw [update_self, chunk, List.length_append, chunkLength]
  · dsimp only
    rw [chunk]
    nth_rewrite 2 [reading.remaining]
    exact (List.prefix_append_right_inj delivered).mpr (List.take_prefix _ _)

theorem other {other : Nat} (different : other ≠ fd)
    (returned : vfsRead state other buf nbytes = some (count, after))
    (apart : Apart start (archive entries).length buf count.toNat) :
    after.Reading start entries block fd address entry delivered := by
  have sound := reading.toSound.read returned apart
  obtain ⟨frame, others, -⟩ := vfsRead_frame returned
  have openFiles := congrArg openFiles frame
  have same := others fd different.symm
  refine ⟨sound, reading.placed, ?_, ?_, ?_, ?_, reading.isPrefix⟩
  · rw [same]
    exact reading.isOpen
  · rw [same]
    exact reading.mount
  · rw [same, openFiles]
    exact reading.refers
  · rw [same]
    exact reading.position

end

theorem run {opened : VfsState} (reading : opened.Reading start entries block fd address entry [])
    (run : ReadRun start (archive entries).length fd opened delivered state) :
    state.Reading start entries block fd address entry delivered := by
  induction run with
  | refl => exact reading
  | own _ _ returned apart ih => exact ih.own returned apart
  | other _ different returned apart ih => exact ih.other different returned apart

end Reading

/-- The descriptor that `vfs_open` returns reads an entry of the archive from
its start on. -/
theorem Sound.reading (sound : state.Sound start entries block)
    (returned : vfsOpen stack fuel state path = some ((fd : Int), after)) :
    ∃ relPath address entry,
      getRelPath fuel (kstrcpy block 0 (stringStream [0x2f#8]) 512) path = some relPath ∧
      (isAlreadyOpen state relPath = none →
        tarFileLookup state.space relPath start stack.tarFilename fuel = some address) ∧
      after.Reading start entries block fd address entry [] := by
  have afterSound := sound.opened returned
  obtain ⟨mountpoint, relPath, id, middle, fileSize, mountEq, relEq, openEq, valid, -, -, rfl⟩ :=
    vfsOpen_eq_some returned
  rw [vfsGetMountpoint_single sound.mounted, Option.some.injEq] at mountEq
  rw [← mountEq] at relEq
  rw [← mountEq, FsOperations.openFile] at openEq
  obtain ⟨isError, -⟩ | ⟨slot, file, slotLt, rfl, rfl, origin⟩ := ustarOpen_cases openEq
  · exact absurd isError valid
  · rw [maxOpenFiles] at slotLt
    have idEq : (BitVec.ofInt 64 (slot : Int)).toNat = slot := by
      rw [BitVec.ofInt_natCast, BitVec.toNat_ofNat]
      omega
    have fileEq : update state.openFiles slot (some file) slot = some file :=
      update_self ..
    obtain ⟨entry, placed, sizeEq⟩ := afterSound.files slot file fileEq
    refine ⟨relPath, file.header, entry, relEq, ?_, afterSound, placed, ?_, ?_, ?_, ?_, ?_⟩
    · intro notOpen
      obtain ⟨already, -⟩ | ⟨found, -, -⟩ := origin
      · rw [notOpen] at already
        cases already
      · rw [sound.startEq] at found
        exact found
    · dsimp only
      rw [update_self]
      intro isClosed
      have := congrArg BitVec.toNat isClosed
      rw [idEq, closedId, BitVec.toNat_allOnes] at this
      omega
    · dsimp only
      rw [update_self, ← mountEq]
      rfl
    · dsimp only
      rw [update_self, idEq, fileEq, ← sizeEq]
      exact ⟨file.references, rfl⟩
    · dsimp only
      rw [update_self]
      rfl
    · exact List.nil_prefix

end VfsState

/-- Reading an open file in pieces of any size delivers its content in order,
whatever is read through other descriptors in between. -/
theorem chunked_reads_reassemble {space : ByteSpace} {start : Word} {entries : List ArchiveEntry}
    {block : Stream} {state opened : VfsState} {stack : StackBytes} {fuel fd : Nat} {path : Stream}
    (loaded : Loaded space start (archive entries))
    (run : Relation.ReflTransGen (VfsState.Step start (archive entries).length)
      (vfsInit space start block) state)
    (returned : vfsOpen stack fuel state path = some ((fd : Int), opened)) :
    ∃ relPath address entry,
      getRelPath fuel (kstrcpy block 0 (stringStream [0x2f#8]) 512) path = some relPath ∧
      (isAlreadyOpen state relPath = none →
        tarFileLookup state.space relPath start stack.tarFilename fuel = some address) ∧
      (address, entry) ∈ placedEntries start entries ∧
      (∃ file, opened.openFiles (opened.vfsOpenedFiles fd).fsFileId.toNat = some file ∧
        file.header = address) ∧
      ∀ delivered current,
        VfsState.ReadRun start (archive entries).length fd opened delivered current →
        delivered <+: entry.content ∧
        (current.vfsOpenedFiles fd).bufReadPos = BitVec.ofNat 64 delivered.length ∧
        ∀ buf nbytes : Word, nbytes ≠ 0#64 →
          Apart start (archive entries).length buf
            (min nbytes.toNat (entry.content.length - delivered.length)) →
          ∃ count after, vfsRead current fd buf nbytes = some (count, after) ∧
            count.toNat = min nbytes.toNat (entry.content.length - delivered.length) ∧
            readBytes after.space buf count.toNat =
              (entry.content.drop delivered.length).take nbytes.toNat ∧
            (count = 0#64 ↔ delivered = entry.content) := by
  obtain ⟨relPath, address, entry, relEq, found, reading⟩ :=
    (VfsState.sound_of_run loaded run).reading returned
  obtain ⟨references, fileEq⟩ := reading.refers
  refine ⟨relPath, address, entry, relEq, found, reading.placed, ⟨_, fileEq, rfl⟩, ?_⟩
  intro delivered current reads
  have current := reading.run reads
  refine ⟨current.isPrefix, current.position, ?_⟩
  intro buf nbytes positive apart
  have deliveredLe := current.isPrefix.length_le
  have contentLt := entry.content_lt
  have countEq : (BitVec.ofNat 64
      (min nbytes.toNat (entry.content.length - delivered.length))).toNat =
        min nbytes.toNat (entry.content.length - delivered.length) := by
    rw [BitVec.toNat_ofNat]
    omega
  refine ⟨_, _, current.vfsRead_eq buf nbytes, countEq, ?_, ?_⟩
  · rw [countEq]
    exact current.readBytes_eq apart
  · have nbytesPos : nbytes.toNat ≠ 0 := fun isZero => positive (BitVec.eq_of_toNat_eq isZero)
    rw [← BitVec.toNat_inj, countEq]
    constructor
    · intro atEnd
      have atEnd : min nbytes.toNat (entry.content.length - delivered.length) = 0 := atEnd
      exact current.isPrefix.eq_of_length (by omega)
    · intro whole
      have lengthEq := congrArg List.length whole
      change min nbytes.toNat (entry.content.length - delivered.length) = 0
      omega

def greetingFile : ArchiveEntry :=
  ustarEntry [0x61#8] [] [0x68#8, 0x69#8] letterName_length noInit_length (by decide)

def greetingVfs : VfsState :=
  vfsInit (imageSpace 0x10000#64 (archive [greetingFile])) 0x10000#64 (fun _ => 0#8)

theorem greeting_length : (archive [greetingFile]).length = 2048 := by
  simp only [archive, greetingFile, List.length_append, length_ustarEntry_bytes,
    List.length_replicate, List.length_cons, List.length_nil]

theorem greeting_loaded :
    Loaded (imageSpace 0x10000#64 (archive [greetingFile])) 0x10000#64
      (archive [greetingFile]) := by
  apply loaded_imageSpace (by decide)
  rw [greeting_length]
  decide

theorem greeting_names :
    greetingFile.filenamePrefix = [] ∧ greetingFile.filename = [0x61#8] :=
  ⟨filenamePrefix_ustarEntry (by decide), filename_ustarEntry (by decide)⟩

theorem greeting_path : Holds (advance 1 (stringStream [0x2f#8, 0x61#8])) [0x61#8] :=
  ⟨by decide, by decide, by decide⟩

theorem greeting_found :
    tarFileLookup (imageSpace 0x10000#64 (archive [greetingFile]))
      (advance 1 (stringStream [0x2f#8, 0x61#8])) 0x10000#64 (fun _ => 0#8) 4 =
        some 0x10000#64 := by
  obtain ⟨noPrefix, name⟩ := greeting_names
  have fullName : greetingFile.fullName = [0x61#8] := by
    rw [ArchiveEntry.fullName, if_pos noPrefix, name]
  have compared : greetingFile.assembledName 0#8 = [0x61#8].take 256 :=
    (ArchiveEntry.assembledName_of_plain noPrefix (by rw [name]; decide) (by rw [name]; decide)
      0#8 [0x61#8]).mpr fullName
  have first : firstMatch (fun entry => decide (entry.assembledName 0#8 = [0x61#8].take 256))
      0x10000#64 [greetingFile] = 0x10000#64 := by
    rw [firstMatch, if_pos (decide_eq_true compared)]
  rw [← first]
  exact tarFileLookupLoop_eq greeting_loaded greeting_path (fun _ => 0#8)

theorem greeting_notOpen :
    isAlreadyOpen greetingVfs (advance 1 (stringStream [0x2f#8, 0x61#8])) = none := by
  rw [isAlreadyOpen, List.find?_eq_none]
  intro i _
  exact Bool.false_ne_true

theorem greeting_id : findOpenId greetingVfs = some 0 :=
  find?_range_of_first (by decide) rfl (by omega)

theorem greeting_open :
    ∃ opened, vfsOpen ⟨fun _ => 0#8, fun _ => 0#8⟩ 4 greetingVfs (stringStream [0x2f#8, 0x61#8]) =
      some (((0 : Nat) : Int), opened) := by
  have relEq : getRelPath 4 (kstrcpy (fun _ => 0#8) 0 (stringStream [0x2f#8]) 512)
      (stringStream [0x2f#8, 0x61#8]) = some (advance 1 (stringStream [0x2f#8, 0x61#8])) :=
    getRelPath_root rfl (by decide)
  have slotEq : findFreeSlot greetingVfs = some 0 :=
    find?_range_of_first (by decide) rfl (by omega)
  exact ⟨_, vfsOpen_of_found rfl rfl relEq greeting_notOpen greeting_found (by decide)
    greeting_id slotEq greeting_loaded.head.fileSize_eq⟩

theorem chunked_reads_reassemble_greeting :
    ∃ opened count after,
      vfsOpen ⟨fun _ => 0#8, fun _ => 0#8⟩ 4 greetingVfs (stringStream [0x2f#8, 0x61#8]) =
        some (((0 : Nat) : Int), opened) ∧
      vfsRead opened 0 0x20000#64 2#64 = some (count, after) ∧ count.toNat = 2 ∧
      readBytes after.space 0x20000#64 2 = [0x68#8, 0x69#8] := by
  obtain ⟨opened, returned⟩ := greeting_open
  obtain ⟨relPath, address, entry, -, -, placed, -, reads⟩ :=
    chunked_reads_reassemble greeting_loaded Relation.ReflTransGen.refl returned
  have entryEq : entry = greetingFile := by
    rw [placedEntries, headerAddresses, headerAddresses, List.zip_cons_cons, List.zip_nil_left,
      List.mem_singleton, Prod.mk.injEq] at placed
    exact placed.2
  obtain ⟨-, -, next⟩ := reads [] opened .refl
  have content : greetingFile.content = [0x68#8, 0x69#8] := rfl
  rw [entryEq, content] at next
  have apart : Apart 0x10000#64 (archive [greetingFile]).length 0x20000#64 2 := by
    intro k kLt i iLt same
    rw [greeting_length] at iLt
    have addresses := congrArg BitVec.toNat same
    simp only [BitVec.toNat_add, BitVec.toNat_ofNat] at addresses
    omega
  obtain ⟨count, after, readEq, countEq, bytes, -⟩ := next 0x20000#64 2#64 (by decide) apart
  have countEq : count.toNat = 2 := countEq
  rw [countEq] at bytes
  exact ⟨opened, count, after, returned, readEq, countEq, bytes⟩

end MmdOS
