import MmdOS.UstarLookup
import Mathlib.Data.Set.Insert

/-!
# Open files

The virtual file system keeps a table of descriptors, and the archive driver a
table of open files with reference counts.  A descriptor names an open file by
its index there.  The first open file has the index zero, and zero is also
what marks a descriptor as free.
-/

namespace MmdOS

open CString
open Function (update)

structure UstarFile where
  header : Word
  references : BitVec 16
  size : Word
  deriving DecidableEq

/-- `file_descriptor_t`, without the fields that are never set. -/
structure FileDescriptor where
  fsFileId : Word
  mountpointId : Nat
  bufReadPos : Word
  bufWritePos : Word
  fileSize : Word
  deriving DecidableEq

inductive FsOperations
  | unset
  | ustar

/-- `mountpoint_t`; the path stands for all bytes from its field on. -/
structure Mountpoint where
  id : BitVec 8
  mountpoint : Stream
  operations : FsOperations

/-- Memory and the global variables of `vfs.c` and `ustar.c`. -/
structure VfsState where
  space : ByteSpace
  tarFsStartAddress : Word
  openFiles : Nat → Option UstarFile
  mountedDevices : List Mountpoint
  nextMountpointId : Nat
  vfsOpenedFiles : Nat → FileDescriptor

/-- What the uninitialised buffers on the stack hold. -/
structure StackBytes where
  mountpoint : Stream
  tarFilename : Stream

/-- `MAX_USTAR_OPEN_FILES` and `MAX_OPENED_FILES` -/
def maxOpenFiles : Nat := 512

def closedId : Word := BitVec.allOnes 64

section Ustar

/-- The name that `is_already_open` compares.  Without a prefix it copies the
empty prefix instead of the file name. -/
def openFileName (space : ByteSpace) (header : Word) : Stream :=
  if headerFilenamePrefix space header 0 ≠ 0#8 then
    kstrcpy (kstrcpy (fun _ => 0#8) 0 (headerFilenamePrefix space header) 155) 155
      (headerFilename space header) 100
  else kstrcpy (fun _ => 0#8) 0 (headerFilenamePrefix space header) 155

/-- `is_already_open`; no result stands for -1. -/
def isAlreadyOpen (state : VfsState) (name : Stream) : Option Nat :=
  (List.range maxOpenFiles).find? fun i =>
    match state.openFiles i with
    | some file =>
        decide (0#16 < file.references) &&
          kstrcmp (openFileName state.space file.header) name 256#32
    | none => false

def findOpenId (state : VfsState) : Option Nat :=
  (List.range maxOpenFiles).find? fun i => (state.openFiles i).isNone

/-- `ustar_open`.  No result means that the lookup is still running. -/
def ustarOpen (tarFilename : Stream) (fuel : Nat) (state : VfsState) (path : Stream) :
    Option (Int × VfsState) :=
  match isAlreadyOpen state path with
  | some id =>
      let reopened := (state.openFiles id).map fun file =>
        { file with references := file.references + 1#16 }
      some (id, { state with openFiles := update state.openFiles id reopened })
  | none => do
      let header ← tarFileLookup state.space path state.tarFsStartAddress tarFilename fuel
      if header = 0#64 then some (-1, state)
      else
        match findOpenId state with
        | none => some (-1, state)
        | some id =>
            let file : UstarFile :=
              { header
                references := 1#16
                size := octAsciiToDec (headerFileSize state.space header) 12#16 }
            some (id, { state with openFiles := update state.openFiles id (some file) })

/-- The loop of `ustar_read`, which copies byte by byte. -/
def ustarReadLoop (size nbytes offset : Word) :
    (left : Nat) → (i b contentPointer : Word) → ByteSpace → Word × ByteSpace
  | 0, i, _, _, space => (i, space)
  | left + 1, i, b, contentPointer, space =>
      if i < nbytes ∧ i + offset < size then
        ustarReadLoop size nbytes offset left (i + 1#64) (b + 1#64) (contentPointer + 1#64)
          (update space b (space contentPointer))
      else (i, space)

/-- `ustar_read`; the loop makes at most `nbytes` rounds. -/
def ustarRead (state : VfsState) (fileId : Nat) (buffer nbytes offset : Word) :
    Word × ByteSpace :=
  match state.openFiles fileId with
  | none => (0#64, state.space)
  | some file =>
      if file.size < offset then (0#64, state.space)
      else
        ustarReadLoop file.size nbytes offset nbytes.toNat 0#64 buffer
          (file.header + 512#64 + offset) state.space

/-- `ustar_close`; closing a file that is not open dereferences `NULL`. -/
def ustarClose (state : VfsState) (fileId : Nat) : Option (Int × VfsState) := do
  let file ← state.openFiles fileId
  let references := file.references - 1#16
  let kept := if references < 1#16 then none else some { file with references }
  some (0, { state with openFiles := update state.openFiles fileId kept })

def ustarGetFileSize (state : VfsState) (fileId : Nat) : Option Word :=
  (state.openFiles fileId).map UstarFile.size

end Ustar

namespace FsOperations

/-- A call through a function pointer that is not set does not return. -/
def openFile : FsOperations → Stream → Nat → VfsState → Stream → Option (Int × VfsState)
  | unset, _, _, _, _ => none
  | ustar, tarFilename, fuel, state, path => ustarOpen tarFilename fuel state path

def closeFile : FsOperations → VfsState → Nat → Option (Int × VfsState)
  | unset, _, _ => none
  | ustar, state, fileId => ustarClose state fileId

def readFile : FsOperations → VfsState → Nat → Word → Word → Word → Option (Word × ByteSpace)
  | unset, _, _, _, _, _ => none
  | ustar, state, fileId, buffer, nbytes, offset =>
      some (ustarRead state fileId buffer nbytes offset)

def getFileSize : FsOperations → VfsState → Nat → Option Word
  | unset, _, _ => none
  | ustar, state, fileId => ustarGetFileSize state fileId

end FsOperations

section Vfs

/-- `vfs_mount`.  The path field of the new block holds `block` before. -/
def vfsMount (state : VfsState) (block target fsType : Stream) : VfsState :=
  let mountpoint : Mountpoint :=
    { id := BitVec.ofNat 8 state.nextMountpointId
      mountpoint := kstrcpy block 0 target 512
      operations := if kstrcmp fsType (stringStream [0x75#8, 0x73#8, 0x74#8, 0x61#8, 0x72#8]) 5#32
        then .ustar else .unset }
  { state with
    nextMountpointId := state.nextMountpointId + 1
    mountedDevices := state.mountedDevices ++ [mountpoint] }

/-- `vfs_init` with the address of the boot module. -/
def vfsInit (space : ByteSpace) (moduleAddress : Word) (block : Stream) : VfsState :=
  vfsMount
    { space
      tarFsStartAddress := moduleAddress
      openFiles := fun _ => none
      mountedDevices := []
      nextMountpointId := 1
      vfsOpenedFiles := fun _ => ⟨0#64, 0, 0#64, 0#64, 0#64⟩ }
    block (stringStream [0x2f#8]) (stringStream [0x75#8, 0x73#8, 0x74#8, 0x61#8, 0x72#8])

/-- The inner loop of `vfs_get_mountpoint`: the first position at which the
path and the mount point differ. -/
def firstDifference (path mountpoint : Stream) : (left j : Nat) → Option Nat
  | 0, _ => none
  | left + 1, j =>
      if path j = mountpoint j then firstDifference path mountpoint left (j + 1) else some j

/-- The outer loop of `vfs_get_mountpoint` from the device `i` on. -/
def longestMountpoint (path : Stream) : List Mountpoint → (i : Nat) → (mountpoint : Stream) →
    (longest id : Nat) → Nat
  | [], _, _, _, id => id
  | device :: devices, i, mountpoint, longest, id =>
      let mountpoint := kstrcpy mountpoint 0 device.mountpoint 512
      match firstDifference path mountpoint 512 0 with
      | some j =>
          if longest < j then longestMountpoint path devices (i + 1) mountpoint j i
          else longestMountpoint path devices (i + 1) mountpoint longest id
      | none => longestMountpoint path devices (i + 1) mountpoint longest id

def vfsGetMountpoint (state : VfsState) (mountpoint path : Stream) : Option Mountpoint :=
  state.mountedDevices[longestMountpoint path state.mountedDevices 0 mountpoint 0 0]?

/-- `get_mountpoint_by_id`; the ids start at one. -/
def getMountpointById (state : VfsState) (mountpointId : Nat) : Option Mountpoint :=
  if mountpointId = 0 then none else state.mountedDevices[mountpointId - 1]?

/-- `get_rel_path`.  Its tests for the end of a string compare a character with
the address of a literal, so the loop stops only where the strings differ. -/
def getRelPath : (fuel : Nat) → (mPath path : Stream) → Option Stream
  | 0, _, _ => none
  | fuel + 1, mPath, path =>
      if mPath 0 = path 0 then getRelPath fuel (advance 1 mPath) (advance 1 path) else some path

/-- The first descriptor that `vfs_open` takes for free. -/
def findFreeSlot (state : VfsState) : Option Nat :=
  (List.range maxOpenFiles).find? fun i => (state.vfsOpenedFiles i).fsFileId = 0#64

/-- `vfs_open`.  No result means that the call does not return within the given
fuel. -/
def vfsOpen (stack : StackBytes) (fuel : Nat) (state : VfsState) (path : Stream) :
    Option (Int × VfsState) :=
  match vfsGetMountpoint state stack.mountpoint path with
  | none => some (-1, state)
  | some mountpoint => do
      let relPath ← getRelPath fuel mountpoint.mountpoint path
      let (fsSpecificId, state) ← mountpoint.operations.openFile stack.tarFilename fuel state relPath
      if fsSpecificId = -1 then some (-1, state)
      else
        match findFreeSlot state with
        | none => some (-1, state)
        | some vfsId => do
            let fileSize ← mountpoint.operations.getFileSize state fsSpecificId.toNat
            let fileDescriptor : FileDescriptor :=
              { fsFileId := BitVec.ofInt 64 fsSpecificId
                mountpointId := mountpoint.id.toNat
                bufReadPos := 0#64
                bufWritePos := 0#64
                fileSize }
            some (vfsId, { state with
              vfsOpenedFiles := update state.vfsOpenedFiles vfsId fileDescriptor })

def vfsClose (state : VfsState) (fileDescriptorId : Nat) : Option (Int × VfsState) :=
  let file := state.vfsOpenedFiles fileDescriptorId
  if file.fsFileId = closedId then some (0, state)
  else do
    let mountpoint ← getMountpointById state file.mountpointId
    let (fsCloseResult, state) ← mountpoint.operations.closeFile state file.fsFileId.toNat
    if fsCloseResult = 0 then
      some (0, { state with
        vfsOpenedFiles := update state.vfsOpenedFiles fileDescriptorId
          { state.vfsOpenedFiles fileDescriptorId with fsFileId := closedId } })
    else some (-1, state)

def vfsRead (state : VfsState) (fileDescriptorId : Nat) (buf nbytes : Word) :
    Option (Word × VfsState) :=
  let file := state.vfsOpenedFiles fileDescriptorId
  if file.fsFileId = closedId then some (0#64, state)
  else do
    let mountpoint ← getMountpointById state file.mountpointId
    let (bytesRead, space) ←
      mountpoint.operations.readFile state file.fsFileId.toNat buf nbytes file.bufReadPos
    if bytesRead = 0#64 then some (0#64, { state with space })
    else
      some (bytesRead, { state with
        space
        vfsOpenedFiles := update state.vfsOpenedFiles fileDescriptorId
          { file with bufReadPos := file.bufReadPos + bytesRead } })

end Vfs

end MmdOS
