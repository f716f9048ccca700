import MmdOS.CommonPrefix
import MmdOS.VfsFiles

/-!
# Mount points and relative paths

`vfs_get_mountpoint` takes the first device that shares the most characters with
the path.  It does not ask whether all of the mount point was matched.
`get_rel_path` passes the characters that the path shares with the mount point.
Neither function notices the end of the strings, so both go on behind it where
the path equals the mount point.
-/

namespace MmdOS

open CString

variable {path mPath : Stream} {fuel : Nat} {string : List Byte}

def Mountpoint.name (device : Mountpoint) : List Byte :=
  text 512 device.mountpoint

/-- A path consists of whole components at the beginning of another one. -/
def IsComponentPrefix (mount path : List Byte) : Prop :=
  mount <+: path ∧
    (mount = path ∨ mount.getLast? = some 0x2f#8 ∨ path[mount.length]? = some 0x2f#8)

/-- The mount points are absolute paths that fit into their fields, and there
are at most `MAX_MOUNTPOINTS` of them. -/
structure MountTable (devices : List Mountpoint) : Prop where
  count : devices.length ≤ 12
  short : ∀ device ∈ devices, device.name.length < 512
  absolute : ∀ device ∈ devices, device.name.head? = some 0x2f#8

def relPathOffset : (fuel : Nat) → (mPath path : Stream) → Option Nat
  | 0, _, _ => none
  | fuel + 1, mPath, path =>
      if mPath 0 = path 0 then
        (relPathOffset fuel (advance 1 mPath) (advance 1 path)).map Nat.succ
      else some 0

/-- The positions of the path that the inner loop of `vfs_get_mountpoint` reads. -/
def differenceReads (path mountpoint : Stream) : (left j : Nat) → List Nat
  | 0, _ => []
  | left + 1, j =>
      j :: if path j = mountpoint j then differenceReads path mountpoint left (j + 1) else []

def mountpointReads (path : Stream) : List Mountpoint → (mountpoint : Stream) → List Nat
  | [], _ => []
  | device :: devices, mountpoint =>
      let mountpoint := kstrcpy mountpoint 0 device.mountpoint 512
      differenceReads path mountpoint 512 0 ++ mountpointReads path devices mountpoint

section Differences

variable {mountpoint : Stream} {left j k offset : Nat}

theorem firstDifference_eq_some :
    firstDifference path mountpoint left j = some k ↔
      j ≤ k ∧ k < j + left ∧ (∀ i, j ≤ i → i < k → path i = mountpoint i) ∧
        path k ≠ mountpoint k := by
  induction left generalizing j with
  | zero =>
      rw [firstDifference]
      constructor
      · intro isSome
        cases isSome
      · omega
  | succ left ih =>
      rw [firstDifference]
      by_cases same : path j = mountpoint j
      · rw [if_pos same, ih]
        constructor
        · rintro ⟨lower, upper, agree, differ⟩
          refine ⟨by omega, by omega, fun i above below => ?_, differ⟩
          rcases Nat.lt_or_eq_of_le above with later | rfl
          · exact agree i later below
          · exact same
        · rintro ⟨lower, upper, agree, differ⟩
          have notHere : j ≠ k := fun here => differ (here ▸ same)
          exact ⟨by omega, by omega, fun i above below => agree i (by omega) below, differ⟩
      · rw [if_neg same, Option.some.injEq]
        constructor
        · rintro rfl
          exact ⟨Nat.le_refl _, by omega, fun i above below => absurd below (by omega), same⟩
        · rintro ⟨lower, -, agree, -⟩
          by_contra other
          exact same (agree j (Nat.le_refl _) (by omega))

theorem map_relPathOffset (fuel j : Nat) (mPath path : Stream) :
    (relPathOffset fuel (advance j mPath) (advance j path)).map (· + j) =
      firstDifference path mPath fuel j := by
  induction fuel generalizing j with
  | zero => rfl
  | succ fuel ih =>
      rw [relPathOffset, firstDifference, advance_apply, advance_apply, Nat.zero_add]
      by_cases same : path j = mPath j
      · rw [if_pos same.symm, if_pos same, ← ih (j + 1), Option.map_map]
        have shift : (· + j) ∘ Nat.succ = (· + (j + 1)) :=
          funext fun offset => Nat.succ_add_eq_add_succ offset j
        rw [shift, advance_succ, advance_succ]
      · rw [if_neg (Ne.symm same), if_neg same, Option.map_some, Nat.zero_add]

theorem relPathOffset_eq (fuel : Nat) (mPath path : Stream) :
    relPathOffset fuel mPath path = firstDifference path mPath fuel 0 := by
  rw [← map_relPathOffset]
  exact Option.map_id'.symm

theorem getRelPath_eq_map (fuel : Nat) (mPath path : Stream) :
    getRelPath fuel mPath path =
      (relPathOffset fuel mPath path).map fun offset => advance offset path := by
  induction fuel generalizing mPath path with
  | zero => rfl
  | succ fuel ih =>
      by_cases same : mPath 0 = path 0
      · rw [getRelPath, relPathOffset, if_pos same, if_pos same, ih, Option.map_map]
        rfl
      · rw [getRelPath, relPathOffset, if_neg same, if_neg same]
        rfl

theorem mem_differenceReads {position : Nat} :
    position ∈ differenceReads path mountpoint left j ↔
      j ≤ position ∧ position < j + left ∧
        ∀ i, j ≤ i → i < position → path i = mountpoint i := by
  induction left generalizing j with
  | zero =>
      rw [differenceReads]
      constructor
      · intro member
        cases member
      · omega
  | succ left ih =>
      rw [differenceReads, List.mem_cons]
      by_cases same : path j = mountpoint j
      · rw [if_pos same, ih]
        constructor
        · rintro (rfl | ⟨lower, upper, agree⟩)
          · exact ⟨Nat.le_refl _, by omega, fun i above below => absurd below (by omega)⟩
          · refine ⟨by omega, by omega, fun i above below => ?_⟩
            rcases Nat.lt_or_eq_of_le above with later | rfl
            · exact agree i later below
            · exact same
        · rintro ⟨lower, upper, agree⟩
          rcases Nat.lt_or_eq_of_le lower with later | rfl
          · exact .inr ⟨later, by omega, fun i above below => agree i (by omega) below⟩
          · exact .inl rfl
      · rw [if_neg same]
        constructor
        · rintro (rfl | member)
          · exact ⟨Nat.le_refl _, by omega, fun i above below => absurd below (by omega)⟩
          · cases member
        · rintro ⟨lower, -, agree⟩
          by_contra notHere
          rw [not_or] at notHere
          exact same (agree j (Nat.le_refl _) (by omega))

end Differences

section RelativePath

variable {mount : List Byte}

def ReturnsSuffix (mPath path : Stream) (length : Nat) (suffix : List Byte) : Prop :=
  ∃ offset rounds, (∀ fuel ≥ rounds, relPathOffset fuel mPath path = some offset ∧
      getRelPath fuel mPath path = some (advance offset path)) ∧
    offset ≤ length ∧ Holds (advance offset path) suffix

theorem getRelPath_of_offset {offset : Nat} (advanced : relPathOffset fuel mPath path = some offset) :
    getRelPath fuel mPath path = some (advance offset path) := by
  rw [getRelPath_eq_map, advanced, Option.map_some]

/-- Different strings part behind their common part. -/
theorem relPathOffset_of_ne (mountHolds : Holds mPath mount) (holds : Holds path string)
    (different : mount ≠ string) (enough : shared mount string < fuel) :
    relPathOffset fuel mPath path = some (shared mount string) := by
  rw [relPathOffset_eq, firstDifference_eq_some]
  exact ⟨Nat.zero_le _, by omega, fun i _ below => (mountHolds.agree holds below).symm,
    (mountHolds.differ holds different).symm⟩

/-- The walk along two equal strings goes on behind their end. -/
theorem length_lt_relPathOffset {offset : Nat} (mountHolds : Holds mPath string)
    (holds : Holds path string) (returned : relPathOffset fuel mPath path = some offset) :
    string.length < offset := by
  rw [relPathOffset_eq, firstDifference_eq_some] at returned
  obtain ⟨-, -, -, differ⟩ := returned
  by_contra inside
  refine differ ?_
  rw [holds.apply_eq (by omega), mountHolds.apply_eq (by omega)]

/-- `get_rel_path` returns the rest of the path unless the path is the mount
point itself. -/
theorem getRelPath_returns_iff (mountHolds : Holds mPath mount) (holds : Holds path string)
    (below : mount <+: string) :
    ReturnsSuffix mPath path string.length (string.drop mount.length) ↔ string ≠ mount := by
  constructor
  · rintro ⟨offset, rounds, returned, inside, -⟩ rfl
    have beyond := length_lt_relPathOffset mountHolds holds (returned rounds (Nat.le_refl _)).1
    omega
  · intro different
    have sharedEq := shared_eq_length_iff.mpr below
    have lengthLe := below.length_le
    refine ⟨mount.length, mount.length + 1, fun fuel enough => ?_, lengthLe,
      holds.advance lengthLe⟩
    have advanced : relPathOffset fuel mPath path = some mount.length := by
      rw [← sharedEq]
      exact relPathOffset_of_ne mountHolds holds (Ne.symm different) (by omega)
    exact ⟨advanced, getRelPath_of_offset advanced⟩

theorem getRelPath_returns_file :
    ReturnsSuffix (stringStream [0x2f#8]) (stringStream [0x2f#8, 0x61#8]) 2 [0x61#8] :=
  (getRelPath_returns_iff (holds_stringStream (by decide)) (holds_stringStream (by decide))
    (by decide)).mpr (by decide)

/-- For the root itself the result depends on the bytes behind the strings: here
it is a string behind the terminator of the path. -/
theorem getRelPath_passes_terminator :
    (∀ fuel, relPathOffset (fuel + 3) (stringStream [0x2f#8])
        (stringStream [0x2f#8, 0x00#8, 0x78#8]) = some 2 ∧
      getRelPath (fuel + 3) (stringStream [0x2f#8]) (stringStream [0x2f#8, 0x00#8, 0x78#8]) =
        some (advance 2 (stringStream [0x2f#8, 0x00#8, 0x78#8]))) ∧
    Holds (stringStream [0x2f#8, 0x00#8, 0x78#8]) [0x2f#8] ∧
    ¬ ReturnsSuffix (stringStream [0x2f#8]) (stringStream [0x2f#8, 0x00#8, 0x78#8]) 1 [] := by
  have rootHolds : Holds (stringStream [0x2f#8]) [0x2f#8] := holds_stringStream (by decide)
  have pathHolds : Holds (stringStream [0x2f#8, 0x00#8, 0x78#8]) [0x2f#8] := by
    refine ⟨by decide, fun i below => ?_, rfl⟩
    obtain rfl : i = 0 := Nat.lt_one_iff.mp below
    rfl
  refine ⟨fun fuel => ⟨rfl, getRelPath_of_offset rfl⟩, pathHolds, ?_⟩
  rintro ⟨offset, rounds, returned, inside, -⟩
  have beyond := length_lt_relPathOffset rootHolds pathHolds (returned rounds (Nat.le_refl _)).1
  rw [List.length_singleton] at beyond
  omega

end RelativePath

section Selection

variable {devices : List Mountpoint}
variable {device : Mountpoint}

/-- The first device that shares the most characters with the path. -/
structure SharesMost (devices : List Mountpoint) (string : List Byte) (k : Nat)
    (device : Mountpoint) : Prop where
  isDevice : devices[k]? = some device
  most : ∀ other ∈ devices, shared other.name string ≤ shared device.name string
  first : ∀ j < k, ∀ other, devices[j]? = some other →
    shared other.name string < shared device.name string

/-- The device whose mount point is the longest one with whole components of the
path, or none where no mount point is like that. -/
def IsLongestMount (devices : List Mountpoint) (string : List Byte) : Option Mountpoint → Prop
  | none => ∀ other ∈ devices, ¬ IsComponentPrefix other.name string
  | some device => device ∈ devices ∧ IsComponentPrefix device.name string ∧
      ∀ other ∈ devices, IsComponentPrefix other.name string →
        other.name.length ≤ device.name.length

theorem SharesMost.head
    (all : ∀ other ∈ devices, shared other.name string ≤ shared device.name string) :
    SharesMost (device :: devices) string 0 device :=
  ⟨rfl, List.forall_mem_cons.mpr ⟨Nat.le_refl _, all⟩, fun j below => absurd below
    (Nat.not_lt_zero j)⟩

theorem SharesMost.cons {k : Nat} {head : Mountpoint} (most : SharesMost devices string k device)
    (more : shared head.name string < shared device.name string) :
    SharesMost (head :: devices) string (k + 1) device where
  isDevice := most.isDevice
  most := List.forall_mem_cons.mpr ⟨Nat.le_of_lt more, most.most⟩
  first := by
    intro j below other isOther
    cases j with
    | zero =>
        cases isOther
        exact more
    | succ j => exact most.first j (by omega) other isOther

theorem SharesMost.unique {k k' : Nat} {device' : Mountpoint}
    (most : SharesMost devices string k device) (most' : SharesMost devices string k' device') :
    k = k' := by
  have le := most.most device' (List.mem_of_getElem? most'.isDevice)
  have le' := most'.most device (List.mem_of_getElem? most.isDevice)
  rcases Nat.lt_trichotomy k k' with before | same | behind
  · have lt := most'.first k before device most.isDevice
    omega
  · exact same
  · have lt := most.first k' behind device' most'.isDevice
    omega

theorem Mountpoint.holds_name (short : device.name.length < 512) :
    Holds device.mountpoint device.name where
  noZero := zero_notMem_text 512 device.mountpoint
  chars := fun _ below => getElem?_text below
  stops := text_stops short

theorem Mountpoint.holds_copy (short : device.name.length < 512) (buffer : Stream) :
    Holds (kstrcpy buffer 0 device.mountpoint 512) device.name := by
  have holds := Mountpoint.holds_name short
  have copied : ∀ i ≤ device.name.length,
      kstrcpy buffer 0 device.mountpoint 512 i = device.mountpoint i := by
    intro i inside
    rw [Mountpoint.name] at short inside
    rw [kstrcpy_apply, if_pos (by omega), Nat.sub_zero]
  refine ⟨holds.noZero, fun i below => ?_, ?_⟩
  · rw [copied i (Nat.le_of_lt below)]
    exact holds.chars i below
  · rw [copied _ (Nat.le_refl _)]
    exact holds.stops

theorem firstDifference_copy (short : device.name.length < 512) (buffer : Stream)
    (holds : Holds path string) (different : device.name ≠ string) :
    firstDifference path (kstrcpy buffer 0 device.mountpoint 512) 512 0 =
      some (shared device.name string) := by
  have copyHolds := Mountpoint.holds_copy short buffer
  have le := shared_le_left device.name string
  rw [← relPathOffset_eq]
  exact relPathOffset_of_ne copyHolds holds different (by omega)

/-- A device at a path that fills its field is compared to the end of the field. -/
theorem firstDifference_copy_self (long : device.name.length = 511) (buffer : Stream)
    (holds : Holds path device.name) :
    firstDifference path (kstrcpy buffer 0 device.mountpoint 512) 512 0 = none := by
  have copyHolds := Mountpoint.holds_copy (by omega : device.name.length < 512) buffer
  cases result : firstDifference path (kstrcpy buffer 0 device.mountpoint 512) 512 0 with
  | none => rfl
  | some k =>
      obtain ⟨-, upper, -, differ⟩ := firstDifference_eq_some.mp result
      refine absurd ?_ differ
      rw [holds.apply_eq (by omega), copyHolds.apply_eq (by omega)]

section Scan

variable {device : Mountpoint} (buffer : Stream) (i longest id : Nat)

theorem longestMountpoint_cons (short : device.name.length < 512) (holds : Holds path string)
    (different : device.name ≠ string) :
    longestMountpoint path (device :: devices) i buffer longest id =
      if longest < shared device.name string then
        longestMountpoint path devices (i + 1) (kstrcpy buffer 0 device.mountpoint 512)
          (shared device.name string) i
      else
        longestMountpoint path devices (i + 1) (kstrcpy buffer 0 device.mountpoint 512)
          longest id := by
  rw [longestMountpoint, firstDifference_copy short buffer holds different]

theorem longestMountpoint_scan (short : ∀ device ∈ devices, device.name.length < 512)
    (holds : Holds path string) (different : ∀ device ∈ devices, device.name ≠ string) :
    (longestMountpoint path devices i buffer longest id = id ∧
      ∀ device ∈ devices, shared device.name string ≤ longest) ∨
    ∃ k device, longestMountpoint path devices i buffer longest id = i + k ∧
      longest < shared device.name string ∧ SharesMost devices string k device := by
  induction devices generalizing i buffer longest id with
  | nil => exact .inl ⟨rfl, fun device member => absurd member List.not_mem_nil⟩
  | cons head devices ih =>
      rw [List.forall_mem_cons] at short different
      rw [longestMountpoint_cons buffer i longest id short.1 holds different.1]
      by_cases longer : longest < shared head.name string
      · rw [if_pos longer]
        right
        rcases ih _ (i + 1) (shared head.name string) i short.2 different.2 with
          ⟨kept, all⟩ | ⟨k, device, result, more, most⟩
        · exact ⟨0, head, kept, longer, .head all⟩
        · exact ⟨k + 1, device, by omega, by omega, most.cons more⟩
      · rw [if_neg longer]
        rcases ih _ (i + 1) longest id short.2 different.2 with
          ⟨kept, all⟩ | ⟨k, device, result, more, most⟩
        · exact .inl ⟨kept, List.forall_mem_cons.mpr ⟨Nat.not_lt.mp longer, all⟩⟩
        · exact .inr ⟨k + 1, device, by omega, more, most.cons (by omega)⟩

/-- The scan passes the devices at the path itself, and takes another one if it
shares anything. -/
theorem longestMountpoint_other (short : ∀ device ∈ devices, device.name.length < 512)
    (holds : Holds path string)
    (passed : ∀ device ∈ devices, device.name = string → string.length = 511) :
    (longestMountpoint path devices i buffer longest id = id ∧
      ∀ device ∈ devices, device.name ≠ string → shared device.name string ≤ longest) ∨
    ∃ k device, longestMountpoint path devices i buffer longest id = i + k ∧
      devices[k]? = some device ∧ device.name ≠ string := by
  induction devices generalizing i buffer longest id with
  | nil => exact .inl ⟨rfl, fun device member => absurd member List.not_mem_nil⟩
  | cons head devices ih =>
      rw [List.forall_mem_cons] at short passed
      have step := fun longest id =>
        ih (kstrcpy buffer 0 head.mountpoint 512) (i + 1) longest id short.2 passed.2
      by_cases same : head.name = string
      · have long : head.name.length = 511 := by
          rw [same]
          exact passed.1 same
        rw [longestMountpoint, firstDifference_copy_self long buffer (same ▸ holds)]
        dsimp only
        rcases step longest id with ⟨kept, all⟩ | ⟨k, device, result, isDevice, other⟩
        · exact .inl ⟨kept, List.forall_mem_cons.mpr ⟨fun different => absurd same different, all⟩⟩
        · exact .inr ⟨k + 1, device, by omega, isDevice, other⟩
      · rw [longestMountpoint_cons buffer i longest id short.1 holds same]
        by_cases longer : longest < shared head.name string
        · rw [if_pos longer]
          right
          rcases step (shared head.name string) i with ⟨kept, -⟩ | ⟨k, device, result, rest⟩
          · exact ⟨0, head, kept, rfl, same⟩
          · exact ⟨k + 1, device, by omega, rest⟩
        · rw [if_neg longer]
          rcases step longest id with ⟨kept, all⟩ | ⟨k, device, result, rest⟩
          · exact .inl ⟨kept, List.forall_mem_cons.mpr ⟨fun _ => Nat.not_lt.mp longer, all⟩⟩
          · exact .inr ⟨k + 1, device, by omega, rest⟩

end Scan

/-- No read is behind the terminator, unless a device at the path itself leaves
room for one. -/
theorem mountpointReads_le (short : ∀ device ∈ devices, device.name.length < 512)
    (holds : Holds path string)
    (filled : ∀ device ∈ devices, device.name = string → string.length = 511) (buffer : Stream) :
    ∀ position ∈ mountpointReads path devices buffer, position ≤ string.length := by
  induction devices generalizing buffer with
  | nil => exact fun position member => absurd member List.not_mem_nil
  | cons head devices ih =>
      rw [List.forall_mem_cons] at short filled
      intro position member
      rw [mountpointReads, List.mem_append] at member
      rcases member with member | member
      · obtain ⟨-, upper, agree⟩ := mem_differenceReads.mp member
        by_cases same : head.name = string
        · have length := filled.1 same
          omega
        · by_contra beyond
          have le := shared_le_right head.name string
          exact (Mountpoint.holds_copy short.1 buffer).differ holds same
            (agree _ (Nat.zero_le _) (by omega)).symm
      · exact ih short.2 filled.2 _ position member

theorem length_succ_mem_mountpointReads (isDevice : device ∈ devices)
    (holds : Holds path device.name) (room : device.name.length < 511) (buffer : Stream) :
    device.name.length + 1 ∈ mountpointReads path devices buffer := by
  induction devices generalizing buffer with
  | nil => cases isDevice
  | cons head devices ih =>
      rw [mountpointReads, List.mem_append]
      rcases List.mem_cons.mp isDevice with rfl | later
      · have copyHolds := Mountpoint.holds_copy (by omega : device.name.length < 512) buffer
        refine .inl (mem_differenceReads.mpr ⟨Nat.zero_le _, by omega, fun i _ below => ?_⟩)
        rw [holds.apply_eq (by omega), copyHolds.apply_eq (by omega)]
      · exact .inr (ih later _)

theorem IsComponentPrefix.of_eq {mount : List Byte} (same : mount = string) :
    IsComponentPrefix mount string :=
  ⟨same ▸ List.prefix_refl mount, .inl same⟩

theorem IsComponentPrefix.shared_eq {mount : List Byte} (isPrefix : IsComponentPrefix mount string) :
    shared mount string = mount.length :=
  shared_eq_length_iff.mpr isPrefix.1

theorem shared_pos {first second : List Byte} {head : Byte} (firstHead : first.head? = some head)
    (secondHead : second.head? = some head) : 0 < shared first second := by
  cases first with
  | nil => cases firstHead
  | cons char firsts =>
      cases second with
      | nil => cases secondHead
      | cons char' seconds =>
          rw [List.head?_cons, Option.some.injEq] at firstHead secondHead
          rw [firstHead, secondHead, shared_cons_self]
          exact Nat.succ_pos _

/-- The longest mount point is returned, and no byte behind the path is read. -/
def SelectsLongest (state : VfsState) (buffer path : Stream) (string : List Byte) : Prop :=
  IsLongestMount state.mountedDevices string (vfsGetMountpoint state buffer path) ∧
    ∀ position ∈ mountpointReads path state.mountedDevices buffer, position ≤ string.length

section Select

variable {state : VfsState} {buffer : Stream}

/-- A mount point at a path that fills its field is found only among its like. -/
theorem IsLongestMount.all_eq (table : MountTable state.mountedDevices) (holds : Holds path string)
    (absolute : string.head? = some 0x2f#8)
    (filled : ∀ device ∈ state.mountedDevices, device.name = string → string.length = 511)
    (longest : IsLongestMount state.mountedDevices string (vfsGetMountpoint state buffer path))
    (isDevice : device ∈ state.mountedDevices) (atPath : device.name = string) :
    ∀ other ∈ state.mountedDevices, other.name = string := by
  by_contra notAll
  push Not at notAll
  obtain ⟨other, isOther, different⟩ := notAll
  rcases longestMountpoint_other buffer 0 0 0 table.short holds filled with
    ⟨-, none⟩ | ⟨k, taken, result, isTaken, takenNe⟩
  · have pos := shared_pos (table.absolute other isOther) absolute
    have zero := none other isOther different
    omega
  · rw [vfsGetMountpoint, result, Nat.zero_add, isTaken] at longest
    obtain ⟨-, isPrefix, all⟩ := longest
    have le := all device isDevice (.of_eq atPath)
    rw [atPath] at le
    exact takenNe (isPrefix.1.eq_of_length_le le)

/-- `vfs_get_mountpoint` returns the longest mount point if the first of the
devices that share the most characters with the path is mounted at whole
components of it, and no device is mounted at the path itself.  A device at the
path itself does no harm only where the path fills the field and there is no
other mount point. -/
theorem vfsGetMountpoint_longest_iff (table : MountTable state.mountedDevices)
    (holds : Holds path string) (absolute : string.head? = some 0x2f#8) :
    SelectsLongest state buffer path string ↔
      (∀ device ∈ state.mountedDevices, device.name = string ∧ string.length = 511) ∨
      ((∀ device ∈ state.mountedDevices, device.name ≠ string) ∧
        ∃ k device, SharesMost state.mountedDevices string k device ∧
          IsComponentPrefix device.name string) := by
  have pos := fun device isDevice => shared_pos (table.absolute device isDevice) absolute
  constructor
  · rintro ⟨longest, reads⟩
    have filled : ∀ device ∈ state.mountedDevices, device.name = string → string.length = 511 := by
      rintro device isDevice rfl
      have short := table.short device isDevice
      by_contra room
      have beyond := reads _ (length_succ_mem_mountpointReads isDevice holds (by omega) buffer)
      omega
    by_cases atPath : ∃ device ∈ state.mountedDevices, device.name = string
    · obtain ⟨device, isDevice, same⟩ := atPath
      exact .inl fun other isOther =>
        ⟨longest.all_eq table holds absolute filled isDevice same other isOther,
          filled device isDevice same⟩
    · push Not at atPath
      rcases longestMountpoint_scan buffer 0 0 0 table.short holds atPath with
        ⟨-, none⟩ | ⟨k, device, result, -, most⟩
      · left
        intro device isDevice
        have zero := none device isDevice
        have positive := pos device isDevice
        omega
      · right
        rw [vfsGetMountpoint, result, Nat.zero_add, most.isDevice] at longest
        exact ⟨atPath, k, device, most, longest.2.1⟩
  · rintro (all | ⟨different, k, device, most, isPrefix⟩)
    · have filled : ∀ device ∈ state.mountedDevices, device.name = string →
          string.length = 511 := fun device isDevice _ => (all device isDevice).2
      refine ⟨?_, mountpointReads_le table.short holds filled buffer⟩
      rcases longestMountpoint_other buffer 0 0 0 table.short holds filled with
        ⟨result, -⟩ | ⟨k, device, -, isDevice, different⟩
      · rw [vfsGetMountpoint, result]
        cases devices : state.mountedDevices with
        | nil => exact fun other member => absurd member List.not_mem_nil
        | cons device rest =>
            rw [devices] at all
            have same := (all device List.mem_cons_self).1
            refine ⟨List.mem_cons_self, .of_eq same, fun other isOther _ => ?_⟩
            rw [same, (all other isOther).1]
      · exact absurd (all device (List.mem_of_getElem? isDevice)).1 different
    · have filled : ∀ device ∈ state.mountedDevices, device.name = string →
          string.length = 511 := fun device isDevice same => absurd same (different device isDevice)
      refine ⟨?_, mountpointReads_le table.short holds filled buffer⟩
      have isDevice := List.mem_of_getElem? most.isDevice
      rcases longestMountpoint_scan buffer 0 0 0 table.short holds different with
        ⟨-, none⟩ | ⟨k', device', result, -, most'⟩
      · have zero := none device isDevice
        have positive := pos device isDevice
        omega
      · rw [vfsGetMountpoint, result, Nat.zero_add, ← most.unique most', most.isDevice]
        refine ⟨isDevice, isPrefix, fun other isOther otherPrefix => ?_⟩
        rw [← otherPrefix.shared_eq, ← isPrefix.shared_eq]
        exact most.most other isOther

end Select

def mountedAt (targets : List (List Byte)) : VfsState :=
  targets.foldl
    (fun state target => vfsMount state (fun _ => 0#8) (stringStream target)
      (stringStream [0x75#8, 0x73#8, 0x74#8, 0x61#8, 0x72#8]))
    { space := fun _ => 0#8
      tarFsStartAddress := 0#64
      openFiles := fun _ => none
      mountedDevices := []
      nextMountpointId := 1
      vfsOpenedFiles := fun _ => ⟨0#64, 0, 0#64, 0#64, 0#64⟩ }

/-- Of devices at `/`, `/mx` and `/mnt`, the last one is found for `/mnt/a`. -/
theorem vfsGetMountpoint_finds_longest :
    SelectsLongest (mountedAt [[0x2f#8], [0x2f#8, 0x6d#8, 0x78#8], [0x2f#8, 0x6d#8, 0x6e#8, 0x74#8]])
      (fun _ => 0#8) (stringStream [0x2f#8, 0x6d#8, 0x6e#8, 0x74#8, 0x2f#8, 0x61#8])
      [0x2f#8, 0x6d#8, 0x6e#8, 0x74#8, 0x2f#8, 0x61#8] := by
  refine (vfsGetMountpoint_longest_iff ⟨by decide, ?_, ?_⟩ (holds_stringStream (by decide))
    rfl).mpr (.inr ⟨?_, 2, _, .cons (.cons (.head ?_) ?_) ?_, ?_⟩)
  · exact List.forall_mem_cons.mpr ⟨by decide, List.forall_mem_cons.mpr
      ⟨by decide, List.forall_mem_singleton.mpr (by decide)⟩⟩
  · exact List.forall_mem_cons.mpr ⟨by decide, List.forall_mem_cons.mpr
      ⟨by decide, List.forall_mem_singleton.mpr (by decide)⟩⟩
  · exact List.forall_mem_cons.mpr ⟨by decide, List.forall_mem_cons.mpr
      ⟨by decide, List.forall_mem_singleton.mpr (by decide)⟩⟩
  · exact fun other member => absurd member List.not_mem_nil
  · decide
  · decide
  · exact ⟨by decide, .inr (.inr (by decide))⟩

/-- A device mounted at `/mnt` is returned for `/x`, and for `/` on a device
mounted there the byte behind the terminator is read. -/
theorem vfsGetMountpoint_takes_partial :
    ¬ SelectsLongest (mountedAt [[0x2f#8, 0x6d#8, 0x6e#8, 0x74#8]]) (fun _ => 0#8)
        (stringStream [0x2f#8, 0x78#8]) [0x2f#8, 0x78#8] ∧
      ¬ SelectsLongest (mountedAt [[0x2f#8]]) (fun _ => 0#8) (stringStream [0x2f#8]) [0x2f#8] := by
  constructor
  · rintro ⟨⟨-, isPrefix, -⟩, -⟩
    exact absurd isPrefix.1 (by decide)
  · rintro ⟨-, reads⟩
    have isRead : 2 ∈ mountpointReads (stringStream [0x2f#8]) (mountedAt [[0x2f#8]]).mountedDevices
        fun _ => 0#8 := by
      refine List.mem_append_left _ (mem_differenceReads.mpr ⟨by decide, by decide, ?_⟩)
      intro i _ below
      obtain rfl | rfl : i = 0 ∨ i = 1 := by omega
      · rfl
      · rfl
    exact absurd (reads 2 isRead) (by decide)

end Selection

end MmdOS
