import MmdOS.DirectoryListing

/-!
# What the stack of a listing can do

The array of `ustar_read_dir` is searched and printed up to its first `NULL`, with
whatever pointers it holds.  A stale pointer to a long string keeps the search from
returning, and one that is not overwritten is printed like a path.
-/

namespace MmdOS

open CString Outcome

def stalePath (dir rest : List Byte) : List Byte :=
  0x2f#8 :: if withoutSlash dir = [] then rest else withoutSlash dir ++ 0x2f#8 :: rest

section StalePaths

variable {dir rest : List Byte}

theorem withoutSlash_cons_slash (string : List Byte) : withoutSlash (0x2f#8 :: string) = string :=
  rfl

theorem removed_stalePath : removed (stalePath dir rest) dir = rest := by
  by_cases isRoot : withoutSlash dir = []
  · rw [removed_of_nil isRoot, stalePath, if_pos isRoot, withoutSlash_cons_slash]
  · refine removed_below isRoot ?_
    rw [stalePath, if_neg isRoot, withoutSlash_cons_slash]

theorem length_stalePath_le : (stalePath dir rest).length ≤ dir.length + rest.length + 2 := by
  have shorter := length_withoutSlash_le dir
  rw [stalePath, List.length_cons]
  split
  · omega
  · rw [List.length_append, List.length_cons]
    omega

theorem zero_notMem_stalePath (dirNoZero : 0#8 ∉ dir) (noZero : 0#8 ∉ rest) :
    0#8 ∉ stalePath dir rest := by
  have rootNoZero : 0#8 ∉ withoutSlash dir := fun member => dirNoZero (List.mem_of_mem_drop member)
  rw [stalePath]
  split
  · simp [noZero]
  · simp [noZero, rootNoZero]

end StalePaths

section Children

/-- The names directly below a directory, in the order in which they appear. -/
def children (entries : List ArchiveEntry) (dir : List Byte) : List (List Byte) :=
  (((entries.map fun entry => remainder (withoutSlash entry.fullName) (withoutSlash dir)).filter
    (· ≠ [])).map firstComponent).eraseDups

def listingText (entries : List ArchiveEntry) (dir : List Byte) : List Byte :=
  (children entries dir).flatMap (· ++ [0x0a#8])

/-- The listing of a directory is exact, whatever the array on the stack and the
memory outside the archive hold. -/
def ListsExactly (hhdm : Word) (kernel : KernelState Pmm) (start : Word)
    (entries : List ArchiveEntry) (dirString : List Byte) (buffer nbytes : Word) : Prop :=
  ∀ (state : FsState) (pathes : Nat → Word) (dir : Stream), state.kernel = kernel →
    state.vfs.tarFsStartAddress = start → Loaded state.vfs.space start (archive entries) →
    Holds dir dirString →
    ∃ rounds after,
      (∀ fuel ≥ rounds, Yields (FsState.ustarReadDir hhdm pathes fuel state dir buffer nbytes 0#64)
        (BitVec.ofNat 64 (listingText entries dirString).length, after)) ∧
      ∀ i < (listingText entries dirString).length,
        (listingText entries dirString)[i]? =
          some (after.vfs.space (buffer + BitVec.ofNat 64 i))

theorem remainder_eq_nil {name dir : List Byte} (nothing : removed name dir = []) :
    remainder (withoutSlash name) (withoutSlash dir) = [] := by
  by_cases inside : StopsInside (withoutSlash name) (withoutSlash dir)
  · obtain ⟨common, next, rest, behind, dirEq, notSlash, destEq, -⟩ := inside
    rw [remainder, dirEq, destEq, if_neg (by simp), if_neg (not_below_of_stopsInside notSlash)]
  · rw [← removed_eq_remainder_iff.mpr inside, nothing]

variable {entries : List ArchiveEntry} {dir : List Byte}

theorem assembledName_of_short (short : ShortNames entries) {entry : ArchiveEntry}
    (member : entry ∈ entries) (lastByte : Byte) :
    entry.assembledName lastByte = entry.fullName := by
  obtain ⟨noPrefix, shortName, noBackslash⟩ := short entry member
  have fullEq : entry.fullName = entry.filename := by
    rw [ArchiveEntry.fullName, if_pos noPrefix]
  have same := (ArchiveEntry.assembledName_of_plain noPrefix shortName noBackslash lastByte
    entry.fullName).mpr rfl
  rwa [List.take_of_length_le (by rw [fullEq]; omega)] at same

theorem listingText_eq_nil (short : ShortNames entries)
    (nothing : ∀ entry ∈ entries, listedPath entry dir = []) : listingText entries dir = [] := by
  have noneLeft : ((entries.map fun entry =>
      remainder (withoutSlash entry.fullName) (withoutSlash dir)).filter (· ≠ [])) = [] := by
    rw [List.filter_eq_nil_iff]
    intro rest member
    obtain ⟨entry, inEntries, rfl⟩ := List.mem_map.mp member
    have empty := nothing entry inEntries
    rw [listedPath, assembledName_of_short short inEntries] at empty
    rw [remainder_eq_nil empty]
    decide
  rw [listingText, children, noneLeft]
  rfl

end Children

section Runs

variable {hhdm start area : Word} {kernel : KernelState Pmm} {entries : List ArchiveEntry}
  {blocks : List Word} {room fuel : Nat} {dir : Stream} {dirString : List Byte}
variable {space : ByteSpace}

def listingState (start : Word) (kernel : KernelState Pmm) (space : ByteSpace) : FsState :=
  ⟨vfsInit space start fun _ => 0#8, kernel, fun _ => 0#64⟩

def longComponent : List Byte :=
  List.replicate (2 ^ 16) 0x78#8

def staleSpace (start : Word) (entries : List ArchiveEntry) (area : Word) (room : Nat)
    (dirString : List Byte) : ByteSpace :=
  withArea area room (stringStream (stalePath dirString longComponent))
    (imageSpace start (archive entries))

/-- The search in an array of pointers to a long component does not return. -/
theorem isDuplicate_endless {path : Word} {pathString : List Byte}
    (new : NewPath space path pathString) (nonNull : area ≠ 0#64)
    (stale : Holds (deref space area) (stalePath dirString longComponent))
    (apart : StringsApart path pathString area (stalePath dirString longComponent))
    (dirHolds : Holds dir dirString) (enough : 2 ^ 16 + dirString.length ≤ fuel) :
    isDuplicate fuel dir path (fun _ => area) 50 0 space = none := by
  have short := new.short
  rw [isDuplicate, if_neg nonNull]
  rcases @removePrefix_result space fuel dir dirString area _ stale dirHolds (by omega) with
    ⟨-, nothing⟩ | ⟨result, holds⟩
  · rw [removed_stalePath, longComponent, List.replicate_eq_nil_iff] at nothing
    exact absurd nothing (by decide)
  have lengthEq : (removed (stalePath dirString longComponent) dirString).length = 2 ^ 16 := by
    rw [removed_stalePath, longComponent, List.length_replicate]
  rw [removed_stalePath] at holds
  rw [result, Option.bind_eq_bind, Option.bind_some, isInSameDir_endless new.holds short (by omega)]
  · rfl
  · intro i below
    have char := holds.chars i (by rw [longComponent, List.length_replicate]; exact below)
    rw [longComponent, List.getElem?_replicate, if_pos below, Option.some.injEq] at char
    have isChar : space (removedPointer area (stalePath dirString longComponent) dirString +
        BitVec.ofNat 64 i) = 0x78#8 := char.symm
    rw [isChar]
    decide
  · intro i iLe j jLt
    have lengthLe := length_removed_le (stalePath dirString longComponent) dirString
    rw [removedPointer, BitVec.add_assoc, ← BitVec.ofNat_add]
    exact apart i iLe _ (by omega)

variable (start area entries room dirString) in
/-- Stale pointers to a long component, in front of a record below the directory. -/
structure StaleListing (rest : List (ArchiveEntry × Word)) (space : ByteSpace)
    (listing : Listing) : Prop where
  ready : ListingReady start area entries room rest space
  stale : Holds (deref space area) (stalePath dirString longComponent)
  listingEq : listing = ⟨fun _ => area, 0⟩
  someBelow : ∃ record ∈ rest, listedPath record.1 dirString ≠ []

theorem StaleListing.step {rest : List (ArchiveEntry × Word)} {space : ByteSpace}
    {listing : Listing} {entry : ArchiveEntry} {block header : Word}
    (stale : StaleListing start area entries room dirString ((entry, block) :: rest) space listing)
    (nonNull : area ≠ 0#64) (loaded : Loaded space header entry.header)
    (dirHolds : Holds dir dirString) (roomEnough : dirString.length + 65539 ≤ room)
    (enough : 2 ^ 16 + dirString.length ≤ fuel) :
    (listEntry fuel dir header block space listing = none ∧ True) ∨
      ∃ space' listing', listEntry fuel dir header block space listing = some (space', listing') ∧
        StaleListing start area entries room dirString rest space' listing' := by
  have lastByte := stale.ready.lastBytes (entry, block) List.mem_cons_self
  have staleLength := @length_stalePath_le dirString longComponent
  have longLength : longComponent.length = 2 ^ 16 := List.length_replicate
  have outside : ∀ i ≤ (stalePath dirString longComponent).length,
      ¬ Inside block 256 (area + BitVec.ofNat 64 i) := by
    intro i iLe
    exact (stale.ready.areaBlock _ List.mem_cons_self).not_inside ⟨i, by omega, rfl⟩
  have kept : Holds (deref (writeName space header block) area)
      (stalePath dirString longComponent) :=
    Holds.congr stale.stale fun i iLe => writeName_outside (outside i iLe)
  by_cases empty : listedPath entry dirString = []
  · refine .inr ⟨_, _, listEntry_of_nil loaded lastByte dirHolds (by omega) empty, ?_, kept,
      stale.listingEq, ?_⟩
    · exact stale.ready.next fun address notBlock _ => writeName_outside notBlock
    · obtain ⟨record, member, below⟩ := stale.someBelow
      rcases List.mem_cons.mp member with rfl | later
      · exact absurd empty below
      · exact ⟨record, later, below⟩
  · obtain ⟨listed, new⟩ := @listEntry_of_ne_nil space header block entry fuel dir dirString listing
      loaded lastByte dirHolds (by omega) empty
    refine .inl ⟨?_, trivial⟩
    rw [listed, stale.listingEq, isDuplicate_endless new nonNull kept ?_ dirHolds enough,
      Option.bind_none]
    intro i iLe j jLe same
    exact outside j jLe (same ▸ listedPath_inside loaded lastByte iLe)

/-- With stale pointers to a long component, the listing does not get past the first
record below the directory. -/
theorem listing_endless (layout : ListingLayout start (archive entries).length blocks area room)
    (serves : Serves hhdm fuel kernel blocks) (lengths : blocks.length = entries.length)
    (dirHolds : Holds dir dirString) (roomEnough : dirString.length + 65539 ≤ room)
    (fuelEnough : 2 ^ 16 + dirString.length + entries.length < fuel)
    (someBelow : ∃ entry ∈ entries, listedPath entry dirString ≠ []) (result : Listing × FsState) :
    ¬ Yields (FsState.listEntries hhdm fuel dir fuel 0#64 ⟨fun _ => area, 0⟩
      (listingState start kernel (staleSpace start entries area room dirString))) result := by
  have areaFits := layout.areaFits
  have staleLength := @length_stalePath_le dirString longComponent
  have longLength : longComponent.length = 2 ^ 16 := List.length_replicate
  have noZero : 0#8 ∉ stalePath dirString longComponent :=
    zero_notMem_stalePath dirHolds.noZero
      fun member => absurd (List.eq_of_mem_replicate member) (by decide)
  have stale := @holds_withArea_start area room (imageSpace start (archive entries)) _ _
    (holds_stringStream noZero) (by omega) (by omega)
  have initial : StaleListing start area entries room dirString (entries.zip blocks)
      (staleSpace start entries area room dirString) ⟨fun _ => area, 0⟩ := by
    refine ⟨layout.ready _ lengths, stale, rfl, ?_⟩
    obtain ⟨entry, member, below⟩ := someBelow
    rw [← List.map_fst_zip (Nat.le_of_eq lengths.symm)] at member
    obtain ⟨record, isRecord, rfl⟩ := List.mem_map.mp member
    exact ⟨record, isRecord, below⟩
  rcases @FsState.listEntries_all hhdm start fuel dir entries True
    (StaleListing start area entries room dirString) (fun stale => stale.ready.loaded)
    (fun stale loaded => stale.step layout.areaNonNull loaded dirHolds roomEnough (by omega))
    blocks fuel _ (listingState start kernel (staleSpace start entries area room dirString)) rfl
    serves lengths (by omega) initial with ⟨-, never⟩ | ⟨final, after, -, atEnd⟩
  · exact never result
  · obtain ⟨record, member, -⟩ := atEnd.someBelow
    cases member

theorem listing_passes {listing : Listing} {state : FsState}
    (ready : ListingReady start area entries room (entries.zip blocks) state.vfs.space)
    (startEq : state.vfs.tarFsStartAddress = start) (serves : Serves hhdm fuel state.kernel blocks)
    (lengths : blocks.length = entries.length) (dirHolds : Holds dir dirString)
    (fuelEnough : dirString.length + entries.length < fuel)
    (nothing : ∀ entry ∈ entries, listedPath entry dirString = []) :
    ∃ after, Yields (FsState.listEntries hhdm fuel dir fuel 0#64 listing state) (listing, after) ∧
      Loaded after.vfs.space start (archive entries) := by
  have step : ∀ {entry : ArchiveEntry} {block : Word} {rest : List (ArchiveEntry × Word)}
      {space : ByteSpace} {result : Listing} {header : Word},
      (ListingReady start area entries room ((entry, block) :: rest) space ∧ result = listing ∧
        ∀ record ∈ (entry, block) :: rest, listedPath record.1 dirString = []) →
      Loaded space header entry.header →
      (listEntry fuel dir header block space result = none ∧ False) ∨
        ∃ space' result', listEntry fuel dir header block space result = some (space', result') ∧
          ListingReady start area entries room rest space' ∧ result' = listing ∧
            ∀ record ∈ rest, listedPath record.1 dirString = [] := by
    rintro entry block rest space result header ⟨here, isSame, empty⟩ loaded
    refine .inr ⟨_, _, listEntry_of_nil loaded (here.lastBytes _ List.mem_cons_self) dirHolds
      (by omega) (empty (entry, block) List.mem_cons_self), ?_, isSame, ?_⟩
    · exact here.next fun address notBlock _ => writeName_outside notBlock
    · exact fun record member => empty record (List.mem_cons_of_mem _ member)
  rcases @FsState.listEntries_all hhdm start fuel dir entries False
    (fun rest space result => ListingReady start area entries room rest space ∧
      result = listing ∧ ∀ record ∈ rest, listedPath record.1 dirString = [])
    (fun inv => inv.1.loaded) step blocks fuel listing state startEq serves lengths (by omega)
    ⟨ready, rfl, fun record member => nothing _ (List.of_mem_zip member).1⟩ with
    ⟨impossible, -⟩ | ⟨result, after, returned, atEnd, isSame, -⟩
  · exact impossible.elim
  · rw [isSame] at returned
    exact ⟨after, returned, atEnd.loaded⟩

theorem archive_last (entries : List ArchiveEntry) :
    (archive entries)[(archive entries).length - 1]? = some 0#8 := by
  induction entries with
  | nil => rw [archive, List.length_replicate, List.getElem?_replicate, if_pos (by decide)]
  | cons entry rest ih =>
      have positive := archive_length_pos rest
      rw [archive, List.length_append, List.getElem?_append_right (by omega)]
      have position : entry.bytes.length + (archive rest).length - 1 - entry.bytes.length =
          (archive rest).length - 1 := by omega
      rw [position, ih]

def staleArray (pointer : Word) : Nat → Word :=
  fun i => if i = 0 then pointer else 0#64

theorem writeListing_stale {pointer buffer : Word} (nonNull : pointer ≠ 0#64)
    (isZero : space pointer = 0#8) :
    writeListing (fuel + 1) (staleArray pointer) 50 0 buffer 0#64 space =
      some (1#64, Function.update space buffer 0x0a#8) := by
  have first : staleArray pointer 0 = pointer := rfl
  have second : staleArray pointer 1 = 0#64 := rfl
  rw [writeListing, first, if_neg nonNull, copyPath, if_pos isZero, Option.bind_eq_bind,
    Option.bind_some]
  dsimp only
  rw [writeListing, if_pos second]
  rfl

def archiveEnd (start : Word) (entries : List ArchiveEntry) : Word :=
  start + BitVec.ofNat 64 ((archive entries).length - 1)

theorem Loaded.archiveEnd_ne_zero (loaded : Loaded space start (archive entries)) :
    archiveEnd start entries ≠ 0#64 := by
  have positive := archive_length_pos entries
  have startPos : start.toNat ≠ 0 := fun isZero =>
    loaded.nonNull (BitVec.eq_of_toNat_eq isZero)
  have address := loaded.offset_toNat ((archive entries).length - 1) (by omega)
  intro isNull
  rw [← archiveEnd, isNull] at address
  simp at address
  omega

theorem Loaded.archiveEnd_eq_zero (loaded : Loaded space start (archive entries)) :
    space (archiveEnd start entries) = 0#8 := by
  have positive := archive_length_pos entries
  have last := loaded.bytes_eq ((archive entries).length - 1) (by omega)
  rw [archive_last, Option.some.injEq] at last
  exact last.symm

end Runs

section Exactness

variable {hhdm start area buffer nbytes : Word} {kernel : KernelState Pmm}
  {entries : List ArchiveEntry} {blocks : List Word} {room rounds : Nat} {dirString : List Byte}

/-- For no archive and no directory is the listing exact whatever the array holds. -/
theorem ustarReadDir_never_exact (short : ShortNames entries) (noZero : 0#8 ∉ dirString)
    (layout : ListingLayout start (archive entries).length blocks area room)
    (roomEnough : dirString.length + 65539 ≤ room) (lengths : blocks.length = entries.length)
    (serves : ∀ fuel ≥ rounds, Serves hhdm fuel kernel blocks) :
    ¬ ListsExactly hhdm kernel start entries dirString buffer nbytes := by
  intro exactly
  have dirHolds := holds_stringStream noZero
  have ready := layout.ready (stringStream (stalePath dirString longComponent)) lengths
  have loaded := ready.loaded
  by_cases someBelow : ∃ entry ∈ entries, listedPath entry dirString ≠ []
  · obtain ⟨enough, after, returns, -⟩ := exactly
      (listingState start kernel (staleSpace start entries area room dirString))
      (fun _ => area) (stringStream dirString) rfl rfl loaded dirHolds
    have returned := returns (enough + rounds + 2 ^ 16 + dirString.length + entries.length + 1)
      (by omega)
    rw [FsState.ustarReadDir, yields_bind] at returned
    obtain ⟨result, listed, -⟩ := returned
    exact listing_endless layout (serves _ (by omega)) lengths dirHolds roomEnough (by omega)
      someBelow result listed
  · have nothing : ∀ entry ∈ entries, listedPath entry dirString = [] := by
      intro entry member
      by_contra below
      exact someBelow ⟨entry, member, below⟩
    obtain ⟨enough, after, returns, -⟩ := exactly
      (listingState start kernel (staleSpace start entries area room dirString))
      (staleArray (archiveEnd start entries)) (stringStream dirString) rfl rfl loaded dirHolds
    have returned := returns (enough + rounds + dirString.length + entries.length + 1) (by omega)
    obtain ⟨middle, listed, loaded'⟩ := @listing_passes hhdm start area entries blocks room _ _ _
      ⟨staleArray (archiveEnd start entries), 0⟩
      (listingState start kernel (staleSpace start entries area room dirString)) ready rfl
      (serves (enough + rounds + dirString.length + entries.length + 1) (by omega)) lengths dirHolds
      (by omega) nothing
    have printed := @FsState.ustarReadDir_yields _ _ _ _ _ _ _ _ buffer nbytes 0#64 _ listed
      (writeListing_stale ready.loaded.archiveEnd_ne_zero loaded'.archiveEnd_eq_zero)
    rw [listingText_eq_nil short nothing] at returned
    have counts : 0#64 = 1#64 := congrArg Prod.fst (returned.unique printed)
    exact absurd counts (by decide)

end Exactness

theorem ustarReadDir_greeting_not_exact : ∃ kernel block,
    ShortNames [greetingFile] ∧
    ListingLayout 0x10000#64 (archive [greetingFile]).length [block] 0x20000#64 0x20000 ∧
    (∀ fuel ≥ 1, Serves machineHhdm fuel kernel [block]) ∧
    ¬ ListsExactly machineHhdm kernel 0x10000#64 [greetingFile] [] 0x80000#64 1023#64 := by
  obtain ⟨kernel, block, layout, serves⟩ :=
    @machine_listing (archive [greetingFile]).length (by rw [greeting_length]; decide)
  exact ⟨kernel, block, greeting_short, layout, serves,
    ustarReadDir_never_exact greeting_short (by decide) layout (by decide) rfl serves⟩

section Nested

theorem nestedName_length : [(0x61#8 : Byte), 0x2f#8, 0x62#8].length ≤ 100 := by decide

def nestedFile : ArchiveEntry :=
  ustarEntry [0x61#8, 0x2f#8, 0x62#8] [] [] nestedName_length noInit_length noContent_length

theorem nested_length : (archive [nestedFile]).length = 1536 := by
  simp only [archive, nestedFile, List.length_append, length_ustarEntry_bytes,
    List.length_replicate, List.length_nil]

theorem nested_names :
    nestedFile.filenamePrefix = [] ∧ nestedFile.filename = [0x61#8, 0x2f#8, 0x62#8] :=
  ⟨filenamePrefix_ustarEntry (by decide), filename_ustarEntry (by decide)⟩

theorem nested_short : ShortNames [nestedFile] := by
  intro entry member
  obtain ⟨noPrefix, name⟩ := nested_names
  rw [List.mem_singleton.mp member, noPrefix, name]
  decide

theorem nested_fullName : nestedFile.fullName = [0x61#8, 0x2f#8, 0x62#8] := by
  obtain ⟨noPrefix, name⟩ := nested_names
  rw [ArchiveEntry.fullName, if_pos noPrefix, name]

theorem nested_listed : listedPath nestedFile [] = [0x61#8, 0x2f#8, 0x62#8] := by
  rw [listedPath, assembledName_of_short nested_short (List.mem_singleton_self _), nested_fullName]
  decide

theorem nested_text : listingText [nestedFile] [] = [0x61#8, 0x0a#8] := by
  rw [listingText, children, List.map_singleton, nested_fullName]
  decide

/-- In an array of null pointers nothing ends the path `a/b` behind its first
component. -/
theorem ustarReadDir_prints_nested : ∃ kernel, ShortNames [nestedFile] ∧
    (∀ fuel ≥ 257, ∃ after, Yields (FsState.ustarReadDir machineHhdm (fun _ => 0#64) fuel
      (listingState 0x10000#64 kernel (imageSpace 0x10000#64 (archive [nestedFile])))
      (stringStream []) 0x20000#64 1023#64 0#64) (4#64, after)) ∧
    listingText [nestedFile] [] = [0x61#8, 0x0a#8] ∧
    ¬ ListsExactly machineHhdm kernel 0x10000#64 [nestedFile] [] 0x20000#64 1023#64 := by
  obtain ⟨kernel, block, layout, serves⟩ :=
    @machine_listing (archive [nestedFile]).length (by rw [nested_length]; decide)
  have ready := layout.ready (deref (imageSpace 0x10000#64 (archive [nestedFile])) 0x20000#64) rfl
  rw [withArea_self] at ready
  have root : Holds (stringStream []) [] := holds_stringStream (by decide)
  have printed : ∀ fuel ≥ 257, ∃ after, Yields (FsState.ustarReadDir machineHhdm (fun _ => 0#64)
      fuel (listingState 0x10000#64 kernel (imageSpace 0x10000#64 (archive [nestedFile])))
      (stringStream []) 0x20000#64 1023#64 0#64) (4#64, after) := by
    intro fuel enough
    obtain ⟨after, returned⟩ := @FsState.ustarReadDir_single machineHhdm 0x10000#64 0x20000#64
      block nestedFile 0x20000 fuel (stringStream []) []
      (listingState 0x10000#64 kernel (imageSpace 0x10000#64 (archive [nestedFile]))) 1023#64 0#64
      ready rfl (serves fuel (by omega)) root (by rw [List.length_nil]; omega) (by decide)
      (by rw [nested_listed]; decide)
    rw [nested_listed] at returned
    exact ⟨after, returned⟩
  refine ⟨kernel, nested_short, printed, nested_text, fun exactly => ?_⟩
  obtain ⟨rounds, after, returns, -⟩ := exactly
    (listingState 0x10000#64 kernel (imageSpace 0x10000#64 (archive [nestedFile]))) (fun _ => 0#64)
    (stringStream []) rfl rfl ready.loaded root
  obtain ⟨after', returned⟩ := printed (rounds + 257) (by omega)
  have expected := returns (rounds + 257) (by omega)
  rw [nested_text] at expected
  have counts : 2#64 = 4#64 := congrArg Prod.fst (expected.unique returned)
  exact absurd counts (by decide)

end Nested

end MmdOS
