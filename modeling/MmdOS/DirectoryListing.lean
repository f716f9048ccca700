import MmdOS.HeapRuns
import MmdOS.PathComparison
import MmdOS.UstarTable

/-!
# Runs of the directory listing

`ustar_read_dir` takes a block for the name of every record, removes the directory
from the name, and compares what is left with the paths in an array on its stack
that has never been set.  A run is described by the blocks that `kalloc` returns
and by what holds from record to record.
-/

namespace MmdOS

open CString Outcome
open Function (update update_self update_of_ne update_eq_self)

variable {address block : Word} {state : FsState} {listing : Listing} {space : ByteSpace}
variable {blocks : List Word}

def Inside (base : Word) (size : Nat) (address : Word) : Prop :=
  ∃ i < size, address = base + BitVec.ofNat 64 i

/-- The blocks that `kalloc` returns for the names, one after the other. -/
def Serves (hhdm : Word) (fuel : Nat) : KernelState Pmm → List Word → Prop
  | _, [] => True
  | kernel, block :: blocks => ∃ mm,
      kAlloc hhdm fuel kernel.mm kernel.vmmKernel 256#64 = some (.ok (block, mm)) ∧
        Serves hhdm fuel { kernel with mm } blocks

/-- The archive, the blocks for the names, and one more area of memory are apart from
each other. -/
structure ListingLayout (start : Word) (size : Nat) (blocks : List Word) (area : Word)
    (room : Nat) : Prop where
  archiveNonNull : start ≠ 0#64
  archiveFits : start.toNat + size ≤ 2 ^ 64
  areaNonNull : area ≠ 0#64
  areaFits : area.toNat + room ≤ 2 ^ 64
  archiveArea : Apart start size area room
  archiveBlock : ∀ block ∈ blocks, Apart start size block 256
  areaBlock : ∀ block ∈ blocks, Apart area room block 256
  blocksApart : blocks.Pairwise fun first second => Apart first 256 second 256
  blockNonNull : ∀ block ∈ blocks, ¬ Inside block 256 0#64

section Areas

variable {first second address : Word} {size size' : Nat}

theorem inside_iff (small : size ≤ 2 ^ 64) :
    Inside first size address ↔ (address - first).toNat < size := by
  constructor
  · rintro ⟨i, below, rfl⟩
    rwa [BitVec.add_comm, BitVec.add_sub_cancel, BitVec.toNat_ofNat, Nat.mod_eq_of_lt (by omega)]
  · intro below
    refine ⟨(address - first).toNat, below, ?_⟩
    rw [BitVec.ofNat_toNat, BitVec.setWidth_eq, BitVec.add_comm, BitVec.sub_add_cancel]

theorem Apart.not_inside (apart : Apart first size second size')
    (inside : Inside first size address) : ¬ Inside second size' address := by
  rintro ⟨k, kLt, atSecond⟩
  obtain ⟨i, iLt, atFirst⟩ := inside
  exact apart k kLt i iLt (atFirst.symm.trans atSecond)

theorem Apart.symm (apart : Apart first size second size') : Apart second size' first size :=
  fun k kLt i iLt same => apart i iLt k kLt same.symm

theorem apart_of_le (before : first.toNat + size ≤ second.toNat)
    (fits : second.toNat + size' ≤ 2 ^ 64) : Apart first size second size' := by
  intro k kLt i iLt same
  have addresses := congrArg BitVec.toNat same
  rw [BitVec.toNat_add, BitVec.toNat_add, BitVec.toNat_ofNat, BitVec.toNat_ofNat] at addresses
  omega

end Areas

section Names

variable {space : ByteSpace} {header block : Word} {entry : ArchiveEntry}

theorem writeName_outside (outside : ¬ Inside block 256 address) :
    writeName space header block address = space address :=
  if_neg (mt (inside_iff (by decide)).mpr outside)

theorem holds_writeName (loaded : Loaded space header entry.header)
    (lastByte : space (block + 255#64) = 0#8) :
    Holds (deref (writeName space header block) block) (entry.assembledName 0#8) ∧
      (entry.assembledName 0#8).length ≤ 255 := by
  have last : deref space block 255 = 0#8 := lastByte
  have name := text_assembleName loaded (deref space block)
  have ends := replaceBackslashes_assembleName_last space header (deref space block)
  rw [last] at name ends
  have short := length_text_le_of_zero 256 ends
  have written : ∀ i < 256, deref (writeName space header block) block i =
      replaceBackslashes (assembleName space header (deref space block)) i := by
    intro i below
    have offset : (block + BitVec.ofNat 64 i - block).toNat = i := by
      rw [BitVec.add_comm, BitVec.add_sub_cancel, BitVec.toNat_ofNat, Nat.mod_eq_of_lt (by omega)]
    rw [deref, writeName]
    dsimp only
    rw [offset, if_pos below]
  rw [← name]
  refine ⟨⟨zero_notMem_text _ _, fun i below => ?_, ?_⟩, short⟩
  · rw [written i (by omega)]
    exact getElem?_text below
  · rw [written _ (by omega)]
    exact text_stops (by omega)

variable {fuel : Nat} {dir : Stream} {dirString : List Byte} {listing : Listing}

variable (entry dirString) in
/-- What the listing makes of a record, as long as the name ends inside its block. -/
def listedPath : List Byte :=
  removed (entry.assembledName 0#8) dirString

variable (block entry dirString) in
def listedPointer : Word :=
  removedPointer block (entry.assembledName 0#8) dirString

theorem listEntry_of_nil (loaded : Loaded space header entry.header)
    (lastByte : space (block + 255#64) = 0#8) (dirHolds : Holds dir dirString)
    (enough : dirString.length ≤ fuel) (empty : listedPath entry dirString = []) :
    listEntry fuel dir header block space listing =
      some (writeName space header block, listing) := by
  have name := (holds_writeName loaded lastByte).1
  rw [listEntry]
  rcases removePrefix_result name dirHolds enough with ⟨literal, -⟩ | ⟨result, holds⟩
  · rw [literal]
    rfl
  · rw [listedPath] at empty
    rw [empty] at holds
    have isZero := holds.stops
    rw [List.length_nil, deref_zero] at isZero
    rw [result, Option.bind_eq_bind, Option.bind_some]
    exact if_pos isZero

theorem listEntry_of_ne_nil (loaded : Loaded space header entry.header)
    (lastByte : space (block + 255#64) = 0#8) (dirHolds : Holds dir dirString)
    (enough : dirString.length ≤ fuel) (nonempty : listedPath entry dirString ≠ []) :
    listEntry fuel dir header block space listing =
        ((isDuplicate fuel dir (listedPointer block entry dirString) listing.pathes 50 0
          (writeName space header block)).bind fun scanned =>
            if scanned.1 then some (scanned.2, listing)
            else some (scanned.2, ⟨update listing.pathes listing.pathesLen
              (listedPointer block entry dirString), listing.pathesLen + 1⟩)) ∧
      NewPath (writeName space header block) (listedPointer block entry dirString)
        (listedPath entry dirString) := by
  obtain ⟨name, short⟩ := @holds_writeName space header block entry loaded lastByte
  have lengthLe := length_removed_le (entry.assembledName 0#8) dirString
  rw [listEntry]
  rcases removePrefix_result name dirHolds enough with ⟨-, nothing⟩ | ⟨result, holds⟩
  · exact absurd nothing nonempty
  · have notZero : writeName space header block (listedPointer block entry dirString) ≠ 0#8 := by
      rw [← deref_zero (writeName space header block)]
      exact mt holds.head_eq_zero_iff.mp nonempty
    refine ⟨?_, holds, by rw [listedPath]; omega⟩
    rw [result, Option.bind_eq_bind, Option.bind_some]
    exact if_neg notZero

theorem length_listedPath_le (loaded : Loaded space header entry.header)
    (lastByte : space (block + 255#64) = 0#8) : (listedPath entry dirString).length ≤ 255 :=
  Nat.le_trans (length_removed_le _ _) (holds_writeName loaded lastByte).2

theorem listedPath_inside (loaded : Loaded space header entry.header)
    (lastByte : space (block + 255#64) = 0#8) {i : Nat}
    (inside : i ≤ (listedPath entry dirString).length) :
    Inside block 256 (listedPointer block entry dirString + BitVec.ofNat 64 i) := by
  have short := (@holds_writeName space header block entry loaded lastByte).2
  have lengthLe := length_removed_le (entry.assembledName 0#8) dirString
  rw [listedPath] at inside
  rw [listedPointer, removedPointer, BitVec.add_assoc, ← BitVec.ofNat_add]
  exact ⟨_, by omega, rfl⟩

theorem cutName_outside (loaded : Loaded space header entry.header)
    (lastByte : space (block + 255#64) = 0#8) {address : Word}
    (outside : ¬ Inside block 256 address) :
    cutComponent (writeName space header block) (listedPointer block entry dirString)
      (listedPath entry dirString) address = space address := by
  rw [cutComponent, update_of_ne, writeName_outside outside]
  rintro rfl
  exact outside (listedPath_inside loaded lastByte (componentOffset_le _))

theorem listedPointer_ne_zero (loaded : Loaded space header entry.header)
    (lastByte : space (block + 255#64) = 0#8) (blockNonNull : ¬ Inside block 256 0#64) :
    listedPointer block entry dirString ≠ 0#64 := by
  intro isNull
  have first := @listedPath_inside space header block entry dirString loaded lastByte 0
    (Nat.zero_le _)
  rw [BitVec.add_zero, isNull] at first
  exact blockNonNull first

end Names

section Run

variable {hhdm start : Word} {fuel : Nat} {dir : Stream} {entries : List ArchiveEntry}
  {stuck : Prop} {Inv : List (ArchiveEntry × Word) → ByteSpace → Listing → Prop}

theorem FsState.listEntries_round {state : FsState} {previous header block : Word} {rounds : Nat}
    {listing : Listing} {mm : MmState Pmm} {result : Listing × FsState}
    (lookup : tarFilePrefixLookup state.vfs.space state.vfs.tarFsStartAddress previous = header)
    (nonNull : header ≠ 0#64)
    (taken : kAlloc hhdm fuel state.kernel.mm state.kernel.vmmKernel 256#64 = some
      (.ok (block, mm))) :
    Yields (listEntries hhdm fuel dir (rounds + 1) previous listing state) result ↔
      ∃ space' listing',
        listEntry fuel dir header block state.vfs.space listing = some (space', listing') ∧
        Yields (listEntries hhdm fuel dir rounds header listing'
          { state with
            vfs := { state.vfs with space := space' }
            kernel := { state.kernel with mm } }) result := by
  have allocated : Yields (kalloc hhdm fuel state 256#64)
      (block, { state with kernel := { state.kernel with mm } }) := by
    rw [kalloc_returns]
    exact ⟨mm, taken, rfl⟩
  rw [listEntries]
  dsimp only
  rw [lookup, if_neg nonNull, yields_bind]
  constructor
  · rintro ⟨⟨ptr, middle⟩, again, returned⟩
    cases allocated.unique again
    obtain ⟨⟨space', listing'⟩, listed, rest⟩ := yields_bind.mp returned
    rw [yields_lift] at listed
    exact ⟨space', listing', listed, rest⟩
  · rintro ⟨space', listing', listed, rest⟩
    refine ⟨_, allocated, ?_⟩
    rw [yields_bind]
    exact ⟨_, yields_lift.mpr listed, rest⟩

/-- What holds in front of every record holds at the end of the first loop, unless
the loop gets stuck at a record. -/
theorem FsState.listEntries_run
    (loaded : ∀ {rest space listing}, Inv rest space listing → Loaded space start (archive entries))
    (step : ∀ {entry block rest space listing header}, Inv ((entry, block) :: rest) space listing →
      Loaded space header entry.header →
      (listEntry fuel dir header block space listing = none ∧ stuck) ∨
        ∃ space' listing', listEntry fuel dir header block space listing = some (space', listing') ∧
          Inv rest space' listing')
    {left : List ArchiveEntry} {address previous : Word} {blocks : List Word} {rounds : Nat}
    {listing : Listing} {state : FsState}
    (placed : ∀ {space}, Loaded space start (archive entries) →
      Loaded space address (archive left) ∧
        tarFilePrefixLookup space start previous = prefixLookupLoop space address 2)
    (startEq : state.vfs.tarFsStartAddress = start)
    (serves : Serves hhdm fuel state.kernel blocks) (lengths : blocks.length = left.length)
    (enough : left.length < rounds) (inv : Inv (left.zip blocks) state.vfs.space listing) :
    (stuck ∧ ∀ result,
      ¬ Yields (listEntries hhdm fuel dir rounds previous listing state) result) ∨
    ∃ result after, Yields (listEntries hhdm fuel dir rounds previous listing state) (result, after) ∧
      Inv [] after.vfs.space result := by
  induction left generalizing address previous blocks rounds listing state with
  | nil =>
      obtain ⟨rounds, rfl⟩ : ∃ less, rounds = less + 1 := ⟨rounds - 1, by omega⟩
      obtain ⟨here, lookup⟩ := placed (loaded inv)
      rw [List.zip_nil_left] at inv
      refine .inr ⟨listing, state, ?_, inv⟩
      rw [listEntries]
      dsimp only
      rw [startEq, lookup, prefixLookupLoop_two, if_pos here.end_isZeroed, if_pos rfl, yields_pure]
  | cons entry left ih =>
      obtain ⟨rounds, rfl⟩ : ∃ less, rounds = less + 1 := ⟨rounds - 1, by omega⟩
      rw [List.length_cons] at lengths enough
      cases blocks with
      | nil => cases lengths
      | cons block blocks =>
          rw [List.length_cons, Nat.add_right_cancel_iff] at lengths
          obtain ⟨mm, taken, serves⟩ := serves
          obtain ⟨here, lookup⟩ := placed (loaded inv)
          rw [prefixLookupLoop_two, here.head.not_isZeroed, if_neg Bool.false_ne_true] at lookup
          rw [← startEq] at lookup
          have round := fun result => @listEntries_round hhdm fuel dir state previous address block
            rounds listing mm result lookup here.nonNull taken
          have next : ∀ {space}, Loaded space start (archive entries) →
              Loaded space (address + BitVec.ofNat 64 entry.bytes.length) (archive left) ∧
                tarFilePrefixLookup space start address = prefixLookupLoop space
                  (address + BitVec.ofNat 64 entry.bytes.length) 2 := by
            intro space everything
            have suffix := (placed everything).1
            have tail := suffix.tail
            rw [nextRecord_eq suffix.head] at tail
            refine ⟨tail, ?_⟩
            rw [tarFilePrefixLookup, if_neg suffix.nonNull, nextRecord_eq suffix.head]
          rw [List.zip_cons_cons] at inv
          rcases step inv here.head with ⟨isNone, isStuck⟩ | ⟨space', listing', listed, inv'⟩
          · refine .inl ⟨isStuck, fun result returned => ?_⟩
            obtain ⟨space', listing', listed, -⟩ := (round result).mp returned
            rw [isNone] at listed
            cases listed
          · rcases @ih _ address blocks rounds listing'
              { state with
                vfs := { state.vfs with space := space' }
                kernel := { state.kernel with mm } }
              next startEq serves lengths (Nat.lt_of_succ_lt_succ enough) inv' with
              ⟨isStuck, never⟩ | ⟨result, after, returned, atEnd⟩
            · refine .inl ⟨isStuck, fun result returned => ?_⟩
              obtain ⟨space'', listing'', again, rest⟩ := (round result).mp returned
              rw [listed] at again
              cases again
              exact never result rest
            · exact .inr ⟨result, after, (round _).mpr ⟨space', listing', listed, returned⟩, atEnd⟩

theorem FsState.listEntries_all
    (loaded : ∀ {rest space listing}, Inv rest space listing → Loaded space start (archive entries))
    (step : ∀ {entry block rest space listing header}, Inv ((entry, block) :: rest) space listing →
      Loaded space header entry.header →
      (listEntry fuel dir header block space listing = none ∧ stuck) ∨
        ∃ space' listing', listEntry fuel dir header block space listing = some (space', listing') ∧
          Inv rest space' listing')
    {blocks : List Word} {rounds : Nat} {listing : Listing} {state : FsState}
    (startEq : state.vfs.tarFsStartAddress = start)
    (serves : Serves hhdm fuel state.kernel blocks) (lengths : blocks.length = entries.length)
    (enough : entries.length < rounds) (inv : Inv (entries.zip blocks) state.vfs.space listing) :
    (stuck ∧ ∀ result, ¬ Yields (listEntries hhdm fuel dir rounds 0#64 listing state) result) ∨
    ∃ result after, Yields (listEntries hhdm fuel dir rounds 0#64 listing state) (result, after) ∧
      Inv [] after.vfs.space result :=
  @listEntries_run hhdm start fuel dir entries stuck Inv loaded step entries start 0#64 blocks rounds
    listing state (fun whole => ⟨whole, rfl⟩) startEq serves lengths enough inv

theorem FsState.ustarReadDir_yields {pathes : Nat → Word} {middle : FsState}
    {buffer nbytes offset count : Word}
    (listed : Yields (listEntries hhdm fuel dir fuel 0#64 ⟨pathes, 0⟩ state) (listing, middle))
    (written : writeListing fuel listing.pathes 50 0 buffer 0#64 middle.vfs.space =
      some (count, space)) :
    Yields (ustarReadDir hhdm pathes fuel state dir buffer nbytes offset)
      (count, { middle with vfs := { middle.vfs with space } }) := by
  rw [ustarReadDir, yields_bind]
  refine ⟨_, listed, ?_⟩
  rw [yields_bind]
  exact ⟨_, yields_lift.mpr written, yields_pure.mpr rfl⟩

end Run

section Memory

variable {start area : Word} {entries : List ArchiveEntry} {room : Nat} {space : ByteSpace}

variable (start area entries room) in
structure ListingReady (rest : List (ArchiveEntry × Word)) (space : ByteSpace) : Prop where
  loaded : Loaded space start (archive entries)
  lastBytes : ∀ record ∈ rest, space (record.2 + 255#64) = 0#8
  archiveArea : Apart start (archive entries).length area room
  archiveBlock : ∀ record ∈ rest, Apart start (archive entries).length record.2 256
  areaBlock : ∀ record ∈ rest, Apart area room record.2 256
  blocksApart : rest.Pairwise fun first second => Apart first.2 256 second.2 256
  blockNonNull : ∀ record ∈ rest, ¬ Inside record.2 256 0#64

/-- A round writes to the block of its record, and to the area. -/
theorem ListingReady.next {entry : ArchiveEntry} {rest : List (ArchiveEntry × Word)}
    {after : ByteSpace}
    (ready : ListingReady start area entries room ((entry, block) :: rest) space)
    (same : ∀ address, ¬ Inside block 256 address → ¬ Inside area room address →
      after address = space address) :
    ListingReady start area entries room rest after where
  loaded := by
    refine ready.loaded.of_agree fun i below => same _ ?_ ?_
    · exact (ready.archiveBlock _ List.mem_cons_self).not_inside ⟨i, below, rfl⟩
    · exact ready.archiveArea.not_inside ⟨i, below, rfl⟩
  lastBytes := by
    intro record member
    have last : Inside record.2 256 (record.2 + 255#64) := ⟨255, by decide, rfl⟩
    rw [same, ready.lastBytes record (List.mem_cons_of_mem _ member)]
    · have apart := (List.pairwise_cons.mp ready.blocksApart).1 record member
      exact apart.symm.not_inside last
    · exact (ready.areaBlock record (List.mem_cons_of_mem _ member)).symm.not_inside last
  archiveArea := ready.archiveArea
  archiveBlock := fun record member => ready.archiveBlock record (List.mem_cons_of_mem _ member)
  areaBlock := fun record member => ready.areaBlock record (List.mem_cons_of_mem _ member)
  blocksApart := (List.pairwise_cons.mp ready.blocksApart).2
  blockNonNull := fun record member => ready.blockNonNull record (List.mem_cons_of_mem _ member)

def withArea (area : Word) (room : Nat) (bytes : Stream) (space : ByteSpace) : ByteSpace :=
  fun address =>
    if (address - area).toNat < room then bytes (address - area).toNat else space address

theorem withArea_inside {bytes : Stream} {offset : Nat} (inside : offset < room)
    (small : room ≤ 2 ^ 64) :
    withArea area room bytes space (area + BitVec.ofNat 64 offset) = bytes offset := by
  have position : (area + BitVec.ofNat 64 offset - area).toNat = offset := by
    rw [BitVec.add_comm, BitVec.add_sub_cancel, BitVec.toNat_ofNat, Nat.mod_eq_of_lt (by omega)]
  rw [withArea, position, if_pos inside]

theorem withArea_outside {bytes : Stream} (small : room ≤ 2 ^ 64)
    (outside : ¬ Inside area room address) :
    withArea area room bytes space address = space address :=
  if_neg (mt (inside_iff small).mpr outside)

theorem withArea_self : withArea area room (deref space area) space = space := by
  funext address
  rw [withArea, deref, BitVec.ofNat_toNat, BitVec.setWidth_eq, BitVec.add_comm,
    BitVec.sub_add_cancel, ite_self]

theorem holds_withArea {bytes : Stream} {offset : Nat} {string : List Byte}
    (holds : Holds (advance offset bytes) string) (inside : offset + string.length < room)
    (small : room ≤ 2 ^ 64) :
    Holds (deref (withArea area room bytes space) (area + BitVec.ofNat 64 offset)) string := by
  have same : ∀ i ≤ string.length,
      deref (withArea area room bytes space) (area + BitVec.ofNat 64 offset) i =
        advance offset bytes i := by
    intro i below
    rw [deref, BitVec.add_assoc, ← BitVec.ofNat_add, withArea_inside (by omega) small,
      advance_apply, Nat.add_comm]
  refine ⟨holds.noZero, fun i below => ?_, ?_⟩
  · rw [same i (Nat.le_of_lt below)]
    exact holds.chars i below
  · rw [same _ (Nat.le_refl _)]
    exact holds.stops

theorem holds_withArea_start {bytes : Stream} {string : List Byte} (holds : Holds bytes string)
    (inside : string.length < room) (small : room ≤ 2 ^ 64) :
    Holds (deref (withArea area room bytes space) area) string := by
  have atZero := @holds_withArea area room space bytes 0 string holds (by omega) small
  rwa [BitVec.add_zero] at atZero

/-- The memory in front of the first record, zero apart from the archive and the
area. -/
theorem ListingLayout.ready (bytes : Stream)
    (layout : ListingLayout start (archive entries).length blocks area room)
    (lengths : blocks.length = entries.length) :
    ListingReady start area entries room (entries.zip blocks)
      (withArea area room bytes (imageSpace start (archive entries))) where
  loaded := by
    have fits := layout.areaFits
    refine (loaded_imageSpace layout.archiveNonNull layout.archiveFits).of_agree fun i below => ?_
    exact withArea_outside (by omega) (layout.archiveArea.not_inside ⟨i, below, rfl⟩)
  lastBytes := by
    intro record member
    have isBlock := (List.of_mem_zip member).2
    have fits := layout.archiveFits
    have areaFits := layout.areaFits
    have last : Inside record.2 256 (record.2 + 255#64) := ⟨255, by decide, rfl⟩
    have outside := mt (inside_iff (by omega)).mpr
      ((layout.archiveBlock _ isBlock).symm.not_inside last)
    rw [withArea_outside (by omega) ((layout.areaBlock _ isBlock).symm.not_inside last),
      imageSpace, List.getElem?_eq_none (Nat.not_lt.mp outside), Option.getD_none]
  archiveArea := layout.archiveArea
  archiveBlock := fun record member => layout.archiveBlock _ (List.of_mem_zip member).2
  areaBlock := fun record member => layout.areaBlock _ (List.of_mem_zip member).2
  blocksApart := by
    have blocksEq : (entries.zip blocks).map Prod.snd = blocks :=
      List.map_snd_zip (Nat.le_of_eq lengths)
    have apart := layout.blocksApart
    rw [← blocksEq, List.pairwise_map] at apart
    exact apart
  blockNonNull := fun record member => layout.blockNonNull _ (List.of_mem_zip member).2

end Memory

section Output

variable {fuel : Nat} {space : ByteSpace} {address buffer readBytes : Word} {string : List Byte}

theorem copyPath_apart (holds : Holds (deref space address) string) (enough : string.length < fuel)
    (apart : ∀ i < string.length, ∀ j ≤ string.length,
      address + BitVec.ofNat 64 j ≠ buffer + BitVec.ofNat 64 i) :
    copyPath fuel address buffer readBytes space =
      some (buffer + BitVec.ofNat 64 string.length, readBytes + BitVec.ofNat 64 string.length,
        copyBytes string.length buffer address space) := by
  induction string generalizing fuel space address buffer readBytes with
  | nil =>
      have ends := holds.stops
      rw [List.length_nil, deref_zero] at ends
      obtain ⟨fuel, rfl⟩ : ∃ less, fuel = less + 1 := ⟨fuel - 1, by omega⟩
      rw [copyPath, if_pos ends, List.length_nil, BitVec.add_zero, BitVec.add_zero, copyBytes]
  | cons char rest ih =>
      obtain ⟨first, nonzero, tail⟩ := holds.of_cons
      rw [deref_zero] at first
      rw [← deref_add] at tail
      rw [List.length_cons] at enough apart
      obtain ⟨fuel, rfl⟩ : ∃ less, fuel = less + 1 := ⟨fuel - 1, by omega⟩
      rw [copyPath, if_neg (by rwa [first]), ih ?_ (by omega) ?_, add_one_add_ofNat,
        add_one_add_ofNat, List.length_cons, copyBytes]
      · refine Holds.update_of_ne tail fun j jLe => ?_
        have different := apart 0 (Nat.succ_pos _) (j + 1) (Nat.succ_le_succ jLe)
        rwa [BitVec.add_zero, ← add_one_add_ofNat] at different
      · intro i iLt j jLe
        rw [add_one_add_ofNat, add_one_add_ofNat]
        exact apart (i + 1) (Nat.succ_lt_succ iLt) (j + 1) (Nat.succ_le_succ jLe)

theorem copyPath_self (holds : Holds (deref space address) string) (enough : string.length < fuel) :
    copyPath fuel address address readBytes space =
      some (address + BitVec.ofNat 64 string.length, readBytes + BitVec.ofNat 64 string.length,
        space) := by
  induction string generalizing fuel address readBytes with
  | nil =>
      have ends := holds.stops
      rw [List.length_nil, deref_zero] at ends
      obtain ⟨fuel, rfl⟩ : ∃ less, fuel = less + 1 := ⟨fuel - 1, by omega⟩
      rw [copyPath, if_pos ends, List.length_nil, BitVec.add_zero, BitVec.add_zero]
  | cons char rest ih =>
      obtain ⟨first, nonzero, tail⟩ := holds.of_cons
      rw [deref_zero] at first
      rw [← deref_add] at tail
      rw [List.length_cons] at enough
      obtain ⟨fuel, rfl⟩ : ∃ less, fuel = less + 1 := ⟨fuel - 1, by omega⟩
      rw [copyPath, if_neg (by rwa [first]), update_eq_self, ih tail (by omega),
        add_one_add_ofNat, add_one_add_ofNat, List.length_cons]

theorem writeListing_single (holds : Holds (deref space address) string) (nonNull : address ≠ 0#64)
    (enough : string.length < fuel)
    (apart : ∀ i < string.length, ∀ j ≤ string.length,
      address + BitVec.ofNat 64 j ≠ buffer + BitVec.ofNat 64 i) :
    writeListing fuel (update (fun _ => 0#64) 0 address) 50 0 buffer 0#64 space =
      some (BitVec.ofNat 64 (string.length + 1),
        update (copyBytes string.length buffer address space)
          (buffer + BitVec.ofNat 64 string.length) 0x0a#8) := by
  have first : update (fun _ => 0#64) 0 address 0 = address := update_self _ _ _
  have second : update (fun _ => 0#64) 0 address 1 = 0#64 :=
    update_of_ne (by decide) _ _
  rw [writeListing, first, if_neg nonNull, copyPath_apart holds enough apart, Option.bind_eq_bind,
    Option.bind_some]
  dsimp only
  rw [writeListing, if_pos second, BitVec.zero_add, ← BitVec.ofNat_add]

end Output

section Single

variable {hhdm start area block : Word} {entry : ArchiveEntry} {room fuel : Nat} {dir : Stream}
  {dirString : List Byte}

variable (entry block dirString) in
structure SinglePath (space : ByteSpace) (listing : Listing) : Prop where
  listingEq : listing =
    ⟨update (fun _ => 0#64) 0 (listedPointer block entry dirString), 1⟩
  holds : Holds (deref space (listedPointer block entry dirString)) (listedPath entry dirString)
  nonNull : listedPointer block entry dirString ≠ 0#64
  short : (listedPath entry dirString).length ≤ 255
  inside : ∀ i ≤ (listedPath entry dirString).length,
    Inside block 256 (listedPointer block entry dirString + BitVec.ofNat 64 i)

variable (start area entry block room dirString) in
structure SingleListing (rest : List (ArchiveEntry × Word)) (space : ByteSpace)
    (listing : Listing) : Prop where
  ready : ListingReady start area [entry] room rest space
  progress : rest = [(entry, block)] ∧ listing = ⟨fun _ => 0#64, 0⟩ ∨
    rest = [] ∧ SinglePath block entry dirString space listing

theorem SingleListing.step {rest : List (ArchiveEntry × Word)} {space : ByteSpace}
    {listing : Listing} {entry' : ArchiveEntry} {block' header : Word}
    (single : SingleListing start area block entry room dirString ((entry', block') :: rest) space
      listing)
    (loaded : Loaded space header entry'.header) (dirHolds : Holds dir dirString)
    (enough : dirString.length ≤ fuel) (below : listedPath entry dirString ≠ []) :
    ∃ space' listing', listEntry fuel dir header block' space listing = some (space', listing') ∧
      SingleListing start area block entry room dirString rest space' listing' := by
  rcases single.progress with ⟨isFirst, rfl⟩ | ⟨isEnd, -⟩
  · cases isFirst
    have lastByte := single.ready.lastBytes _ List.mem_cons_self
    obtain ⟨listed, new⟩ := @listEntry_of_ne_nil space header block entry fuel dir dirString
      ⟨fun _ => 0#64, 0⟩ loaded lastByte dirHolds enough below
    refine ⟨writeName space header block, _, ?_,
      single.ready.next fun address outside _ => writeName_outside outside,
      .inr ⟨rfl, rfl, new.holds,
        listedPointer_ne_zero loaded lastByte (single.ready.blockNonNull _ List.mem_cons_self),
        length_listedPath_le loaded lastByte,
        fun i iLe => listedPath_inside loaded lastByte iLe⟩⟩
    have isNull : (Listing.mk (fun _ => 0#64) 0).pathes 0 = 0#64 := rfl
    rw [listed, isDuplicate_null isNull]
    rfl
  · cases isEnd

theorem FsState.listEntries_single
    (ready : ListingReady start area [entry] room [(entry, block)] state.vfs.space)
    (startEq : state.vfs.tarFsStartAddress = start) (serves : Serves hhdm fuel state.kernel [block])
    (dirHolds : Holds dir dirString) (enough : dirString.length + 256 < fuel)
    (below : listedPath entry dirString ≠ []) :
    ∃ after, Yields (listEntries hhdm fuel dir fuel 0#64 ⟨fun _ => 0#64, 0⟩ state)
        (⟨update (fun _ => 0#64) 0 (listedPointer block entry dirString), 1⟩, after) ∧
      SinglePath block entry dirString after.vfs.space
        ⟨update (fun _ => 0#64) 0 (listedPointer block entry dirString), 1⟩ := by
  rcases @FsState.listEntries_all hhdm start fuel dir [entry] False
    (SingleListing start area block entry room dirString) (fun single => single.ready.loaded)
    (fun single loaded => .inr (single.step loaded dirHolds (by omega) below)) [block] fuel
    ⟨fun _ => 0#64, 0⟩ state startEq serves rfl (by rw [List.length_singleton]; omega)
    ⟨ready, .inl ⟨rfl, rfl⟩⟩ with ⟨impossible, -⟩ | ⟨listing, after, listed, atEnd⟩
  · exact impossible.elim
  · rcases atEnd.progress with ⟨isFirst, -⟩ | ⟨-, path⟩
    · cases isFirst
    · obtain rfl := path.listingEq
      exact ⟨after, listed, path⟩

theorem SinglePath.apart (path : SinglePath block entry dirString space listing)
    (areaBlock : Apart area room block 256) (roomEnough : 256 ≤ room) :
    ∀ i < (listedPath entry dirString).length, ∀ j ≤ (listedPath entry dirString).length,
      listedPointer block entry dirString + BitVec.ofNat 64 j ≠ area + BitVec.ofNat 64 i := by
  intro i iLt j jLe same
  have short := path.short
  have inBlock := path.inside j jLe
  rw [same] at inBlock
  exact areaBlock.not_inside ⟨i, by omega, rfl⟩ inBlock

theorem FsState.ustarReadDir_single {state : FsState} {nbytes offset : Word}
    (ready : ListingReady start area [entry] room [(entry, block)] state.vfs.space)
    (startEq : state.vfs.tarFsStartAddress = start) (serves : Serves hhdm fuel state.kernel [block])
    (dirHolds : Holds dir dirString) (enough : dirString.length + 256 < fuel)
    (roomEnough : 256 ≤ room) (below : listedPath entry dirString ≠ []) :
    ∃ after, Yields (ustarReadDir hhdm (fun _ => 0#64) fuel state dir area nbytes offset)
      (BitVec.ofNat 64 ((listedPath entry dirString).length + 1), after) := by
  obtain ⟨middle, listed, path⟩ := listEntries_single ready startEq serves dirHolds enough below
  have short := path.short
  exact ⟨_, ustarReadDir_yields listed (writeListing_single path.holds
    path.nonNull (by omega) (path.apart (ready.areaBlock _ List.mem_cons_self) roomEnough))⟩

end Single

section Machine

theorem Serves.mono {hhdm : Word} {fuel more : Nat} {kernel : KernelState Pmm}
    (serves : Serves hhdm fuel kernel blocks) (fuelLe : fuel ≤ more) :
    Serves hhdm more kernel blocks := by
  induction blocks generalizing kernel with
  | nil => trivial
  | cons block blocks ih =>
      obtain ⟨mm, taken, rest⟩ := serves
      exact ⟨mm, kAlloc_mono fuelLe taken, ih rest⟩

theorem machine_serves : ∃ kernel block, Serves machineHhdm 1 kernel [block] ∧
    machineHhdm.toNat ≤ block.toNat ∧ block.toNat + 256 ≤ 2 ^ 64 := by
  obtain ⟨-, booted, height, kernel, -, -, -, owned, enough⟩ := machine_owned fun _ => True
  obtain ⟨arena, height', mm, call, -, owned', -⟩ :=
    @HeapHistory.Owned.alloc_ok _ _ _ _ _ _ _ _ owned 256#64 trivial (by decide)
      (by dsimp only; omega) 0
  have arenaAt := owned'.arena_at arena List.mem_cons_self
  obtain ⟨-, -, address, reach⟩ := arenaAt.addresses owned'.forked.ready.tables.valid
  have positive := arenaAt.positive
  have firstPage : (arena.start + 1) * pageSize ≤ (arena.start + arena.count) * pageSize :=
    Nat.mul_le_mul_right _ (by omega)
  rw [pageSize] at address reach firstPage
  exact ⟨booted, arena.ptr machineHhdm, ⟨mm, call, trivial⟩, by omega, by omega⟩

/-- An archive of some pages and an area behind it are apart from a block in the upper
half. -/
theorem machine_layout {size : Nat} (sizeLe : size ≤ 0x10000)
    (high : machineHhdm.toNat ≤ block.toNat) (fits : block.toNat + 256 ≤ 2 ^ 64) :
    ListingLayout 0x10000#64 size [block] 0x20000#64 0x20000 where
  archiveNonNull := by decide
  archiveFits := by
    rw [BitVec.toNat_ofNat]
    omega
  areaNonNull := by decide
  areaFits := by decide
  archiveArea := apart_of_le (by rw [BitVec.toNat_ofNat, BitVec.toNat_ofNat]; omega) (by decide)
  archiveBlock := by
    intro other member
    rw [List.mem_singleton.mp member]
    have upper : 0x20000 ≤ machineHhdm.toNat := by decide
    exact apart_of_le (by rw [BitVec.toNat_ofNat]; omega) fits
  areaBlock := by
    intro other member
    rw [List.mem_singleton.mp member]
    have upper : 0x40000 ≤ machineHhdm.toNat := by decide
    exact apart_of_le (by rw [BitVec.toNat_ofNat]; omega) fits
  blocksApart := List.pairwise_singleton _ _
  blockNonNull := by
    intro other member
    rw [List.mem_singleton.mp member]
    rintro ⟨i, below, isNull⟩
    have address := congrArg BitVec.toNat isNull
    have upper : 0x40000 ≤ machineHhdm.toNat := by decide
    rw [BitVec.toNat_add, BitVec.toNat_ofNat, BitVec.toNat_ofNat] at address
    omega

theorem machine_listing {size : Nat} (sizeLe : size ≤ 0x10000) : ∃ kernel block,
    ListingLayout 0x10000#64 size [block] 0x20000#64 0x20000 ∧
    ∀ fuel ≥ 1, Serves machineHhdm fuel kernel [block] := by
  obtain ⟨kernel, block, serves, high, fits⟩ := machine_serves
  exact ⟨kernel, block, machine_layout sizeLe high fits, fun fuel enough => serves.mono enough⟩

end Machine

end MmdOS
