import MmdOS.ListingRuns

/-!
# The buffers of a listing

`ustar_read_dir` does not look at the size of the buffer, nor at the number of paths
in its array.  A stale pointer to the buffer itself is copied behind its own
characters, so that the copy does not come to an end.
-/

namespace MmdOS

open CString Outcome
open Function (update update_self update_of_ne)

variable {listing : Listing}

/-- The bytes that the inner loop of the output stores. -/
def copyWrites : (fuel : Nat) → (address buffer : Word) → ByteSpace → Nat
  | 0, _, _, _ => 0
  | fuel + 1, address, buffer, space =>
      if space address = 0#8 then 0
      else
        copyWrites fuel (address + 1#64) (buffer + 1#64)
          (update space buffer (space address)) + 1

/-- The bytes that the last loop of `ustar_read_dir` stores. -/
def listingWrites (fuel : Nat) (pathes : Nat → Word) :
    (left index : Nat) → (buffer : Word) → ByteSpace → Nat
  | 0, _, _, _ => 0
  | left + 1, index, buffer, space =>
      if pathes index = 0#64 then 0
      else
        match copyPath fuel (pathes index) buffer 0#64 space with
        | none => copyWrites fuel (pathes index) buffer space
        | some (behind, _, copied) =>
            copyWrites fuel (pathes index) buffer space + 1 +
              listingWrites fuel pathes left (index + 1) (behind + 1#64)
                (update copied behind 0x0a#8)

def FsState.readDirWrites (hhdm : Word) (pathes : Nat → Word) (fuel : Nat) (state : FsState)
    (dir : Stream) (buffer : Word) : Nat :=
  match (listEntries hhdm fuel dir fuel 0#64 ⟨pathes, 0⟩ state).run with
  | some (.ok (listing, after)) =>
      listingWrites fuel listing.pathes 50 0 buffer after.vfs.space
  | _ => 0

section Counts

variable {fuel : Nat} {pathes : Nat → Word} {space after : ByteSpace}
  {address buffer readBytes count behind : Word}
variable {hhdm : Word} {state : FsState} {dir : Stream}

theorem copyPath_writes
    (copied : copyPath fuel address buffer readBytes space = some (behind, count, after))
    (start : Word) :
    copyPath fuel address buffer start space =
      some (behind, start + BitVec.ofNat 64 (copyWrites fuel address buffer space), after) := by
  induction fuel generalizing address buffer readBytes space start with
  | zero => cases copied
  | succ fuel ih =>
      rw [copyPath] at copied ⊢
      rw [copyWrites]
      split at copied
      · next ends =>
        cases copied
        rw [if_pos ends, if_pos ends, BitVec.add_zero]
      · next continues =>
        rw [if_neg continues, if_neg continues, ih copied, add_one_add_ofNat]

theorem writeListing_writes {left index : Nat}
    (written : writeListing fuel pathes left index buffer readBytes space = some (count, after)) :
    count = readBytes + BitVec.ofNat 64 (listingWrites fuel pathes left index buffer space) := by
  induction left generalizing index buffer readBytes space with
  | zero =>
      cases written
      rw [listingWrites, BitVec.add_zero]
  | succ left ih =>
      rw [writeListing] at written
      rw [listingWrites]
      split at written
      · next ends =>
        cases written
        rw [if_pos ends, BitVec.add_zero]
      · next continues =>
        obtain ⟨⟨behind, middle, copied⟩, isCopied, rest⟩ := Option.bind_eq_some_iff.mp written
        have counted := copyPath_writes isCopied readBytes
        rw [isCopied, Option.some.injEq, Prod.mk.injEq, Prod.mk.injEq] at counted
        rw [if_neg continues, copyPath_writes isCopied 0#64, ih rest, counted.2.1, BitVec.add_assoc,
          BitVec.add_assoc, ← BitVec.ofNat_add, ← BitVec.ofNat_add, ← Nat.add_assoc]

theorem FsState.readDirWrites_eq {middle : FsState}
    (listed : Yields (listEntries hhdm fuel dir fuel 0#64 ⟨pathes, 0⟩ state) (listing, middle)) :
    readDirWrites hhdm pathes fuel state dir buffer =
      listingWrites fuel listing.pathes 50 0 buffer middle.vfs.space := by
  rw [readDirWrites, listed]
  rfl

/-- What `ustar_read_dir` returns is the number of bytes that it has stored. -/
theorem FsState.ustarReadDir_writes {nbytes offset : Word} {after : FsState}
    (returned : Yields (ustarReadDir hhdm pathes fuel state dir buffer nbytes offset)
      (count, after)) :
    count = BitVec.ofNat 64 (readDirWrites hhdm pathes fuel state dir buffer) := by
  rw [ustarReadDir, yields_bind] at returned
  obtain ⟨⟨listing, middle⟩, listed, returned⟩ := returned
  obtain ⟨⟨readBytes, space⟩, written, returned⟩ := yields_bind.mp returned
  rw [yields_lift] at written
  rw [yields_pure] at returned
  cases returned
  rw [readDirWrites_eq listed, writeListing_writes written, BitVec.zero_add]

end Counts

section Overruns

variable {fuel : Nat} {pathes : Nat → Word} {space : ByteSpace} {area : Word} {count room : Nat}

/-- A string that is copied behind its own characters never ends. -/
theorem copyWrites_self (positive : 0 < count) (small : count < 2 ^ 64)
    (nonzero : ∀ i < count, space (area + BitVec.ofNat 64 i) ≠ 0#8) :
    copyWrites fuel area (area + BitVec.ofNat 64 count) space = fuel := by
  induction fuel generalizing area space with
  | zero => rfl
  | succ fuel ih =>
      have first := nonzero 0 positive
      rw [BitVec.add_zero] at first
      have next : area + BitVec.ofNat 64 count + 1#64 = area + 1#64 + BitVec.ofNat 64 count := by
        rw [BitVec.add_assoc, BitVec.add_assoc, BitVec.add_comm 1#64]
      rw [copyWrites, if_neg first, next, ih]
      intro i below
      rw [add_one_add_ofNat]
      by_cases isLast : i + 1 = count
      · rw [isLast, update_self]
        exact first
      · rw [update_of_ne]
        · exact nonzero (i + 1) (by omega)
        · exact fun same => isLast (ofNat_add_inj (by omega) small same)

theorem listingWrites_self {left index : Nat} (isArea : pathes index = area)
    (nonNull : area ≠ 0#64) (positive : 0 < count) (small : count < 2 ^ 64)
    (nonzero : ∀ i < count, space (area + BitVec.ofNat 64 i) ≠ 0#8) :
    fuel ≤ listingWrites fuel pathes (left + 1) index (area + BitVec.ofNat 64 count) space := by
  rw [listingWrites, isArea, if_neg nonNull, copyWrites_self positive small nonzero]
  split
  · exact Nat.le_refl _
  · omega

theorem printed_nonzero {string : List Byte} {pointer : Word}
    (holds : Holds (deref space pointer) string)
    (apart : ∀ i < string.length, ∀ j ≤ string.length,
      pointer + BitVec.ofNat 64 j ≠ area + BitVec.ofNat 64 count + BitVec.ofNat 64 i)
    (small : count + string.length + 1 ≤ 2 ^ 64)
    (nonzero : ∀ i < count, space (area + BitVec.ofNat 64 i) ≠ 0#8) :
    ∀ i < count + string.length + 1,
      update
        (copyBytes string.length (area + BitVec.ofNat 64 count) pointer space)
        (area + BitVec.ofNat 64 count + BitVec.ofNat 64 string.length) 0x0a#8
        (area + BitVec.ofNat 64 i) ≠ 0#8 := by
  intro i below
  rw [BitVec.add_assoc, ← BitVec.ofNat_add]
  by_cases isLast : i = count + string.length
  · rw [isLast, update_self]
    decide
  rw [update_of_ne fun same => isLast (ofNat_add_inj (by omega) (by omega) same)]
  rcases Nat.lt_or_ge i count with before | inside
  · rw [copyBytes_outside]
    · exact nonzero i before
    · intro k kLt same
      rw [BitVec.add_assoc, ← BitVec.ofNat_add] at same
      have := ofNat_add_inj (by omega) (by omega) same
      omega
  · obtain ⟨k, rfl⟩ := Nat.exists_eq_add_of_le inside
    have kLt : k < string.length := by omega
    rw [BitVec.ofNat_add, ← BitVec.add_assoc, copyBytes_inside (by omega)
      (fun i iLt j jLt => apart i iLt j (Nat.le_of_lt jLt)) kLt]
    exact holds.char_ne_zero kLt

theorem listingWrites_overruns {before left index : Nat}
    (printable : ∀ i < before, ∃ stored, pathes (index + i) ≠ 0#64 ∧
      Holds (deref space (pathes (index + i))) stored ∧ stored.length ≤ 255 ∧
      ∀ j ≤ stored.length, ¬ Inside area room (pathes (index + i) + BitVec.ofNat 64 j))
    (isArea : pathes (index + before) = area) (nonNull : area ≠ 0#64)
    (nonzero : ∀ i < count, space (area + BitVec.ofNat 64 i) ≠ 0#8) (some : 0 < count + before)
    (roomEnough : count + 256 * before < room) (small : room ≤ 2 ^ 64) (enough : 255 < fuel) :
    fuel ≤ listingWrites fuel pathes (before + 1 + left) index (area + BitVec.ofNat 64 count)
      space := by
  induction before generalizing count index space with
  | zero =>
      rw [Nat.zero_add, Nat.add_comm 1]
      exact listingWrites_self isArea nonNull some (by omega) nonzero
  | succ before ih =>
      obtain ⟨stored, firstNonNull, holds, short, outside⟩ := printable 0 (Nat.succ_pos _)
      rw [Nat.add_zero] at firstNonNull holds outside
      have apart : ∀ i < stored.length, ∀ j ≤ stored.length,
          pathes index + BitVec.ofNat 64 j ≠ area + BitVec.ofNat 64 count + BitVec.ofNat 64 i := by
        intro i iLt j jLe same
        rw [BitVec.add_assoc, ← BitVec.ofNat_add] at same
        exact outside j jLe ⟨count + i, by omega, same⟩
      have shift : ∀ i, index + 1 + i = index + (i + 1) := fun i => by omega
      have next := @ih (update
          (copyBytes stored.length (area + BitVec.ofNat 64 count) (pathes index) space)
          (area + BitVec.ofNat 64 count + BitVec.ofNat 64 stored.length) 0x0a#8)
        (count + stored.length + 1) (index + 1) (by
          intro i below
          obtain ⟨other, otherNonNull, otherHolds, otherShort, otherOutside⟩ :=
            printable (i + 1) (Nat.succ_lt_succ below)
          rw [shift]
          refine ⟨other, otherNonNull, Holds.congr otherHolds fun j jLe => ?_, otherShort,
            otherOutside⟩
          rw [update_of_ne, copyBytes_outside]
          · intro k kLt same
            rw [BitVec.add_assoc, ← BitVec.ofNat_add] at same
            exact otherOutside j jLe ⟨count + k, by omega, same⟩
          · intro same
            rw [BitVec.add_assoc, ← BitVec.ofNat_add] at same
            exact otherOutside j jLe ⟨count + stored.length, by omega, same⟩)
        (by rw [shift]; exact isArea) (printed_nonzero holds apart (by omega) nonzero) (by omega)
        (by omega)
      have behind : area + BitVec.ofNat 64 count + BitVec.ofNat 64 stored.length + 1#64 =
          area + BitVec.ofNat 64 (count + stored.length + 1) := by
        rw [BitVec.add_assoc, BitVec.add_assoc, ← BitVec.ofNat_add, ← BitVec.ofNat_add,
          Nat.add_assoc]
      rw [Nat.add_right_comm, listingWrites, if_neg firstNonNull,
        copyPath_apart holds (by omega) apart]
      dsimp only
      rw [behind]
      omega

end Overruns

section Bounds

variable {hhdm start area nbytes : Word} {kernel : KernelState Pmm} {entries : List ArchiveEntry}
  {blocks : List Word} {room rounds fuel : Nat} {dirString : List Byte}
variable {stale : List Byte} {total : List (List Byte)} {space : ByteSpace}

/-- A listing among stale pointers to the buffer stores more than 50 paths, or just 50,
or does not end. -/
theorem StaleRun.overruns {initial : Nat → Word}
    (run : StaleRun start area entries room dirString initial stale total [] space listing)
    (isArea : ∀ i ≥ 1, initial i = area) (first : total = [] → initial 0 = area)
    (nonNull : area ≠ 0#64) (small : room ≤ 2 ^ 64)
    (roomEnough : 2 * dirString.length + 2 ^ 14 ≤ room) (enough : 2 ^ 16 + dirString.length < fuel) :
    51 ≤ listing.pathesLen ∨ total.length = 50 ∨
      fuel ≤ listingWrites fuel listing.pathes 50 0 area space := by
  obtain ⟨targets, settled, exceeded | ⟨seen, tracked⟩⟩ := run
  · exact .inl exceeded
  have totalEq : seen = total := tracked.totalEq
  have count := tracked.count
  have inside := tracked.inside
  rw [totalEq] at count inside
  rcases Nat.lt_or_ge total.length 50 with below | full
  swap
  · exact .inr (.inl (Nat.le_antisymm inside full))
  refine .inr (.inr ?_)
  have stays : ∀ i ≥ listing.pathesLen, 1 ≤ i → listing.pathes i = area :=
    fun i behind positive => (settled.unset i behind).trans (isArea i positive)
  cases total with
  | nil =>
      -- the stale path is copied onto itself, and the next one behind it
      have zeroth : listing.pathes 0 = area := by
        rw [settled.unset 0 (Nat.le_of_eq count), first rfl]
      obtain ⟨stored, path, -⟩ := settled.settled 0 (by decide)
      have fits := path.fits
      have holds := path.holds
      rw [zeroth] at holds
      have next := @listingWrites_self fuel listing.pathes
        (update space (area + BitVec.ofNat 64 stored.length) 0x0a#8) area
        (stored.length + 1) 48 1 (stays 1 (by rw [count]; exact Nat.zero_le _) le_rfl) nonNull
        (Nat.succ_pos _) (by omega) (by
          intro i iLt
          by_cases isLast : i = stored.length
          · rw [isLast, update_self]
            decide
          · rw [update_of_ne fun same =>
              isLast (ofNat_add_inj (by omega) (by omega) same)]
            exact holds.char_ne_zero (by omega))
      rw [listingWrites, zeroth, if_neg nonNull, copyPath_self holds (by omega)]
      dsimp only
      rw [BitVec.add_assoc, ← BitVec.ofNat_add]
      exact Nat.le_trans next (Nat.le_add_left _ _)
  | cons component rest =>
      rw [List.length_cons] at count below
      have left : 50 = rest.length + 1 + 1 + (50 - (rest.length + 2)) := by omega
      rw [left, ← BitVec.add_zero area]
      refine @listingWrites_overruns fuel listing.pathes space area 0 room (rest.length + 1)
        (50 - (rest.length + 2)) 0 ?_ ?_ nonNull (fun i below => absurd below (Nat.not_lt_zero i))
        (by omega) (by omega) small (by omega)
      · intro i iLt
        rw [Nat.zero_add]
        obtain ⟨stored, path, printable⟩ := settled.settled i (by omega)
        obtain ⟨short, outside⟩ := printable (by omega)
        exact ⟨stored, path.nonNull, path.holds, short, outside⟩
      · rw [Nat.zero_add]
        exact stays _ (by omega) (by omega)

/-- Whatever the array on the stack and the memory outside the archive hold, a listing
stores no more than 50 paths in the array and no more than `nbytes` bytes in the
buffer. -/
def RespectsBuffers (hhdm : Word) (kernel : KernelState Pmm) (start : Word)
    (entries : List ArchiveEntry) (dirString : List Byte) (buffer nbytes : Word) : Prop :=
  ∀ (state : FsState) (pathes : Nat → Word) (dir : Stream), state.kernel = kernel →
    state.vfs.tarFsStartAddress = start → Loaded state.vfs.space start (archive entries) →
    Holds dir dirString → ∀ fuel,
      (∀ listing after,
        Yields (FsState.listEntries hhdm fuel dir fuel 0#64 ⟨pathes, 0⟩ state) (listing, after) →
        listing.pathesLen ≤ 50) ∧
      FsState.readDirWrites hhdm pathes fuel state dir buffer ≤ nbytes.toNat

/-- If the buffers are respected, a listing among stale pointers stores just 50 paths. -/
theorem RespectsBuffers.stores_fifty {initial : Nat → Word} {after : FsState}
    (respects : RespectsBuffers hhdm kernel start entries dirString area nbytes)
    (dirHolds : Holds (stringStream dirString) dirString)
    (loaded : Loaded space start (archive entries))
    (layout : ListingLayout start (archive entries).length blocks area room)
    (roomEnough : 2 * dirString.length + 2 ^ 14 ≤ room)
    (enough : nbytes.toNat + 2 ^ 16 + dirString.length < fuel)
    (listed : Yields (FsState.listEntries hhdm fuel (stringStream dirString) fuel 0#64 ⟨initial, 0⟩
      (listingState start kernel space)) (listing, after))
    (run : StaleRun start area entries room dirString initial stale total [] after.vfs.space listing)
    (isArea : ∀ i ≥ 1, initial i = area) (first : total = [] → initial 0 = area) :
    total.length = 50 := by
  have fits := layout.areaFits
  obtain ⟨stored, written⟩ := respects (listingState start kernel space) initial
    (stringStream dirString) rfl rfl loaded dirHolds fuel
  rw [FsState.readDirWrites_eq listed] at written
  have storedLe := stored _ _ listed
  rcases run.overruns isArea first layout.areaNonNull (by omega) roomEnough
    (by omega : 2 ^ 16 + dirString.length < fuel) with exceeded | fifty | endless
  · omega
  · exact fifty
  · omega

/-- For no archive, directory and number of bytes does `ustar_read_dir` respect its
buffers. -/
theorem ustarReadDir_never_respects (noZero : 0#8 ∉ dirString)
    (layout : ListingLayout start (archive entries).length blocks area room)
    (roomEnough : 2 * dirString.length + 2 ^ 14 ≤ room) (lengths : blocks.length = entries.length)
    (serves : ∀ fuel ≥ rounds, Serves hhdm fuel kernel blocks) :
    ¬ RespectsBuffers hhdm kernel start entries dirString area nbytes := by
  intro respects
  have dirHolds := holds_stringStream noZero
  obtain ⟨fuel, fuelEq⟩ : ∃ fuel,
      fuel = nbytes.toNat + 2 ^ 16 + dirString.length + entries.length + rounds + 1 := ⟨_, rfl⟩
  have served := serves fuel (by omega)
  -- with one stale component everywhere, just 50 paths are stored
  have fifty : ∀ stale : List Byte, stale ≠ [] → 0#8 ∉ stale → 0x2f#8 ∉ stale →
      stale.length ≤ 256 →
      (collected [] (decide (withoutSlash dirString = [])) stale
        (listedComponents entries dirString) []).length = 50 := by
    intro stale nonempty staleNoZero noSlash short
    have start := staleRun_start layout lengths noZero staleNoZero noSlash short (by omega)
    have loaded := (layout.ready (stringStream (stalePath dirString stale)) lengths).loaded
    obtain ⟨listing, after, listed, run⟩ := @StaleRun.returns _ _ _ _ _ _ _ _ _ _ _ _ _
      (listingState _ kernel _) start nonempty rfl served lengths dirHolds (by omega)
    exact respects.stores_fifty dirHolds loaded layout roomEnough (by omega) listed run
      (fun _ _ => rfl) fun _ => rfl
  have strange := fifty strangeComponent strangeComponent_ne_nil zero_notMem_strangeComponent
    slash_notMem_strangeComponent (Nat.le_of_eq length_strangeComponent)
  by_cases named : ∃ component ∈ listedComponents entries dirString, component ≠ []
  · -- a component of the archive as the stale one takes one of the paths away
    obtain ⟨component, member, nonempty⟩ := named
    have fewer := @length_collected_lt _ _ _ _ _ (decide (withoutSlash dirString = [])) _ member
      nonempty (strangeComponent_notMem entries dirString)
    obtain ⟨entry, -, rfl⟩ := mem_listedComponents member
    obtain ⟨componentNoZero, short⟩ := listedComponent_string entry dirString
    have again := fifty _ nonempty componentNoZero (slash_notMem_firstComponent _) (by omega)
    omega
  · have allEmpty : ∀ component ∈ listedComponents entries dirString, component = [] := by
      intro component member
      by_contra nonempty
      exact named ⟨component, member, nonempty⟩
    rw [length_collected_blank allEmpty, List.length_nil, Nat.add_zero] at strange
    have start := armedRun_start layout lengths noZero (by omega)
      (List.eq_replicate_iff.mpr ⟨strange, allEmpty⟩)
    obtain ⟨listing, after, listed, run⟩ := @ArmedRun.returns _ _ _ _ _ _ _ _ _
      (listingState _ kernel _) _ start layout rfl served lengths dirHolds (by omega) (by omega)
    have lengthEq : (laterComponents dirString).length = 49 := by
      rw [laterComponents, length_collected_blank fun item member => List.eq_of_mem_replicate member,
        List.length_replicate, List.length_nil]
    have again := respects.stores_fifty dirHolds start.ready.loaded layout roomEnough (by omega)
      listed run (fun i positive => if_neg (by omega)) fun isNil => by
        rw [isNil] at lengthEq
        cases lengthEq
    omega

end Bounds

/-- The root directory of an archive with the file `a`, and the buffer of `ls`. -/
theorem ustarReadDir_greeting_not_respected : ∃ kernel block,
    ListingLayout 0x10000#64 (archive [greetingFile]).length [block] 0x20000#64 0x20000 ∧
    (∀ fuel ≥ 1, Serves machineHhdm fuel kernel [block]) ∧
    ¬ RespectsBuffers machineHhdm kernel 0x10000#64 [greetingFile] [] 0x20000#64 1023#64 := by
  obtain ⟨kernel, block, layout, serves⟩ :=
    @machine_listing (archive [greetingFile]).length (by rw [greeting_length]; decide)
  exact ⟨kernel, block, layout, serves,
    ustarReadDir_never_respects (by decide) layout (by decide) rfl serves⟩

theorem greeting_listed : listedPath greetingFile [] = [0x61#8] := by
  obtain ⟨noPrefix, name⟩ := greeting_names
  rw [listedPath, assembledName_of_short greeting_short (List.mem_singleton_self _),
    ArchiveEntry.fullName, if_pos noPrefix, name]
  decide

/-- Two bytes are written to a buffer of one byte, also if the array holds null
pointers. -/
theorem ustarReadDir_ignores_nbytes : ∃ kernel after,
    Yields (FsState.ustarReadDir machineHhdm (fun _ => 0#64) 257
      (listingState 0x10000#64 kernel (imageSpace 0x10000#64 (archive [greetingFile])))
      (stringStream []) 0x20000#64 1#64 0#64) (2#64, after) ∧
    ¬ RespectsBuffers machineHhdm kernel 0x10000#64 [greetingFile] [] 0x20000#64 1#64 := by
  obtain ⟨kernel, block, layout, serves⟩ :=
    @machine_listing (archive [greetingFile]).length (by rw [greeting_length]; decide)
  have ready := layout.ready (deref (imageSpace 0x10000#64 (archive [greetingFile])) 0x20000#64) rfl
  rw [withArea_self] at ready
  have root : Holds (stringStream []) [] := holds_stringStream (by decide)
  obtain ⟨after, returned⟩ := @FsState.ustarReadDir_single machineHhdm 0x10000#64 0x20000#64 block
    greetingFile 0x20000 257 (stringStream []) []
    (listingState 0x10000#64 kernel (imageSpace 0x10000#64 (archive [greetingFile]))) 1#64 0#64
    ready rfl (serves 257 (by decide)) root (by decide) (by decide)
    (by rw [greeting_listed]; decide)
  rw [greeting_listed] at returned
  refine ⟨kernel, after, returned, fun respects => ?_⟩
  obtain ⟨-, written⟩ := respects
    (listingState 0x10000#64 kernel (imageSpace 0x10000#64 (archive [greetingFile])))
    (fun _ => 0#64) (stringStream []) rfl rfl ready.loaded root 257
  have counts := congrArg BitVec.toNat (FsState.ustarReadDir_writes returned)
  rw [BitVec.toNat_ofNat, BitVec.toNat_ofNat, List.length_singleton] at counts
  have one : (1#64).toNat = 1 := rfl
  omega

end MmdOS
