import MmdOS.InexactListings

/-!
# Listings among stale pointers

While the array of `ustar_read_dir` holds no null pointer, a record is compared with
the stale pointers and with the paths stored in front of them.  If all of these end
behind the component they are compared by, what is stored depends only on the
components of the records and on the stale one.
-/

namespace MmdOS

open CString Outcome
open Function (update update_self update_of_ne)

section Collections

variable {α : Type} [DecidableEq α] {blank stale other : α} {shared : Bool} {items seen : List α}

/-- What is stored of a list, the last item first.  The stale item is passed, and so
is an item that is stored already where stored items are shared; a blank is not. -/
def collected (blank : α) (shared : Bool) (stale : α) : (items seen : List α) → List α
  | [], seen => seen
  | item :: items, seen =>
      if item ≠ blank ∧ (item = stale ∨ shared = true ∧ item ∈ seen) then
        collected blank shared stale items seen
      else collected blank shared stale items (item :: seen)

theorem subset_collected : seen ⊆ collected blank shared stale items seen := by
  induction items generalizing seen with
  | nil => exact List.Subset.refl _
  | cons item items ih =>
      rw [collected]
      split
      · exact ih
      · exact fun member inSeen => ih (List.mem_cons_of_mem item inSeen)

theorem mem_collected {item : α} (member : item ∈ items) (notStale : item ≠ stale) :
    item ∈ collected blank shared stale items seen := by
  induction items generalizing seen with
  | nil => cases member
  | cons first items ih =>
      rw [collected]
      rcases List.mem_cons.mp member with rfl | later
      · split
        · next passed =>
          rcases passed.2 with isStale | ⟨-, inSeen⟩
          · exact absurd isStale notStale
          · exact subset_collected inSeen
        · exact subset_collected List.mem_cons_self
      · split
        · exact ih later
        · exact ih later

/-- Another stale item takes away just this item. -/
theorem collected_filter (nonblank : other ≠ blank) (absent : stale ∉ items) :
    collected blank shared other items (seen.filter (· ≠ other)) =
      (collected blank shared stale items seen).filter (· ≠ other) := by
  induction items generalizing seen with
  | nil => rfl
  | cons item items ih =>
      have later := fun kept => @ih kept fun member => absent (List.mem_cons_of_mem item member)
      rw [collected, collected]
      by_cases isOther : item = other
      · rw [if_pos ⟨isOther ▸ nonblank, .inl isOther⟩]
        split
        · exact later seen
        · rw [← later, List.filter_cons_of_neg (by simpa using isOther)]
      · have notStale : item ≠ stale := fun isStale => absent (isStale ▸ List.mem_cons_self)
        have sameTest : (item ≠ blank ∧ (item = other ∨
            shared = true ∧ item ∈ seen.filter (· ≠ other))) ↔
            (item ≠ blank ∧ (item = stale ∨ shared = true ∧ item ∈ seen)) := by
          simp [isOther, notStale]
        simp only [sameTest]
        split
        · exact later seen
        · rw [← later, List.filter_cons_of_pos (by simpa using isOther)]

theorem length_collected_lt (member : other ∈ items) (nonblank : other ≠ blank)
    (absent : stale ∉ items) :
    (collected blank shared other items []).length <
      (collected blank shared stale items []).length := by
  have filtered := @collected_filter α _ blank stale other shared items [] nonblank absent
  rw [List.filter_nil] at filtered
  rw [filtered, List.length_filter_lt_length_iff_exists]
  have notStale : other ≠ stale := fun isStale => absent (isStale ▸ member)
  exact ⟨other, mem_collected member notStale, by simp⟩

theorem length_collected_blank (allBlank : ∀ item ∈ items, item = blank) :
    (collected blank shared stale items seen).length = items.length + seen.length := by
  induction items generalizing seen with
  | nil => exact (Nat.zero_add _).symm
  | cons item items ih =>
      rw [collected, if_neg fun passed => passed.1 (allBlank item List.mem_cons_self),
        ih fun later member => allBlank later (List.mem_cons_of_mem item member), List.length_cons,
        List.length_cons]
      omega

end Collections

section Components

variable {entry : ArchiveEntry} {entries : List ArchiveEntry} {dirString : List Byte}

def listedComponent (entry : ArchiveEntry) (dirString : List Byte) : List Byte :=
  firstComponent (withoutSlash (listedPath entry dirString))

def listedComponents (entries : List ArchiveEntry) (dirString : List Byte) : List (List Byte) :=
  (entries.filter fun entry => listedPath entry dirString ≠ []).map (listedComponent · dirString)

theorem listedComponents_of_nil (empty : listedPath entry dirString = []) :
    listedComponents (entry :: entries) dirString = listedComponents entries dirString := by
  rw [listedComponents, List.filter_cons_of_neg (by simpa using empty), listedComponents]

theorem listedComponents_of_ne_nil (below : listedPath entry dirString ≠ []) :
    listedComponents (entry :: entries) dirString =
      listedComponent entry dirString :: listedComponents entries dirString := by
  rw [listedComponents, List.filter_cons_of_pos (by simpa using below), List.map_cons,
    listedComponents]

theorem mem_listedComponents {component : List Byte}
    (member : component ∈ listedComponents entries dirString) :
    ∃ entry ∈ entries, listedComponent entry dirString = component := by
  obtain ⟨entry, inFilter, isComponent⟩ := List.mem_map.mp member
  exact ⟨entry, (List.mem_filter.mp inFilter).1, isComponent⟩

/-- A name as it is assembled in a block of zeros is a string of at most 255
characters. -/
theorem assembledName_string (entry : ArchiveEntry) :
    0#8 ∉ entry.assembledName 0#8 ∧ (entry.assembledName 0#8).length ≤ 255 := by
  have lengthEq := entry.header_length
  have loaded : Loaded (imageSpace 0x10000#64 entry.header) 0x10000#64 entry.header := by
    apply loaded_imageSpace (by decide)
    rw [lengthEq]
    decide
  have lastByte : imageSpace 0x10000#64 entry.header (0x20000#64 + 255#64) = 0#8 := by
    rw [imageSpace, List.getElem?_eq_none (by rw [lengthEq]; decide), Option.getD_none]
  obtain ⟨name, short⟩ := holds_writeName loaded lastByte
  exact ⟨name.noZero, short⟩

theorem listedComponent_string (entry : ArchiveEntry) (dirString : List Byte) :
    0#8 ∉ listedComponent entry dirString ∧ (listedComponent entry dirString).length ≤ 255 := by
  obtain ⟨noZero, short⟩ := assembledName_string entry
  constructor
  · intro member
    have inPath := List.mem_of_mem_drop ((List.takeWhile_prefix _).subset member)
    rw [listedPath, removed_eq_drop] at inPath
    exact noZero (List.mem_of_mem_drop inPath)
  · exact Nat.le_trans (length_component_le _) (Nat.le_trans (length_removed_le _ _) short)

/-- What a path that ends behind its first component is compared by: below the root
directory nothing is left of it. -/
theorem target_cutString (path dir : List Byte) : target (cutString path) dir =
    if withoutSlash dir = [] then firstComponent (withoutSlash path) else [] := by
  have noSlash := slash_notMem_firstComponent (withoutSlash path)
  split
  · next isRoot =>
    rw [target, removed_of_nil isRoot, withoutSlash_cutString, withoutSlash_of_noSlash noSlash]
  · next notRoot =>
    rw [target, removed_of_no_slash notRoot]
    · rfl
    · rw [withoutSlash_cutString]
      exact fun isSlash => noSlash (List.mem_of_getElem? isSlash)

end Components

section Settled

variable {start area : Word} {entries : List ArchiveEntry} {room fuel : Nat} {dir : Stream}
  {dirString : List Byte} {initial : Nat → Word} {entry : ArchiveEntry} {block : Word}
  {rest : List (ArchiveEntry × Word)} {space : ByteSpace} {listing : Listing}
  {targets : Nat → List Byte}

variable (dirString rest space) in
/-- A path of the array that ends behind the component it is compared by, apart from
the blocks that are left. -/
structure SettledPath (pointer : Word) (component stored : List Byte) : Prop where
  nonNull : pointer ≠ 0#64
  holds : Holds (deref space pointer) stored
  short : (removed stored dirString).length < 2 ^ 16
  fits : stored.length ≤ dirString.length + 258
  isTarget : target stored dirString = component
  noSlash : 0x2f#8 ∉ component
  outside : ∀ record ∈ rest, ∀ i ≤ stored.length,
    ¬ Inside record.2 256 (pointer + BitVec.ofNat 64 i)

theorem SettledPath.next {pointer : Word} {component stored : List Byte} {after : ByteSpace}
    (path : SettledPath dirString ((entry, block) :: rest) space pointer component stored)
    (same : ∀ address, ¬ Inside block 256 address → after address = space address) :
    SettledPath dirString rest after pointer component stored where
  nonNull := path.nonNull
  holds := Holds.congr path.holds fun i iLe =>
    same _ (path.outside (entry, block) List.mem_cons_self i iLe)
  short := path.short
  fits := path.fits
  isTarget := path.isTarget
  noSlash := path.noSlash
  outside := fun record member => path.outside record (List.mem_cons_of_mem _ member)

variable (start area entries room dirString initial) in
/-- An array whose paths all end behind the component they are compared by.  Those
stored by the call are outside the area. -/
structure SettledListing (rest : List (ArchiveEntry × Word)) (space : ByteSpace)
    (listing : Listing) (targets : Nat → List Byte) : Prop where
  ready : ListingReady start area entries room rest space
  unset : ∀ i ≥ listing.pathesLen, listing.pathes i = initial i
  settled : ∀ i < 50, ∃ stored,
    SettledPath dirString rest space (listing.pathes i) (targets i) stored ∧
      (i < listing.pathesLen → stored.length ≤ 255 ∧
        ∀ j ≤ stored.length, ¬ Inside area room (listing.pathes i + BitVec.ofNat 64 j))

theorem SettledListing.next {after : ByteSpace}
    (before : SettledListing start area entries room dirString initial ((entry, block) :: rest)
      space listing targets)
    (same : ∀ address, ¬ Inside block 256 address → after address = space address) :
    SettledListing start area entries room dirString initial rest after listing targets where
  ready := before.ready.next fun address outside _ => same address outside
  unset := before.unset
  settled := by
    intro i below
    obtain ⟨stored, path, printable⟩ := before.settled i below
    exact ⟨stored, path.next same, printable⟩

theorem SettledListing.store {after : ByteSpace} {pointer : Word} {component stored : List Byte}
    (before : SettledListing start area entries room dirString initial rest after listing targets)
    (path : listing.pathesLen < 50 →
      SettledPath dirString rest after pointer component stored ∧ stored.length ≤ 255 ∧
        ∀ j ≤ stored.length, ¬ Inside area room (pointer + BitVec.ofNat 64 j)) :
    SettledListing start area entries room dirString initial rest after
      ⟨update listing.pathes listing.pathesLen pointer, listing.pathesLen + 1⟩
      (update targets listing.pathesLen component) where
  ready := before.ready
  unset := by
    intro i behind
    dsimp only at behind ⊢
    rw [update_of_ne (by omega)]
    exact before.unset i (by omega)
  settled := by
    intro i below
    dsimp only
    by_cases isNew : i = listing.pathesLen
    · rw [isNew, update_self, update_self]
      obtain ⟨settled, short, outside⟩ := path (by omega)
      exact ⟨stored, settled, fun _ => ⟨short, outside⟩⟩
    · rw [update_of_ne isNew, update_of_ne isNew]
      obtain ⟨other, settled, printable⟩ := before.settled i below
      exact ⟨other, settled, fun stored => printable (by omega)⟩

theorem SettledListing.pass {header : Word}
    (before : SettledListing start area entries room dirString initial ((entry, block) :: rest)
      space listing targets)
    (loaded : Loaded space header entry.header) (dirHolds : Holds dir dirString)
    (enough : dirString.length ≤ fuel) (empty : listedPath entry dirString = []) :
    ∃ after, listEntry fuel dir header block space listing = some (after, listing) ∧
      SettledListing start area entries room dirString initial rest after listing targets :=
  ⟨_, listEntry_of_nil loaded (before.ready.lastBytes _ List.mem_cons_self) dirHolds enough empty,
    before.next fun _ outside => writeName_outside outside⟩

/-- A record below the directory is stored unless its component is among those of
the array. -/
theorem SettledListing.step {header : Word}
    (before : SettledListing start area entries room dirString initial ((entry, block) :: rest)
      space listing targets)
    (loaded : Loaded space header entry.header) (dirHolds : Holds dir dirString)
    (enough : 2 ^ 16 + dirString.length ≤ fuel) (below : listedPath entry dirString ≠ [])
    (active : listing.pathesLen < 50 → ∃ i < 50, targets i ≠ []) :
    ((listedComponent entry dirString ≠ [] ∧ ∃ i < 50, targets i = listedComponent entry dirString) ∧
      ∃ after, listEntry fuel dir header block space listing = some (after, listing) ∧
        SettledListing start area entries room dirString initial rest after listing targets) ∨
    (¬ (listedComponent entry dirString ≠ [] ∧
        ∃ i < 50, targets i = listedComponent entry dirString) ∧
      ∃ after pointer, listEntry fuel dir header block space listing =
          some (after, ⟨update listing.pathes listing.pathesLen pointer,
            listing.pathesLen + 1⟩) ∧
        SettledListing start area entries room dirString initial rest after
          ⟨update listing.pathes listing.pathesLen pointer, listing.pathesLen + 1⟩
          (update targets listing.pathesLen
            (if withoutSlash dirString = [] then listedComponent entry dirString else []))) := by
  have lastByte := before.ready.lastBytes _ List.mem_cons_self
  obtain ⟨listed, new⟩ := @listEntry_of_ne_nil space header block entry fuel dir dirString listing
    loaded lastByte dirHolds (by omega) below
  have inside : ∀ i ≤ (listedPath entry dirString).length,
      Inside block 256 (listedPointer block entry dirString + BitVec.ofNat 64 i) :=
    fun i iLe => listedPath_inside loaded lastByte iLe
  have entriesStored : ∀ i < 50, ∃ other,
      StoredPath (writeName space header block) dirString (listedPointer block entry dirString)
        (listedPath entry dirString) (listing.pathes (0 + i)) other ∧
        target other dirString = targets (0 + i) ∧ 0x2f#8 ∉ targets (0 + i) := by
    intro i iLt
    rw [Nat.zero_add]
    obtain ⟨stored, path, -⟩ := before.settled i iLt
    refine ⟨stored, ⟨path.nonNull, ?_, path.short, ?_⟩, path.isTarget, path.noSlash⟩
    · exact Holds.congr path.holds fun j jLe =>
        writeName_outside (path.outside _ List.mem_cons_self j jLe)
    · intro j jLe k kLe same
      have inBlock := inside j jLe
      rw [same] at inBlock
      exact path.outside _ List.mem_cons_self k kLe inBlock
  obtain ⟨duplicate, after, scanned, isCut, mustCut, isDuplicate⟩ :=
    isDuplicate_settled new dirHolds enough entriesStored
  simp only [Nat.zero_add] at mustCut isDuplicate
  have same : ∀ address, ¬ Inside block 256 address → after address = space address := by
    intro address outside
    rcases isCut with rfl | rfl
    · exact writeName_outside outside
    · exact cutName_outside loaded lastByte outside
  have next := before.next same
  rw [scanned, Option.bind_some] at listed
  by_cases isTrue : duplicate = true
  · refine .inl ⟨isDuplicate.mp isTrue, after, ?_, next⟩
    rw [listed, if_pos isTrue]
  · refine .inr ⟨mt isDuplicate.mpr isTrue, after, listedPointer block entry dirString, ?_, ?_⟩
    · rw [listed, if_neg isTrue]
    refine @SettledListing.store _ _ _ _ _ _ _ _ _ _ _ _ (cutString (listedPath entry dirString))
      next fun inArray => ?_
    obtain rfl := mustCut (active inArray)
    have lengthLe : (listedPath entry dirString).length ≤ 255 := length_listedPath_le loaded lastByte
    have cutLe := length_cutString_le (listedPath entry dirString)
    have removedLe := length_removed_le (cutString (listedPath entry dirString)) dirString
    refine ⟨⟨?_, new.cut.holds, by omega, by omega, target_cutString _ _, ?_, ?_⟩, by omega, ?_⟩
    · exact listedPointer_ne_zero loaded lastByte
        (before.ready.blockNonNull _ List.mem_cons_self)
    · split
      · exact slash_notMem_firstComponent _
      · exact List.not_mem_nil
    · intro record member j jLe
      have apart := (List.pairwise_cons.mp before.ready.blocksApart).1 record member
      exact apart.not_inside (inside j (by omega))
    · intro j jLe
      exact (before.ready.areaBlock _ List.mem_cons_self).symm.not_inside (inside j (by omega))

variable (dirString) in
/-- The components in the array are those collected so far, then the stale one. -/
structure Tracked (stale : List Byte) (components : List (List Byte)) (pathesLen : Nat)
    (targets : Nat → List Byte) (total seen : List (List Byte)) : Prop where
  count : pathesLen = seen.length
  inside : seen.length ≤ 50
  sources : ∀ i < 50, targets i = [] ∨ targets i = stale ∨
    withoutSlash dirString = [] ∧ targets i ∈ seen
  kept : withoutSlash dirString = [] → ∀ component ∈ seen, ∃ i < seen.length,
    targets i = component
  fresh : ∀ i ≥ seen.length, 1 ≤ i → targets i = stale
  totalEq : collected [] (decide (withoutSlash dirString = [])) stale components seen = total

variable {stale component : List Byte} {components total seen : List (List Byte)} {pathesLen : Nat}

/-- The stale component is in the array as long as there is room for another path. -/
theorem Tracked.stale_found
    (tracked : Tracked dirString stale components pathesLen targets total seen)
    (notFull : seen.length < 50) : ∃ i < 50, targets i = stale := by
  by_cases none : seen.length = 0
  · exact ⟨1, by decide, tracked.fresh 1 (by omega) le_rfl⟩
  · exact ⟨seen.length, notFull, tracked.fresh _ le_rfl (by omega)⟩

theorem Tracked.hit
    (tracked : Tracked dirString stale (component :: components) pathesLen targets total seen)
    (nonempty : component ≠ []) (found : ∃ i < 50, targets i = component) :
    Tracked dirString stale components pathesLen targets total seen where
  count := tracked.count
  inside := tracked.inside
  sources := tracked.sources
  kept := tracked.kept
  fresh := tracked.fresh
  totalEq := by
    obtain ⟨i, below, isComponent⟩ := found
    have passed : component = stale ∨
        decide (withoutSlash dirString = []) = true ∧ component ∈ seen := by
      rw [decide_eq_true_iff, ← isComponent]
      exact (tracked.sources i below).resolve_left (isComponent ▸ nonempty)
    have total := tracked.totalEq
    rwa [collected, if_pos ⟨nonempty, passed⟩] at total

theorem Tracked.miss
    (tracked : Tracked dirString stale (component :: components) pathesLen targets total seen)
    (notFull : pathesLen < 50)
    (notFound : ¬ (component ≠ [] ∧ ∃ i < 50, targets i = component)) :
    Tracked dirString stale components (pathesLen + 1)
      (update targets pathesLen (if withoutSlash dirString = [] then component else []))
      total (component :: seen) where
  count := by rw [tracked.count, List.length_cons]
  inside := by
    have count := tracked.count
    rw [List.length_cons]
    omega
  sources := by
    intro i below
    by_cases isNew : i = pathesLen
    · rw [isNew, update_self]
      split
      · next isRoot => exact .inr (.inr ⟨isRoot, List.mem_cons_self⟩)
      · exact .inl rfl
    · rw [update_of_ne isNew]
      rcases tracked.sources i below with empty | isStale | ⟨isRoot, inSeen⟩
      · exact .inl empty
      · exact .inr (.inl isStale)
      · exact .inr (.inr ⟨isRoot, List.mem_cons_of_mem _ inSeen⟩)
  kept := by
    intro isRoot other member
    have count := tracked.count
    rw [List.length_cons]
    rcases List.mem_cons.mp member with rfl | inSeen
    · exact ⟨pathesLen, by omega, by rw [update_self, if_pos isRoot]⟩
    · obtain ⟨i, below, isOther⟩ := tracked.kept isRoot other inSeen
      exact ⟨i, by omega, by rw [update_of_ne (by omega), isOther]⟩
  fresh := by
    intro i behind positive
    have count := tracked.count
    rw [List.length_cons] at behind
    rw [update_of_ne (by omega)]
    exact tracked.fresh i (by omega) positive
  totalEq := by
    have count := tracked.count
    have total := tracked.totalEq
    rw [collected, if_neg] at total
    · exact total
    · rintro ⟨nonempty, rfl | ⟨isRoot, inSeen⟩⟩
      · exact notFound ⟨nonempty, tracked.stale_found (by omega)⟩
      · obtain ⟨i, below, isComponent⟩ := tracked.kept (of_decide_eq_true isRoot) _ inSeen
        exact notFound ⟨nonempty, i, by omega, isComponent⟩

variable (start area entries room dirString initial) in
/-- A listing among stale pointers: more than 50 paths have been stored, or those
that the components of the records give. -/
def StaleRun (stale : List Byte) (total : List (List Byte)) (rest : List (ArchiveEntry × Word))
    (space : ByteSpace) (listing : Listing) : Prop :=
  ∃ targets, SettledListing start area entries room dirString initial rest space listing targets ∧
    (51 ≤ listing.pathesLen ∨ ∃ seen,
      Tracked dirString stale (listedComponents (rest.map Prod.fst) dirString) listing.pathesLen
        targets total seen)

theorem StaleRun.step {header : Word}
    (run : StaleRun start area entries room dirString initial stale total ((entry, block) :: rest)
      space listing)
    (nonempty : stale ≠ []) (loaded : Loaded space header entry.header)
    (dirHolds : Holds dir dirString) (enough : 2 ^ 16 + dirString.length ≤ fuel) :
    ∃ after listing', listEntry fuel dir header block space listing = some (after, listing') ∧
      StaleRun start area entries room dirString initial stale total rest after listing' := by
  obtain ⟨targets, settled, progress⟩ := run
  rw [List.map_cons] at progress
  by_cases empty : listedPath entry dirString = []
  · have dirEnough : dirString.length ≤ fuel := by omega
    obtain ⟨after, listed, next⟩ := settled.pass loaded dirHolds dirEnough empty
    rw [listedComponents_of_nil empty] at progress
    exact ⟨after, listing, listed, targets, next, progress⟩
  rw [listedComponents_of_ne_nil empty] at progress
  have active : listing.pathesLen < 50 → ∃ i < 50, targets i ≠ [] := by
    intro inArray
    rcases progress with exceeded | ⟨seen, tracked⟩
    · omega
    · obtain ⟨i, below, isStale⟩ := tracked.stale_found (tracked.count ▸ inArray)
      exact ⟨i, below, isStale ▸ nonempty⟩
  rcases settled.step loaded dirHolds enough empty active with
    ⟨⟨named, found⟩, after, listed, next⟩ | ⟨notFound, after, pointer, listed, next⟩
  · refine ⟨after, _, listed, targets, next, progress.imp_right ?_⟩
    rintro ⟨seen, tracked⟩
    exact ⟨seen, tracked.hit named found⟩
  · refine ⟨after, _, listed, _, next, ?_⟩
    rcases progress with exceeded | ⟨seen, tracked⟩
    · exact .inl (Nat.le_succ_of_le exceeded)
    · have count := tracked.count
      have inside := tracked.inside
      rcases Nat.lt_or_ge listing.pathesLen 50 with inArray | full
      · exact .inr ⟨_, tracked.miss inArray notFound⟩
      · exact .inl (Nat.succ_le_succ full)

theorem StaleRun.returns {hhdm : Word} {blocks : List Word} {state : FsState}
    (run : StaleRun start area entries room dirString initial stale total (entries.zip blocks)
      state.vfs.space listing)
    (nonempty : stale ≠ []) (startEq : state.vfs.tarFsStartAddress = start)
    (serves : Serves hhdm fuel state.kernel blocks) (lengths : blocks.length = entries.length)
    (dirHolds : Holds dir dirString) (enough : 2 ^ 16 + dirString.length + entries.length < fuel) :
    ∃ result after, Yields (FsState.listEntries hhdm fuel dir fuel 0#64 listing state)
        (result, after) ∧
      StaleRun start area entries room dirString initial stale total [] after.vfs.space result := by
  rcases @FsState.listEntries_all hhdm start fuel dir entries False
    (StaleRun start area entries room dirString initial stale total)
    (fun ⟨_, settled, _⟩ => settled.ready.loaded)
    (fun run loaded => .inr (run.step nonempty loaded dirHolds (by omega))) blocks fuel listing
    state startEq serves lengths (by omega) run with ⟨impossible, -⟩ | returned
  · exact impossible.elim
  · exact returned

end Settled

section Starts

variable {start area : Word} {entries : List ArchiveEntry} {blocks : List Word} {room fuel : Nat}
  {dir : Stream} {dirString stale : List Byte}
variable {rest : List (ArchiveEntry × Word)} {space : ByteSpace}

theorem settledPath_stale (ready : ListingReady start area entries room rest space)
    (nonNull : area ≠ 0#64) (holds : Holds (deref space area) (stalePath dirString stale))
    (noSlash : 0x2f#8 ∉ stale) (short : stale.length ≤ 256)
    (roomEnough : dirString.length + 258 < room) :
    SettledPath dirString rest space area stale (stalePath dirString stale) where
  nonNull := nonNull
  holds := holds
  short := by
    rw [removed_stalePath]
    omega
  fits := by
    have lengthLe := @length_stalePath_le dirString stale
    omega
  isTarget := by rw [target, removed_stalePath, withoutSlash_of_noSlash noSlash]
  noSlash := noSlash
  outside := by
    intro record member i iLe
    have lengthLe := @length_stalePath_le dirString stale
    exact (ready.areaBlock record member).not_inside ⟨i, by omega, rfl⟩

theorem staleRun_start (layout : ListingLayout start (archive entries).length blocks area room)
    (lengths : blocks.length = entries.length) (dirNoZero : 0#8 ∉ dirString)
    (noZero : 0#8 ∉ stale) (noSlash : 0x2f#8 ∉ stale) (short : stale.length ≤ 256)
    (roomEnough : dirString.length + 258 < room) :
    StaleRun start area entries room dirString (fun _ => area) stale
      (collected [] (decide (withoutSlash dirString = [])) stale
        (listedComponents entries dirString) []) (entries.zip blocks)
      (withArea area room (stringStream (stalePath dirString stale))
        (imageSpace start (archive entries))) ⟨fun _ => area, 0⟩ := by
  have fits := layout.areaFits
  have lengthLe := @length_stalePath_le dirString stale
  have ready := layout.ready (stringStream (stalePath dirString stale)) lengths
  have holds := @holds_withArea_start area room (imageSpace start (archive entries)) _ _
    (holds_stringStream (zero_notMem_stalePath dirNoZero noZero)) (by omega) (by omega)
  have path := settledPath_stale ready layout.areaNonNull holds noSlash short roomEnough
  refine ⟨fun _ => stale, ⟨ready, fun _ _ => rfl, fun i _ => ⟨_, path, ?_⟩⟩, .inr ⟨[], ?_⟩⟩
  · intro stored
    exact absurd stored (Nat.not_lt_zero i)
  · rw [List.map_fst_zip (Nat.le_of_eq lengths.symm)]
    exact ⟨rfl, Nat.zero_le _, fun _ _ => .inr (.inl rfl),
      fun _ _ member => absurd member List.not_mem_nil, fun _ _ _ => rfl, rfl⟩

theorem stalePath_append (dir first second : List Byte) :
    stalePath dir (first ++ second) = stalePath dir first ++ second := by
  rw [stalePath, stalePath]
  split
  · rw [List.cons_append]
  · rw [List.cons_append, List.append_assoc, List.cons_append]

def strangeComponent : List Byte :=
  List.replicate 256 0x7a#8

theorem zero_notMem_strangeComponent : 0#8 ∉ strangeComponent :=
  fun member => absurd (List.eq_of_mem_replicate member) (by decide)

theorem slash_notMem_strangeComponent : 0x2f#8 ∉ strangeComponent :=
  fun member => absurd (List.eq_of_mem_replicate member) (by decide)

theorem length_strangeComponent : strangeComponent.length = 256 :=
  List.length_replicate

theorem length_strange_le :
    (stalePath dirString strangeComponent).length ≤ dirString.length + 258 := by
  have lengthLe := @length_stalePath_le dirString strangeComponent
  rwa [length_strangeComponent] at lengthLe

theorem strangeComponent_ne_nil : strangeComponent ≠ [] := by
  rw [strangeComponent, Ne, List.replicate_eq_nil_iff]
  decide

theorem strangeComponent_notMem (entries : List ArchiveEntry) (dirString : List Byte) :
    strangeComponent ∉ listedComponents entries dirString := by
  intro member
  obtain ⟨entry, -, isStrange⟩ := mem_listedComponents member
  have short := (listedComponent_string entry dirString).2
  rw [isStrange, length_strangeComponent] at short
  omega

variable (area dirString) in
/-- Where the path stands that is compared with an empty component. -/
def armedCell : Word :=
  area + BitVec.ofNat 64 ((stalePath dirString strangeComponent).length + 1)

variable (area dirString) in
def armedArray : Nat → Word :=
  fun i => if i = 0 then armedCell area dirString else area

def armedComponent : List Byte :=
  [0x2f#8] ++ [0x2f#8, 0x79#8]

variable (start area entries room dirString) in
/-- The array before the first of fifty records with an empty component. -/
structure ArmedRun (rest : List (ArchiveEntry × Word)) (space : ByteSpace)
    (listing : Listing) : Prop where
  ready : ListingReady start area entries room rest space
  listingEq : listing = ⟨armedArray area dirString, 0⟩
  stale : Holds (deref space area) (stalePath dirString strangeComponent)
  armed : Holds (deref space (armedCell area dirString)) (stalePath dirString armedComponent)
  components : listedComponents (rest.map Prod.fst) dirString = List.replicate 50 []

theorem length_armed_le :
    (stalePath dirString armedComponent).length ≤ dirString.length + 5 :=
  length_stalePath_le

theorem removed_armed : removed (stalePath dirString armedComponent) dirString = armedComponent :=
  removed_stalePath

theorem length_armed : (stalePath dirString armedComponent).length =
    (stalePath dirString [0x2f#8]).length + 2 := by
  rw [armedComponent, stalePath_append, List.length_append]
  rfl

variable (dirString) in
/-- The components of the records behind the first one. -/
def laterComponents : List (List Byte) :=
  collected [] (decide (withoutSlash dirString = [])) strangeComponent (List.replicate 49 []) []

/-- The comparison with an empty component takes away what stands behind it. -/
theorem cutComponent_armed (space : ByteSpace) :
    cutComponent space
        (removedPointer (armedCell area dirString) (stalePath dirString armedComponent) dirString)
        (removed (stalePath dirString armedComponent) dirString) =
      update space
        (armedCell area dirString + BitVec.ofNat 64 (stalePath dirString [0x2f#8]).length) 0#8 := by
  have offset : componentOffset armedComponent = 1 := by decide
  have armedLength : armedComponent.length = 3 := rfl
  have positive : 0 < (stalePath dirString [0x2f#8]).length := by
    rw [stalePath, List.length_cons]
    omega
  have position : (stalePath dirString [0x2f#8]).length + 2 - 3 + 1 =
      (stalePath dirString [0x2f#8]).length := by omega
  rw [cutComponent, removedPointer, removed_armed, offset, BitVec.add_assoc, ← BitVec.ofNat_add,
    length_armed, armedLength, position]

theorem armedCell_inside (roomEnough : 2 * dirString.length + 266 < room) {i : Nat}
    (iLe : i ≤ (stalePath dirString armedComponent).length) :
    ∃ j, (stalePath dirString strangeComponent).length < j ∧ j < room ∧
      armedCell area dirString + BitVec.ofNat 64 i = area + BitVec.ofNat 64 j := by
  have strangeLe := @length_strange_le dirString
  have armedLe := @length_armed_le dirString
  refine ⟨(stalePath dirString strangeComponent).length + 1 + i, by omega, by omega, ?_⟩
  rw [armedCell, BitVec.add_assoc, ← BitVec.ofNat_add]

theorem Inside.ne_zero {address : Word} (inside : Inside area room address) (nonNull : area ≠ 0#64)
    (fits : area.toNat + room ≤ 2 ^ 64) : address ≠ 0#64 := by
  obtain ⟨i, below, rfl⟩ := inside
  intro isNull
  have positive : area.toNat ≠ 0 := fun isZero => nonNull (BitVec.eq_of_toNat_eq isZero)
  have address := congrArg BitVec.toNat isNull
  rw [BitVec.toNat_add, BitVec.toNat_ofNat, BitVec.toNat_ofNat] at address
  omega

theorem armedCell_in_area (roomEnough : 2 * dirString.length + 266 < room) {i : Nat}
    (iLe : i ≤ (stalePath dirString armedComponent).length) :
    Inside area room (armedCell area dirString + BitVec.ofNat 64 i) := by
  obtain ⟨j, -, inRoom, atCell⟩ := @armedCell_inside area room dirString roomEnough i iLe
  exact ⟨j, inRoom, atCell⟩

theorem armedCell_ne_zero (layout : ListingLayout start (archive entries).length blocks area room)
    (roomEnough : 2 * dirString.length + 266 < room) : armedCell area dirString ≠ 0#64 := by
  have first := (@armedCell_in_area area room dirString roomEnough 0 (Nat.zero_le _)).ne_zero
    layout.areaNonNull layout.areaFits
  rwa [BitVec.add_zero] at first

theorem ArmedRun.pass {rest : List (ArchiveEntry × Word)} {space : ByteSpace} {listing : Listing}
    {entry : ArchiveEntry} {block header : Word}
    (run : ArmedRun start area entries room dirString ((entry, block) :: rest) space listing)
    (roomEnough : 2 * dirString.length + 266 < room)
    (empty : listedPath entry dirString = []) :
    ArmedRun start area entries room dirString rest (writeName space header block) listing := by
  have strangeLe := @length_strange_le dirString
  have apart := run.ready.areaBlock _ List.mem_cons_self
  refine ⟨run.ready.next fun _ outside _ => writeName_outside outside, run.listingEq, ?_, ?_, ?_⟩
  · exact Holds.congr run.stale fun i iLe =>
      writeName_outside (apart.not_inside ⟨i, by omega, rfl⟩)
  · refine Holds.congr run.armed fun i iLe => writeName_outside ?_
    exact apart.not_inside (armedCell_in_area roomEnough iLe)
  · have components := run.components
    rwa [List.map_cons, listedComponents_of_nil empty] at components

theorem settledListing_spent
    (layout : ListingLayout start (archive entries).length blocks area room)
    (roomEnough : 2 * dirString.length + 266 < room)
    (ready : ListingReady start area entries room rest space)
    (stale : Holds (deref space area) (stalePath dirString strangeComponent))
    (spent : Holds (deref space (armedCell area dirString)) (stalePath dirString [0x2f#8])) :
    SettledListing start area entries room dirString (armedArray area dirString) rest space
      ⟨armedArray area dirString, 0⟩ fun i => if i = 0 then [] else strangeComponent := by
  have strangeLe := @length_strange_le dirString
  have spentLe := @length_stalePath_le dirString [0x2f#8]
  rw [List.length_singleton] at spentLe
  have fits := layout.areaFits
  refine ⟨ready, fun _ _ => rfl, fun i _ => ?_⟩
  by_cases isFirst : i = 0
  · rw [isFirst]
    refine ⟨stalePath dirString [0x2f#8],
      ⟨?_, spent, ?_, by omega, ?_, List.not_mem_nil, ?_⟩, fun stored => ?_⟩
    · exact armedCell_ne_zero layout roomEnough
    · rw [removed_stalePath]
      decide
    · rw [target, removed_stalePath]
      rfl
    · intro record member j jLe
      exact (ready.areaBlock record member).not_inside
        (armedCell_in_area roomEnough (by rw [length_armed]; omega))
    · exact absurd stored (Nat.not_lt_zero 0)
  · have path := settledPath_stale ready layout.areaNonNull stale slash_notMem_strangeComponent
      (Nat.le_of_eq length_strangeComponent) (by omega)
    dsimp only [armedArray]
    rw [if_neg isFirst, if_neg isFirst]
    exact ⟨_, path, fun stored => absurd stored (Nat.not_lt_zero i)⟩

section Fires

variable {rest : List (ArchiveEntry × Word)} {space : ByteSpace} {listing : Listing}
  {entry : ArchiveEntry} {block header : Word}

variable (area dirString space entry block header) in
/-- The memory once the path of the cell has been compared with a new path. -/
def spentSpace : ByteSpace :=
  update
    (cutComponent (writeName space header block) (listedPointer block entry dirString)
      (listedPath entry dirString))
    (armedCell area dirString + BitVec.ofNat 64 (stalePath dirString [0x2f#8]).length) 0#8

section

variable (run : ArmedRun start area entries room dirString ((entry, block) :: rest) space listing)
  (layout : ListingLayout start (archive entries).length blocks area room)
  (loaded : Loaded space header entry.header)
include run layout loaded

/-- The first record below the directory is taken for a duplicate. -/
theorem ArmedRun.found (dirHolds : Holds dir dirString)
    (roomEnough : 2 * dirString.length + 266 < room) (enough : 2 ^ 16 + dirString.length ≤ fuel)
    (below : listedPath entry dirString ≠ []) (isEmpty : listedComponent entry dirString = []) :
    listEntry fuel dir header block space listing =
      some (spentSpace area dirString space entry block header, listing) := by
  have lastByte := run.ready.lastBytes _ List.mem_cons_self
  have apart := run.ready.areaBlock _ List.mem_cons_self
  obtain ⟨listed, new⟩ := @listEntry_of_ne_nil space header block entry fuel dir dirString listing
    loaded lastByte dirHolds (by omega) below
  have first : listing.pathes 0 = armedCell area dirString := by
    rw [run.listingEq]
    rfl
  have entryStored : StoredPath (writeName space header block) dirString
      (listedPointer block entry dirString) (listedPath entry dirString) (listing.pathes 0)
      (stalePath dirString armedComponent) := by
    rw [first]
    refine ⟨armedCell_ne_zero layout roomEnough, ?_, by rw [removed_armed]; decide, ?_⟩
    · exact Holds.congr run.armed fun i iLe =>
        writeName_outside (apart.not_inside (armedCell_in_area roomEnough iLe))
    · intro i iLe j jLe same
      have inBlock := @listedPath_inside space header block entry dirString loaded lastByte i iLe
      rw [same] at inBlock
      exact apart.not_inside (armedCell_in_area roomEnough jLe) inBlock
  have targetEq : target (stalePath dirString armedComponent) dirString = [0x2f#8, 0x79#8] := by
    rw [target, removed_armed]
    rfl
  have hit := @isDuplicate_hit (writeName space header block) fuel dir dirString _ _ listing.pathes
    49 0 _ new entryStored dirHolds enough (by rw [targetEq]; decide)
    (by rw [targetEq]; exact isEmpty)
  rw [first, cutComponent_armed] at hit
  rw [listed, hit, Option.bind_some, if_pos rfl]
  rfl

theorem ArmedRun.spent (roomEnough : 2 * dirString.length + 266 < room) :
    SettledListing start area entries room dirString (armedArray area dirString) rest
      (spentSpace area dirString space entry block header) listing
      fun i => if i = 0 then [] else strangeComponent := by
  have lastByte := run.ready.lastBytes _ List.mem_cons_self
  have apart := run.ready.areaBlock _ List.mem_cons_self
  have strangeLe := @length_strange_le dirString
  have fits := layout.areaFits
  have named := fun address => @cutName_outside space header block entry dirString loaded lastByte
    address
  obtain ⟨position, behind, inRoom, atCell⟩ := @armedCell_inside area room dirString roomEnough
    (stalePath dirString [0x2f#8]).length (by rw [length_armed]; omega)
  rw [run.listingEq]
  apply settledListing_spent layout roomEnough
  · refine run.ready.next fun address outside notArea => ?_
    rw [spentSpace, update_of_ne, named address outside]
    rintro rfl
    exact notArea ⟨position, inRoom, atCell⟩
  · refine Holds.congr run.stale fun i iLe => ?_
    have different : area + BitVec.ofNat 64 i ≠ armedCell area dirString +
        BitVec.ofNat 64 (stalePath dirString [0x2f#8]).length := by
      rw [atCell]
      intro same
      have := ofNat_add_inj (by omega) (by omega) same
      omega
    rw [spentSpace, update_of_ne different,
      named _ (apart.not_inside ⟨i, by omega, rfl⟩)]
  · have cell := Holds.congr run.armed fun i iLe =>
      named _ (apart.not_inside (armedCell_in_area roomEnough iLe))
    have armedLe := @length_armed_le dirString
    have taken := @Holds.take _ _ _ (stalePath dirString [0x2f#8]).length cell
      (by rw [length_armed]; omega) (by omega)
    rwa [armedComponent, stalePath_append, List.take_left] at taken

theorem ArmedRun.fires (dirHolds : Holds dir dirString)
    (roomEnough : 2 * dirString.length + 266 < room) (enough : 2 ^ 16 + dirString.length ≤ fuel)
    (below : listedPath entry dirString ≠ []) :
    ∃ after, listEntry fuel dir header block space listing = some (after, listing) ∧
      StaleRun start area entries room dirString (armedArray area dirString) strangeComponent
        (laterComponents dirString) rest after listing := by
  have components := run.components
  rw [List.map_cons, listedComponents_of_ne_nil below, List.replicate_succ, List.cons.injEq]
    at components
  obtain ⟨isEmpty, components⟩ := components
  refine ⟨_, run.found layout loaded dirHolds roomEnough enough below isEmpty, _,
    run.spent layout loaded roomEnough, .inr ⟨[], ?_⟩⟩
  rw [run.listingEq, components]
  refine ⟨rfl, Nat.zero_le _, ?_, ?_, ?_, rfl⟩
  · intro i _
    by_cases isFirst : i = 0
    · exact .inl (if_pos isFirst)
    · exact .inr (.inl (if_neg isFirst))
  · exact fun _ _ member => absurd member List.not_mem_nil
  · exact fun i _ positive => if_neg (by omega)

end

end Fires

theorem ArmedRun.step {rest : List (ArchiveEntry × Word)} {space : ByteSpace} {listing : Listing}
    {entry : ArchiveEntry} {block header : Word}
    (run : ArmedRun start area entries room dirString ((entry, block) :: rest) space listing)
    (layout : ListingLayout start (archive entries).length blocks area room)
    (loaded : Loaded space header entry.header) (dirHolds : Holds dir dirString)
    (roomEnough : 2 * dirString.length + 266 < room) (enough : 2 ^ 16 + dirString.length ≤ fuel) :
    ∃ after listing', listEntry fuel dir header block space listing = some (after, listing') ∧
      (ArmedRun start area entries room dirString rest after listing' ∨
        StaleRun start area entries room dirString (armedArray area dirString) strangeComponent
          (laterComponents dirString) rest after listing') := by
  by_cases empty : listedPath entry dirString = []
  · have lastByte := run.ready.lastBytes _ List.mem_cons_self
    have dirEnough : dirString.length ≤ fuel := by omega
    exact ⟨_, _, listEntry_of_nil loaded lastByte dirHolds dirEnough empty,
      .inl (run.pass roomEnough empty)⟩
  · obtain ⟨after, listed, next⟩ := run.fires layout loaded dirHolds roomEnough enough empty
    exact ⟨after, _, listed, .inr next⟩

/-- Of fifty records with an empty component all but the first one are stored. -/
theorem ArmedRun.returns {hhdm : Word} {state : FsState} {listing : Listing}
    (run : ArmedRun start area entries room dirString (entries.zip blocks) state.vfs.space listing)
    (layout : ListingLayout start (archive entries).length blocks area room)
    (startEq : state.vfs.tarFsStartAddress = start) (serves : Serves hhdm fuel state.kernel blocks)
    (lengths : blocks.length = entries.length) (dirHolds : Holds dir dirString)
    (roomEnough : 2 * dirString.length + 266 < room)
    (enough : 2 ^ 16 + dirString.length + entries.length < fuel) :
    ∃ result after, Yields (FsState.listEntries hhdm fuel dir fuel 0#64 listing state)
        (result, after) ∧
      StaleRun start area entries room dirString (armedArray area dirString) strangeComponent
        (laterComponents dirString) [] after.vfs.space result := by
  have dirEnough : 2 ^ 16 + dirString.length ≤ fuel := by omega
  rcases @FsState.listEntries_all hhdm start fuel dir entries False
    (fun rest space listing => ArmedRun start area entries room dirString rest space listing ∨
      StaleRun start area entries room dirString (armedArray area dirString) strangeComponent
        (laterComponents dirString) rest space listing)
    (fun run => run.elim (fun armed => armed.ready.loaded)
      fun ⟨_, settled, _⟩ => settled.ready.loaded)
    (fun run loaded => .inr (run.elim
      (fun armed => armed.step layout loaded dirHolds roomEnough dirEnough)
      fun settled => by
        obtain ⟨after, listing', listed, next⟩ := settled.step strangeComponent_ne_nil loaded dirHolds
          dirEnough
        exact ⟨after, listing', listed, .inr next⟩))
    blocks fuel listing state startEq serves lengths (by omega) (.inl run) with
    ⟨impossible, -⟩ | ⟨result, after, returned, armed | settled⟩
  · exact impossible.elim
  · have lengths : 0 = (List.replicate 50 ([] : List Byte)).length :=
      congrArg List.length armed.components
    exact absurd lengths (by decide)
  · exact ⟨result, after, returned, settled⟩

theorem armedRun_start (layout : ListingLayout start (archive entries).length blocks area room)
    (lengths : blocks.length = entries.length) (dirNoZero : 0#8 ∉ dirString)
    (roomEnough : 2 * dirString.length + 266 < room)
    (components : listedComponents entries dirString = List.replicate 50 []) :
    ArmedRun start area entries room dirString (entries.zip blocks)
      (withArea area room
        (stringStream (stalePath dirString strangeComponent ++
          0#8 :: stalePath dirString armedComponent)) (imageSpace start (archive entries)))
      ⟨armedArray area dirString, 0⟩ where
  ready := layout.ready _ lengths
  listingEq := rfl
  stale := by
    have fits := layout.areaFits
    have strangeLe := @length_strange_le dirString
    exact holds_withArea_start (holds_stringStream_append
      (zero_notMem_stalePath dirNoZero zero_notMem_strangeComponent) _) (by omega) (by omega)
  armed := by
    have fits := layout.areaFits
    have strangeLe := @length_strange_le dirString
    have armedLe := @length_armed_le dirString
    refine holds_withArea ?_ (by omega) (by omega)
    rw [advance_stringStream_append]
    exact holds_stringStream (zero_notMem_stalePath dirNoZero (by decide))
  components := by rwa [List.map_fst_zip (Nat.le_of_eq lengths.symm)]

end Starts

end MmdOS
