import MmdOS.DirectMap
import MmdOS.WordStack
import Mathlib.Order.CompletePartialOrder
import Mathlib.Order.Interval.Set.Basic

/-!
# The kernel heap

This file embeds `kheap.c`.  An arena is a run of pages that begins with an
`arena_t`; every block in it is preceded by an `arena_metadata` that points back
to the arena.  The statements that would link a new arena into the list of
`vmm_kernel` are commented out in the source, so that every call of `k_alloc`
finds an empty list and opens an arena of its own, and every call of `k_free`
closes one.
-/

namespace MmdOS

open ByteMemory
open WordStack (slot)

variable {size : Word} {page : Nat}

/-- The fields of an `arena_t`, in order. -/
def arenaNext (arena : Word) : Word := slot arena 0

def arenaBase (arena : Word) : Word := slot arena 1

def arenaSize (arena : Word) : Word := slot arena 2

def arenaOffset (arena : Word) : Word := slot arena 3

def arenaAllocated (arena : Word) : Word := slot arena 4

def sizeofArena : Word := 40#64

def sizeofMetadata : Word := 8#64

theorem sizeofArena_toNat : sizeofArena.toNat = 40 :=
  rfl

theorem sizeofMetadata_toNat : sizeofMetadata.toNat = 8 :=
  rfl

def heapBytes (size : Word) : Word :=
  size + sizeofArena + sizeofMetadata

def heapPages (size : Word) : Word :=
  divRoundup (heapBytes size) 4096#64

section Model

variable (hhdm : Word)

/-- The search of `k_alloc` for an arena with room, from `arena` on.  It ends in
a null pointer when there is none. -/
def findArena (state : MmState Pmm) (size : Word) : (fuel : Nat) → (arena : Word) → Option Word
  | 0, _ => none
  | fuel + 1, arena =>
      if arena = 0#64 then some 0#64
      else if size + sizeofMetadata ≤
          state.load hhdm (arenaSize arena) - state.load hhdm (arenaOffset arena) then some arena
      else findArena state size fuel (state.load hhdm (arenaNext arena))

/-- The statements by which both branches of `k_alloc` take a block out of an
arena. -/
def takeBlock (state : MmState Pmm) (arena size : Word) : Word × MmState Pmm :=
  let metadata := state.load hhdm (arenaBase arena) + state.load hhdm (arenaOffset arena)
  let state := state.store hhdm metadata (state.load hhdm (arenaBase arena))
  let ret := state.load hhdm (arenaBase arena) + state.load hhdm (arenaOffset arena) +
    sizeofMetadata
  let state := state.store hhdm (arenaOffset arena)
    (state.load hhdm (arenaOffset arena) + size + sizeofMetadata)
  let state := state.store hhdm (arenaAllocated arena)
    (state.load hhdm (arenaAllocated arena) + 1#64)
  (ret, state)

def arenaRequests (newAlloc size : Word) : List MapRequest :=
  (List.range (heapPages size).toNat).map fun i =>
    ⟨newAlloc + BitVec.ofNat 64 i * 4096#64 + hhdm, newAlloc + BitVec.ofNat 64 i * 4096#64,
      ptePresent ||| pteWritable, .heapMap⟩

def writeArena (state : MmState Pmm) (arena size : Word) : MmState Pmm :=
  let state := state.store hhdm (arenaNext arena) 0#64
  let state := state.store hhdm (arenaBase arena) arena
  let state := state.store hhdm (arenaSize arena) (alignUp (heapBytes size) 4096#64)
  let state := state.store hhdm (arenaOffset arena) sizeofArena
  state.store hhdm (arenaAllocated arena) 0#64

def newArena (state : MmState Pmm) (vmmKernel size : Word) :
    Except Panic (Word × MmState Pmm) := do
  let (newAlloc, state) ← pmmAlloc hhdm (fun pmm => pmmAllocNozero pmm (heapPages size).toNat)
    (heapPages size).toNat state
  let state ← mapPages hhdm pmmSource state vmmKernel (arenaRequests hhdm newAlloc size)
  .ok (newAlloc + hhdm, writeArena hhdm state (newAlloc + hhdm) size)

/-- The loop to the end of the list of arenas.  What it ends with is assigned to
a local variable only. -/
def skipArenas (state : MmState Pmm) : (fuel : Nat) → (current : Word) → Option Unit
  | 0, _ => none
  | fuel + 1, current =>
      if current = 0#64 then some ()
      else skipArenas state fuel (state.load hhdm (arenaNext current))

/-- `k_alloc`; the two loops over the list of arenas run on fuel. -/
def kAlloc (fuel : Nat) (state : MmState Pmm) (vmmKernel size : Word) :
    Option (Except Panic (Word × MmState Pmm)) := do
  let arena ← findArena hhdm state size fuel (state.load hhdm (arenaField vmmKernel))
  if arena ≠ 0#64 then some (.ok (takeBlock hhdm state arena size))
  else
    match newArena hhdm state vmmKernel size with
    | .error reason => some (.error reason)
    | .ok (arena, state) => do
        skipArenas hhdm state fuel (state.load hhdm (arenaField vmmKernel))
        some (.ok (takeBlock hhdm state arena size))

/-- The loop of `k_free`, which reads the size of the arena in every round. -/
def unmapArena (state : MmState Pmm) (vmmKernel arena : Word) (i : Nat) :
    Except Panic (MmState Pmm) :=
  if i < (state.load hhdm (arenaSize arena)).toNat / pageSize then do
    let (_, unmapped) ← vmmUnmapPage hhdm pmmSource state vmmKernel
      (arena + BitVec.ofNat 64 i * 4096#64)
    unmapArena unmapped vmmKernel arena (i + 1)
  else .ok state
termination_by 2 ^ 64 - i
decreasing_by
  have sizeLt := (state.load hhdm (arenaSize arena)).isLt
  have roundsLe := Nat.div_le_self (state.load hhdm (arenaSize arena)).toNat pageSize
  omega

def kFree (state : MmState Pmm) (vmmKernel addr : Word) : Except Panic (MmState Pmm) :=
  let arena := state.load hhdm (addr - sizeofMetadata)
  let state := state.store hhdm (arenaAllocated arena)
    (state.load hhdm (arenaAllocated arena) - 1#64)
  if state.load hhdm (arenaAllocated arena) ≤ 0#64 then do
    let frames ← pmmFree state.frames (state.load hhdm (arenaBase arena) - hhdm)
      (divRoundup (state.load hhdm (arenaSize arena)) 4096#64).toNat
    unmapArena hhdm { state with frames } vmmKernel arena 0
  else .ok state

end Model

section Fuel

variable {hhdm : Word} {state : MmState Pmm} {fuel more : Nat}

theorem findArena_mono {arena found : Word} (fuelLe : fuel ≤ more)
    (ended : findArena hhdm state size fuel arena = some found) :
    findArena hhdm state size more arena = some found := by
  induction fuel generalizing more arena with
  | zero => cases ended
  | succ fuel ih =>
      obtain ⟨more, rfl⟩ : ∃ less, more = less + 1 := ⟨more - 1, by omega⟩
      rw [findArena] at ended ⊢
      split at ended
      · next isNull => rwa [if_pos isNull]
      · next nonNull =>
        rw [if_neg nonNull]
        split at ended
        · next fits => rwa [if_pos fits]
        · next tooSmall =>
          rw [if_neg tooSmall]
          exact ih (Nat.le_of_succ_le_succ fuelLe) ended

theorem skipArenas_mono {current : Word} (fuelLe : fuel ≤ more)
    (ended : skipArenas hhdm state fuel current = some ()) :
    skipArenas hhdm state more current = some () := by
  induction fuel generalizing more current with
  | zero => cases ended
  | succ fuel ih =>
      obtain ⟨more, rfl⟩ : ∃ less, more = less + 1 := ⟨more - 1, by omega⟩
      rw [skipArenas] at ended ⊢
      split at ended
      · next isNull => rw [if_pos isNull]
      · next nonNull =>
        rw [if_neg nonNull]
        exact ih (Nat.le_of_succ_le_succ fuelLe) ended

theorem kAlloc_mono {vmmKernel : Word} {result : Except Panic (Word × MmState Pmm)}
    (fuelLe : fuel ≤ more) (ended : kAlloc hhdm fuel state vmmKernel size = some result) :
    kAlloc hhdm more state vmmKernel size = some result := by
  rw [kAlloc, Option.bind_eq_bind, Option.bind_eq_some_iff] at ended
  obtain ⟨arena, found, taken⟩ := ended
  rw [kAlloc, Option.bind_eq_bind, findArena_mono fuelLe found, Option.bind_some]
  split at taken
  · next nonNull => rwa [if_pos nonNull]
  · next isNull =>
    rw [if_neg isNull]
    cases opened : newArena hhdm state vmmKernel size with
    | error reason =>
        rw [opened] at taken
        exact taken
    | ok fresh =>
        rw [opened] at taken
        dsimp only at taken ⊢
        obtain ⟨⟨⟩, skipped, isResult⟩ := Option.bind_eq_some_iff.mp taken
        rw [skipArenas_mono fuelLe skipped]
        exact isResult

end Fuel

def heapSpec (hhdm : Word) (top : Nat) : FrameSpec hhdm pmmSource where
  Valid := fun pmm => pmm.Covered hhdm ∧ pmm.bitmapTopIndex = top
  Free := (pmmSpec hhdm).Free
  supply := (pmmSpec hhdm).supply
  free_direct := fun valid free => (pmmSpec hhdm).free_direct valid.1 free
  supply_error := fun valid failed => (pmmSpec hhdm).supply_error valid.1 failed
  alloc_spec := by
    intro pmm addr after valid allocated
    obtain ⟨start, -, taken⟩ := pmmAllocNozero_took valid.1.valid le_rfl allocated
    obtain ⟨covered, rest⟩ := (pmmSpec hhdm).alloc_spec valid.1 allocated
    exact ⟨⟨covered, taken.top_eq.trans valid.2⟩, rest⟩

theorem physicalScan_zero (bitmap : Bitmap) (remaining prev run : Nat) :
    (physicalScan bitmap 0 remaining prev run).2 = none := by
  induction remaining generalizing prev run with
  | zero => rfl
  | succ remaining ih =>
      rw [physicalScan]
      split
      · exact ih _ _
      · rw [if_neg (Nat.succ_ne_zero run)]
        exact ih _ _

theorem physicalAlloc_zero (pmm : Pmm) (limit : Nat) : (physicalAlloc pmm 0 limit).1 = 0#64 := by
  have missed := physicalScan_zero pmm.bitmap (limit - pmm.bitmapPrevIndex) pmm.bitmapPrevIndex 0
  rw [physicalAlloc]
  cases scan : physicalScan pmm.bitmap 0 (limit - pmm.bitmapPrevIndex) pmm.bitmapPrevIndex 0 with
  | mk cursor found =>
      rw [scan] at missed
      dsimp only at missed
      subst missed
      rfl

theorem pmmAllocNozero_zero (pmm : Pmm) : pmmAllocNozero pmm 0 = .error .outOfMemory := by
  simp only [pmmAllocNozero, physicalAlloc_zero, if_true]

section Spec

variable {hhdm : Word} {top : Nat} {height height' : Nat → Option Nat}
variable {state state' : MmState Pmm} {kernel : Space}

theorem pmmAlloc_pages (tables : Tables (heapSpec hhdm top) height state) (count : Nat) :
    (∃ reason, (count = 1 → state.frames.freeSet.card = 0) ∧
      pmmAlloc hhdm (fun pmm => pmmAllocNozero pmm count) count state = .error reason) ∨
    ∃ start state', pmmAlloc hhdm (fun pmm => pmmAllocNozero pmm count) count state =
        .ok (pageAddress start, state') ∧
      1 ≤ count ∧ 1 ≤ start ∧ start + count ≤ top ∧
      Extends (heapSpec hhdm top) (Set.Ico start (start + count)) height state height state' ∧
      (∀ {page}, page ∉ Set.Ico start (start + count) → SamePage state.ram state'.ram page) ∧
      (count = 1 → state.frames.freeSet.card ≤ state'.frames.freeSet.card + 1) ∧
      pmmAllocNozero state.frames count = .ok (pageAddress start, state'.frames) := by
  obtain ⟨covered, topEq⟩ := tables.valid
  cases allocated : pmmAllocNozero state.frames count with
  | error reason =>
      left
      refine ⟨reason, ?_, pmmAlloc_error allocated⟩
      rintro rfl
      exact (heapSpec hhdm top).supply_error tables.valid allocated
  | ok pair =>
      right
      obtain ⟨addr, after⟩ := pair
      have positive : 1 ≤ count := by
        by_contra none
        have isZero : count = 0 := by omega
        rw [isZero, pmmAllocNozero_zero] at allocated
        cases allocated
      obtain ⟨start, rfl, taken⟩ := pmmAllocNozero_took covered.valid positive allocated
      have fits := taken.fits
      have topLe := covered.top_le
      have same : ∀ {page}, page ∉ Set.Ico start (start + count) →
          SamePage state.ram (clearPages state.ram start count) page := by
        intro page outside
        apply samePage_clearPages
        rw [Set.mem_Ico] at outside
        omega
      refine ⟨start, _, pmmAlloc_eq taken.start_pos (by omega) allocated, positive,
        taken.start_pos, by omega, ?_, same, ?_, rfl⟩
      · refine tables.take ⟨covered.took taken, taken.top_eq.trans topEq⟩ ?_ ?_ same
        · intro page inside
          exact Pmm.mem_freeSet.mpr ⟨by have := inside.2; omega, taken.free page inside.1 inside.2⟩
        · intro page
          change page ∈ after.freeSet ↔ page ∈ state.frames.freeSet ∧ _
          rw [Pmm.mem_freeSet, Pmm.mem_freeSet, taken.top_eq, taken.free_iff, Set.mem_Ico,
            and_assoc]
      · rintro rfl
        dsimp only
        rw [taken.freeSet_eq, Finset.card_erase_add_one taken.start_mem]

theorem mapPages_keeps {σ : Type} {source : FrameSource σ} {spec : FrameSpec hhdm source}
    {state : MmState σ} (ready : KernelReady spec kernel height state)
    (requests : List MapRequest) :
    (∃ reason, spec.supply state.frames < 3 * requests.length ∧
      mapPages hhdm source state (kernel.vmm hhdm) requests = .error reason) ∨
    ∃ height' final, mapPages hhdm source state (kernel.vmm hhdm) requests = .ok final ∧
      Extends spec ∅ height state height' final ∧
      (∀ virt, Present (leafPte state.ram kernel.root virt) →
        leafPte final.ram kernel.root virt = leafPte state.ram kernel.root virt) ∧
      (∀ {page index}, height page = some 3 → page ≠ kernel.root →
        tableStore final.ram page index = tableStore state.ram page index) ∧
      spec.supply state.frames ≤ spec.supply final.frames + 3 * requests.length ∧
      ∀ request ∈ requests, Present (request.physical ||| request.flags) →
        Present (leafPte final.ram kernel.root request.virt) := by
  let f : Nat → Word := fun key =>
    leafPte state.ram kernel.root (BitVec.ofNat 64 (key * pageSize))
  have flat : ∀ virt, leafPte state.ram kernel.root virt = f (pageKey virt) := by
    intro virt
    refine leafPte_congr ?_ rfl
    rw [pageKey_eq, pageKey_eq, BitVec.toNat_ofNat, pageSize]
    omega
  have costLe := card_requestPrefixes_le requests
  have pathsLe := card_requestPaths_le requests
  rcases mapPages_spec ready.tables ready.space_at f flat upperPaths
    (fun path member => upperPaths_reached ready.upper member) requests with
      ⟨reason, -, short, stopped⟩ | ⟨height', final, returned, ext, finalFlat, -, roots, supplyLe⟩
  · exact .inl ⟨reason, by omega, stopped⟩
  · refine .inr ⟨height', final, returned, ext, ?_,
      fun rootHeight otherRoot => roots rootHeight fun isRoot => absurd isRoot otherRoot,
      by omega, ?_⟩
    · intro virt present
      rw [flat] at present
      rw [finalFlat, flatRun_of_present requests present, flat]
    · intro request asked present
      rw [finalFlat]
      exact flatRun_present requests asked present

theorem load_store_word (state : MmState Pmm) {i j : Nat} (pageLt : page < 2 ^ 40) (iLt : i < 512)
    (jLt : j < 512) (value : Word) :
    (state.store hhdm (slot (directPtr hhdm page) i) value).load hhdm
      (slot (directPtr hhdm page) j) =
        if j = i then value else state.load hhdm (slot (directPtr hhdm page) j) := by
  have iInside : 8 * i + 8 ≤ pageSize := by
    rw [pageSize]
    omega
  have jInside : 8 * j + 8 ≤ pageSize := by
    rw [pageSize]
    omega
  by_cases same : j = i
  · subst same
    rw [if_pos rfl]
    exact load_store state pageLt iInside value
  · rw [if_neg same]
    exact load_store_of_disjoint state pageLt iInside jInside (by omega) value

end Spec

/-- The pages of an arena with one block, and the size that the block was asked
for. -/
structure Arena where
  start : Nat
  count : Nat
  size : Word
  deriving DecidableEq

namespace Arena

def pages (arena : Arena) : Set Nat :=
  Set.Ico arena.start (arena.start + arena.count)

def header (hhdm : Word) (arena : Arena) : Word :=
  directPtr hhdm arena.start

/-- The address of the block, behind the `arena_t` and one `arena_metadata`. -/
def ptr (hhdm : Word) (arena : Arena) : Word :=
  slot (arena.header hhdm) 6

theorem start_mem {arena : Arena} (positive : 1 ≤ arena.count) : arena.start ∈ arena.pages :=
  Set.mem_Ico.mpr ⟨le_rfl, by omega⟩

end Arena

section Blocks

variable {hhdm : Word} {top : Nat} {height height' : Nat → Option Nat}
variable {state state' : MmState Pmm} {kernel : Space} {arena : Arena}

variable {given : Set Nat}

variable (hhdm top) in
/-- What holds of an arena as long as its block is live. -/
structure ArenaAt (height : Nat → Option Nat) (state : MmState Pmm) (arena : Arena) : Prop where
  positive : 1 ≤ arena.count
  start_pos : 1 ≤ arena.start
  fits : arena.start + arena.count ≤ top
  used : ∀ page ∈ arena.pages, page ∉ state.frames.freeSet
  blank : ∀ page ∈ arena.pages, height page = none
  base_eq : state.load hhdm (arenaBase (arena.header hhdm)) = arena.header hhdm
  size_eq : state.load hhdm (arenaSize (arena.header hhdm)) = pageAddress arena.count
  allocated_eq : state.load hhdm (arenaAllocated (arena.header hhdm)) = 1#64
  metadata_eq : state.load hhdm (slot (arena.header hhdm) 5) = arena.header hhdm

theorem ArenaAt.addresses (arenaAt : ArenaAt hhdm top height state arena)
    (valid : (heapSpec hhdm top).Valid state.frames) :
    (arena.header hhdm).toNat = arena.start * pageSize + hhdm.toNat ∧
      (slot (arena.header hhdm) 5).toNat = arena.start * pageSize + hhdm.toNat + 40 ∧
      (arena.ptr hhdm).toNat = arena.start * pageSize + hhdm.toNat + 48 ∧
      (arena.start + arena.count) * pageSize + hhdm.toNat ≤ 2 ^ 64 := by
  have positive := arenaAt.positive
  obtain ⟨covered, topEq⟩ := valid
  have reach := covered.reach
  have fits : (arena.start + arena.count) * pageSize ≤ top * pageSize :=
    Nat.mul_le_mul_right _ arenaAt.fits
  have firstPage : (arena.start + 1) * pageSize ≤ (arena.start + arena.count) * pageSize :=
    Nat.mul_le_mul_right _ (by omega)
  rw [topEq] at reach
  have pageReach : (arena.start + 1) * pageSize + hhdm.toNat ≤ 2 ^ 64 := by omega
  exact ⟨directPtr_toNat pageReach, directPtr_add_toNat pageReach (by decide),
    directPtr_add_toNat pageReach (by decide), by omega⟩

theorem ArenaAt.frame (arenaAt : ArenaAt hhdm top height state arena) (topLe : top ≤ 2 ^ 40)
    (used : ∀ page ∈ arena.pages, page ∉ state'.frames.freeSet)
    (blank : ∀ page ∈ arena.pages, height' page = none)
    (same : SamePage state.ram state'.ram arena.start) :
    ArenaAt hhdm top height' state' arena := by
  have positive := arenaAt.positive
  have fits := arenaAt.fits
  have loadEq : ∀ {i}, i < 512 → state'.load hhdm (slot (arena.header hhdm) i) =
      state.load hhdm (slot (arena.header hhdm) i) := by
    intro i iLt
    exact same.load_eq (by omega) (by rw [pageSize]; omega)
  exact
    { positive
      start_pos := arenaAt.start_pos
      fits
      used
      blank
      base_eq := (loadEq (by decide)).trans arenaAt.base_eq
      size_eq := (loadEq (by decide)).trans arenaAt.size_eq
      allocated_eq := (loadEq (by decide)).trans arenaAt.allocated_eq
      metadata_eq := (loadEq (by decide)).trans arenaAt.metadata_eq }

theorem ArenaAt.extends {taken : Set Nat} (arenaAt : ArenaAt hhdm top height state arena)
    (topLe : top ≤ 2 ^ 40) (ext : Extends (heapSpec hhdm top) taken height state height' state') :
    ArenaAt hhdm top height' state' arena := by
  have kept : ∀ page ∈ arena.pages, page ∉ state'.frames.freeSet ∧ height' page = none :=
    fun page inside => ext.used_blank (arenaAt.used page inside) (arenaAt.blank page inside)
  have inside := Arena.start_mem arenaAt.positive
  exact arenaAt.frame topLe (fun page inside => (kept page inside).1)
    (fun page inside => (kept page inside).2)
    (ext.frame (arenaAt.used _ inside) (arenaAt.blank _ inside))

theorem takeBlock_fresh (pageLt : page < 2 ^ 40) (size : Word)
    (base : state.load hhdm (arenaBase (directPtr hhdm page)) = directPtr hhdm page)
    (offset : state.load hhdm (arenaOffset (directPtr hhdm page)) = sizeofArena)
    (allocated : state.load hhdm (arenaAllocated (directPtr hhdm page)) = 0#64) :
    takeBlock hhdm state (directPtr hhdm page) size = (slot (directPtr hhdm page) 6,
      ((state.store hhdm (slot (directPtr hhdm page) 5) (directPtr hhdm page)).store hhdm
        (slot (directPtr hhdm page) 3) (sizeofArena + size + sizeofMetadata)).store hhdm
          (slot (directPtr hhdm page) 4) 1#64) := by
  have metadata : directPtr hhdm page + sizeofArena = slot (directPtr hhdm page) 5 := rfl
  have block : slot (directPtr hhdm page) 5 + sizeofMetadata = slot (directPtr hhdm page) 6 := by
    rw [slot, slot, BitVec.add_assoc]
    rfl
  rw [arenaBase] at base
  rw [arenaOffset] at offset
  rw [arenaAllocated] at allocated
  simp (disch := decide) only [takeBlock, arenaBase, arenaOffset, arenaAllocated, base, offset,
    metadata, load_store_word _ pageLt, allocated, Nat.reduceEqDiff, reduceIte, block]
  rfl

theorem SamePage.store_word {first : Memory} {start i : Nat} (same : SamePage first state.ram page)
    (different : page ≠ start) (startLt : start < 2 ^ 40) (iLt : i < 512) (value : Word) :
    SamePage first (state.store hhdm (slot (directPtr hhdm start) i) value).ram page :=
  same.trans (samePage_store state startLt (by rw [pageSize]; omega) different value)

theorem samePage_writeArena (hhdm : Word) (state : MmState Pmm) {start : Nat}
    (startLt : start < 2 ^ 40) (different : page ≠ start) (size : Word) :
    SamePage state.ram (writeArena hhdm state (directPtr hhdm start) size).ram page := by
  have same := SamePage.refl state.ram page
  exact ((((same.store_word different startLt (by decide) _).store_word different startLt
    (by decide) _).store_word different startLt (by decide) _).store_word different startLt
      (by decide) _).store_word different startLt (by decide) _

theorem alignUp_heapBytes (size : Word) :
    alignUp (heapBytes size) 4096#64 = pageAddress (heapPages size).toNat := by
  apply BitVec.eq_of_toNat_eq
  rw [alignUp, ← heapPages, BitVec.toNat_mul, pageAddress, BitVec.toNat_ofNat, pageSize,
    BitVec.toNat_ofNat, Nat.mod_eq_of_lt (by decide : 4096 < 2 ^ 64)]

theorem writeArena_words (hhdm : Word) (state : MmState Pmm) (pageLt : page < 2 ^ 40) (size : Word) :
    (writeArena hhdm state (directPtr hhdm page) size).load hhdm
        (arenaBase (directPtr hhdm page)) = directPtr hhdm page ∧
      (writeArena hhdm state (directPtr hhdm page) size).load hhdm
        (arenaSize (directPtr hhdm page)) = pageAddress (heapPages size).toNat ∧
      (writeArena hhdm state (directPtr hhdm page) size).load hhdm
        (arenaOffset (directPtr hhdm page)) = sizeofArena ∧
      (writeArena hhdm state (directPtr hhdm page) size).load hhdm
        (arenaAllocated (directPtr hhdm page)) = 0#64 := by
  simp (disch := decide) only [writeArena, arenaNext, arenaBase, arenaSize, arenaOffset,
    arenaAllocated, load_store_word _ pageLt, Nat.reduceEqDiff, reduceIte, alignUp_heapBytes,
    and_self]

/-- Writing the header of an arena and taking its first block touches nothing
but the first page. -/
theorem writeArena_takeBlock {taken : Set Nat} {mapped : MmState Pmm}
    (ext : Extends (heapSpec hhdm top) taken height state height' mapped)
    (inTaken : arena.start ∈ taken) (blank : height' arena.start = none)
    (startLt : arena.start < 2 ^ 40) (countEq : arena.count = (heapPages arena.size).toNat) :
    ∃ state', takeBlock hhdm (writeArena hhdm mapped (arena.header hhdm) arena.size)
        (arena.header hhdm) arena.size = (arena.ptr hhdm, state') ∧
      Extends (heapSpec hhdm top) taken height state height' state' ∧
      state'.frames = mapped.frames ∧
      (∀ {page}, page ≠ arena.start → SamePage mapped.ram state'.ram page) ∧
      state'.load hhdm (arenaBase (arena.header hhdm)) = arena.header hhdm ∧
      state'.load hhdm (arenaSize (arena.header hhdm)) = pageAddress arena.count ∧
      state'.load hhdm (arenaAllocated (arena.header hhdm)) = 1#64 ∧
      state'.load hhdm (slot (arena.header hhdm) 5) = arena.header hhdm ∧
      state'.load hhdm (arenaOffset (arena.header hhdm)) =
        sizeofArena + arena.size + sizeofMetadata := by
  have extStore : ∀ {current : MmState Pmm} {i : Nat} (value : Word), i < 512 →
      Extends (heapSpec hhdm top) taken height state height' current →
      Extends (heapSpec hhdm top) taken height state height'
        (current.store hhdm (slot (arena.header hhdm) i) value) := by
    intro current i value iLt currentExt
    exact currentExt.store_taken (8 * i) inTaken blank startLt (by rw [pageSize]; omega) value
  obtain ⟨base, size, offset, allocated⟩ := writeArena_words hhdm mapped startLt arena.size
  have fresh := takeBlock_fresh startLt arena.size base offset allocated
  rw [← Arena.header] at base size fresh
  have written : Extends (heapSpec hhdm top) taken height state height'
      (writeArena hhdm mapped (arena.header hhdm) arena.size) := by
    rw [writeArena]
    iterate 5 apply extStore _ (by decide)
    exact ext
  refine ⟨_, fresh, ?_, ?_, ?_, ?_⟩
  · iterate 3 apply extStore _ (by decide)
    exact written
  · simp only [writeArena, MmState.store_frames]
  · intro page different
    have same := samePage_writeArena hhdm mapped startLt different arena.size
    exact ((same.store_word different startLt (by decide) _).store_word different startLt
      (by decide) _).store_word different startLt (by decide) _
  · rw [arenaBase, Arena.header] at base
    rw [arenaSize, Arena.header] at size
    simp (disch := decide) only [arenaBase, arenaSize, arenaOffset, arenaAllocated, Arena.header,
      load_store_word _ startLt, Nat.reduceEqDiff, reduceIte, base, size, countEq, and_self]

theorem directPtr_add_pages (hhdm : Word) (start i : Nat) :
    directPtr hhdm start + BitVec.ofNat 64 i * 4096#64 = directPtr hhdm (start + i) := by
  have sum : pageAddress (start + i) = pageAddress start + BitVec.ofNat 64 i * 4096#64 := by
    apply BitVec.eq_of_toNat_eq
    rw [pageAddress, pageAddress, BitVec.toNat_add, BitVec.toNat_mul, BitVec.toNat_ofNat,
      BitVec.toNat_ofNat, BitVec.toNat_ofNat, BitVec.toNat_ofNat, pageSize]
    omega
  rw [directPtr, directPtr, sum]
  ac_rfl

/-- `k_alloc` always opens an arena of its own. -/
theorem kAlloc_spec (ready : KernelReady (heapSpec hhdm top) kernel height state) (fuel : Nat)
    (size : Word) :
    (∃ reason, (heapPages size = 1#64 → state.frames.freeSet.card ≤ 3) ∧
      kAlloc hhdm (fuel + 1) state (kernel.vmm hhdm) size = some (.error reason)) ∨
    ∃ arena height' state',
      kAlloc hhdm (fuel + 1) state (kernel.vmm hhdm) size =
        some (.ok (arena.ptr hhdm, state')) ∧
      arena.size = size ∧ arena.count = (heapPages size).toNat ∧
      Extends (heapSpec hhdm top) arena.pages height state height' state' ∧
      ArenaAt hhdm top height' state' arena ∧
      (∀ virt, Present (leafPte state.ram kernel.root virt) →
        leafPte state'.ram kernel.root virt = leafPte state.ram kernel.root virt) ∧
      (∀ {page index}, height page = some 3 → page ≠ kernel.root →
        tableStore state'.ram page index = tableStore state.ram page index) ∧
      (heapPages size = 1#64 → state.frames.freeSet.card ≤ state'.frames.freeSet.card + 4) ∧
      state'.load hhdm (arenaOffset (arena.header hhdm)) = sizeofArena + size + sizeofMetadata ∧
      (∃ frames, pmmAllocNozero state.frames (heapPages size).toNat =
        .ok (pageAddress arena.start, frames)) ∧
      ∀ page ∈ arena.pages, Present (leafPte state'.ram kernel.root (directPtr hhdm page)) := by
  have topLe : top ≤ 2 ^ 40 := by
    rw [← ready.tables.valid.2]
    exact ready.tables.valid.1.top_le
  have noArena : findArena hhdm state size (fuel + 1)
      (state.load hhdm (arenaField (kernel.vmm hhdm))) = some 0#64 := by
    rw [ready.arena_eq, findArena, if_pos rfl]
  rw [kAlloc, noArena, Option.bind_eq_bind, Option.bind_some, if_neg (by simp)]
  rcases pmmAlloc_pages ready.tables (heapPages size).toNat with ⟨reason, short, stopped⟩ |
    ⟨start, taken, allocated, positive, startPos, fits, allocExt, allocSame, allocSupply,
      allocFrames⟩
  · left
    refine ⟨reason, ?_, ?_⟩
    · intro onePage
      have := short (by rw [onePage]; rfl)
      omega
    · rw [newArena, stopped, panic_bind]
  let arena : Arena := ⟨start, (heapPages size).toNat, size⟩
  have takenReady := ready.extends allocExt
  have lengthEq : (arenaRequests hhdm (pageAddress start) size).length =
      (heapPages size).toNat := by
    rw [arenaRequests, List.length_map, List.length_range]
  have unfolded : newArena hhdm state (kernel.vmm hhdm) size =
      mapPages hhdm pmmSource taken (kernel.vmm hhdm)
        (arenaRequests hhdm (pageAddress start) size) >>= fun mapped =>
          .ok (arena.header hhdm, writeArena hhdm mapped (arena.header hhdm) size) := by
    rw [newArena, allocated, ok_bind]
    rfl
  rcases mapPages_keeps takenReady (arenaRequests hhdm (pageAddress start) size) with
    ⟨reason, short, stopped⟩ | ⟨height', mapped, mappedEq, mapExt, mapKept, mapRoots, mapSupply,
      mapPresent⟩
  · left
    refine ⟨reason, ?_, by rw [unfolded, stopped, panic_bind]⟩
    intro onePage
    have oneLess := allocSupply (by rw [onePage]; rfl)
    rw [lengthEq, onePage] at short
    change taken.frames.freeSet.card < 3 * 1 at short
    omega
  right
  have ext := allocExt.trans mapExt
  rw [Set.union_empty] at ext
  have inside : arena.start ∈ arena.pages := Arena.start_mem positive
  have blank : ∀ page ∈ arena.pages, height' page = none := by
    intro page inPages
    exact (mapExt.used_blank (allocExt.taken_used inPages)
      (ready.tables.not_free (allocExt.taken_free inPages))).2
  obtain ⟨state', blockEq, blockExt, framesEq, blockSame, baseEq, sizeEq, allocatedEq, metadataEq,
    offsetEq⟩ :=
    writeArena_takeBlock ext inside (blank _ inside)
      (by change start < 2 ^ 40; omega : arena.start < 2 ^ 40) rfl
  -- the tables are neither among the pages taken nor in the page of the header
  have takenSame : ∀ {page h}, height page = some h → SamePage state.ram taken.ram page :=
    fun heightEq => allocSame fun inPages =>
      ready.tables.used heightEq (allocExt.taken_free inPages)
  have tableSame : ∀ {page h}, height' page = some h → SamePage mapped.ram state'.ram page := by
    intro page h heightEq
    apply blockSame
    rintro rfl
    rw [blank _ inside] at heightEq
    cases heightEq
  have blockLeaf := mapExt.tables.leafPte_eq
    (mapExt.keeps takenReady.space_at.root_height) tableSame
  refine ⟨arena, height', state', ?_, rfl, rfl, blockExt, ?_, ?_, ?_, ?_, offsetEq, ⟨_, allocFrames⟩,
    ?_⟩
  · have stillEmpty : (writeArena hhdm mapped (arena.header hhdm) size).load hhdm
        (arenaField (kernel.vmm hhdm)) = 0#64 := by
      have vmmNe : kernel.vmmPage ≠ start := by
        rintro rfl
        exact ready.space_at.used (allocExt.taken_free inside)
      have same := samePage_writeArena hhdm mapped (by omega) vmmNe size
      exact (same.load_eq ready.space_at.direct.2.1 (by decide)).trans (ready.extends ext).arena_eq
    rw [unfolded, mappedEq, ok_bind]
    dsimp only
    rw [stillEmpty, skipArenas, if_pos rfl]
    exact congrArg (fun pair => some (Except.ok pair)) blockEq
  · exact ⟨positive, startPos, fits, fun page inPages => blockExt.taken_used inPages, blank,
      baseEq, sizeEq, allocatedEq, metadataEq⟩
  · intro virt present
    have takenLeaf := ready.tables.leafPte_eq ready.space_at.root_height takenSame virt
    rw [blockLeaf virt, mapKept virt (by rwa [takenLeaf]), takenLeaf]
  · intro page index rootHeight otherRoot
    rw [(tableSame (mapExt.keeps rootHeight)).tableStore_eq, mapRoots rootHeight otherRoot,
      (takenSame rootHeight).tableStore_eq]
  · intro onePage
    have oneLess := allocSupply (by rw [onePage]; rfl)
    rw [lengthEq, onePage] at mapSupply
    change taken.frames.freeSet.card ≤ mapped.frames.freeSet.card + 3 * 1 at mapSupply
    rw [framesEq]
    omega
  · rintro page ⟨pageGe, pageLt⟩
    obtain ⟨i, rfl⟩ : ∃ i, page = start + i := Nat.exists_eq_add_of_le pageGe
    have asked := List.mem_map_of_mem (f := fun i => (⟨pageAddress start +
      BitVec.ofNat 64 i * 4096#64 + hhdm, pageAddress start + BitVec.ofNat 64 i * 4096#64,
      ptePresent ||| pteWritable, .heapMap⟩ : MapRequest))
        (List.mem_range.mpr (Nat.lt_of_add_lt_add_left pageLt))
    have isPresent := mapPresent _ asked (present_writable _)
    have virtEq : pageAddress start + BitVec.ofNat 64 i * 4096#64 + hhdm =
        directPtr hhdm (start + i) := by
      rw [← directPtr_add_pages, directPtr]
      ac_rfl
    dsimp only at isPresent
    rw [virtEq] at isPresent
    rwa [blockLeaf]

theorem kAlloc_returned (ready : KernelReady (heapSpec hhdm top) kernel height state) {fuel : Nat}
    {ptr : Word} (call : kAlloc hhdm fuel state (kernel.vmm hhdm) size = some (.ok (ptr, state'))) :
    ∃ arena height', ptr = Arena.ptr hhdm arena ∧ arena.size = size ∧
      arena.count = (heapPages size).toNat ∧
      Extends (heapSpec hhdm top) arena.pages height state height' state' ∧
      ArenaAt hhdm top height' state' arena ∧
      (∀ virt, Present (leafPte state.ram kernel.root virt) →
        leafPte state'.ram kernel.root virt = leafPte state.ram kernel.root virt) ∧
      ∀ {page index}, height page = some 3 → page ≠ kernel.root →
        tableStore state'.ram page index = tableStore state.ram page index := by
  cases fuel with
  | zero => simp [kAlloc, findArena] at call
  | succ fuel =>
      rcases kAlloc_spec ready fuel size with ⟨reason, -, stopped⟩ |
        ⟨arena, height', after, returned, sizeEq, countEq, ext, arenaAt, kept, rows, -⟩
      · rw [stopped] at call
        cases call
      · rw [returned] at call
        cases call
        exact ⟨arena, height', rfl, sizeEq, countEq, ext, arenaAt, kept, rows⟩

variable (hhdm top) in
/-- What `k_free` leaves alone while it gives the pages `given` back: all tables
above the last level and all other pages that are no tables. -/
structure Released (given : Set Nat) (height : Nat → Option Nat) (state state' : MmState Pmm) :
    Prop where
  tables : Tables (heapSpec hhdm top) height state'
  free_iff : ∀ page, page ∈ state'.frames.freeSet ↔ page ∈ state.frames.freeSet ∨ page ∈ given
  frame : ∀ {page}, height page ≠ some 0 → page ∉ given → SamePage state.ram state'.ram page

theorem SpaceAt.released {space : Space} (spaceAt : SpaceAt (heapSpec hhdm top) height state space)
    (released : Released hhdm top given height state state') (apart : space.vmmPage ∉ given) :
    SpaceAt (heapSpec hhdm top) height state' space where
  root_height := spaceAt.root_height
  direct := spaceAt.direct
  used := by
    intro free
    rcases (released.free_iff _).mp free with wasFree | inGiven
    · exact spaceAt.used wasFree
    · exact apart inGiven
  blank := spaceAt.blank
  pml_eq := by
    have same := released.frame (by simp [spaceAt.blank]) apart
    exact (same.pml_eq spaceAt.direct.2.1).trans spaceAt.pml_eq

theorem Released.upper (released : Released hhdm top given height state state')
    (blank : ∀ page ∈ given, height page = none) {h : Nat} (heightEq : height page = some (h + 1))
    (index : Fin 512) : tableStore state'.ram page index = tableStore state.ram page index := by
  refine (released.frame (by simp [heightEq]) fun inGiven => ?_).tableStore_eq index
  rw [blank page inGiven] at heightEq
  cases heightEq

theorem KernelReady.released (ready : KernelReady (heapSpec hhdm top) kernel height state)
    (released : Released hhdm top given height state state')
    (blank : ∀ page ∈ given, height page = none) (apart : kernel.vmmPage ∉ given) :
    KernelReady (heapSpec hhdm top) kernel height state' where
  tables := released.tables
  space_at := ready.space_at.released released apart
  arena_eq := by
    have same := released.frame (by simp [ready.space_at.blank]) apart
    exact (same.load_eq ready.space_at.direct.2.1 (by decide)).trans ready.arena_eq
  upper := by
    intro index upperHalf
    rw [released.upper blank ready.space_at.root_height]
    exact ready.upper index upperHalf

theorem ArenaAt.released (arenaAt : ArenaAt hhdm top height state arena) (topLe : top ≤ 2 ^ 40)
    (released : Released hhdm top given height state state') (apart : Disjoint arena.pages given) :
    ArenaAt hhdm top height state' arena := by
  have outside : ∀ page ∈ arena.pages, page ∉ given :=
    fun page inside inGiven => Set.disjoint_left.mp apart inside inGiven
  have inside := Arena.start_mem arenaAt.positive
  refine arenaAt.frame topLe ?_ arenaAt.blank ?_
  · intro page inPages free
    rcases (released.free_iff page).mp free with wasFree | inGiven
    · exact arenaAt.used page inPages wasFree
    · exact outside page inPages inGiven
  · refine released.frame ?_ (outside _ inside)
    simp [arenaAt.blank _ inside]

theorem PageOp.unmap_absent (virt pte : Word) : ¬ Present ((PageOp.unmap virt).onEntry pte).2 := by
  by_cases present : Present pte
  · rw [PageOp.onEntry_unmap_present present]
    decide
  · rwa [PageOp.onEntry_unmap_absent present]

/-- The loop of `k_free` unmaps one page after the other.  The header that it
reads the size from is not changed by it, though the page is free already. -/
theorem unmapArena_spec {start i rounds : Nat} (tables : Tables (heapSpec hhdm top) height state)
    (kernelAt : SpaceAt (heapSpec hhdm top) height state kernel) (blank : height start = none)
    (fits : start + (i + rounds) ≤ 2 ^ 40)
    (sizeEq : state.load hhdm (arenaSize (directPtr hhdm start)) = pageAddress (i + rounds)) :
    ∃ after, unmapArena hhdm state (kernel.vmm hhdm) (directPtr hhdm start) i = .ok after ∧
      after.frames = state.frames ∧
      (∀ {page}, height page ≠ some 0 → SamePage state.ram after.ram page) ∧
      Tables (heapSpec hhdm top) height after ∧
      (∀ virt, ¬ Present (leafPte state.ram kernel.root virt) →
        ¬ Present (leafPte after.ram kernel.root virt)) ∧
      ∀ page, start + i ≤ page → page < start + (i + rounds) →
        ¬ Present (leafPte after.ram kernel.root (directPtr hhdm page)) := by
  have roundsEq : (pageAddress (i + rounds)).toNat / pageSize = i + rounds :=
    pageAddress_toNat_div (by omega)
  rw [unmapArena, sizeEq, roundsEq]
  induction rounds generalizing state i with
  | zero =>
      rw [if_neg (by omega)]
      exact ⟨state, rfl, rfl, fun _ => SamePage.refl _ _, tables, fun _ => id,
        fun page pageGe pageLt => by omega⟩
  | succ rounds ih =>
      obtain ⟨ok, value, unmapped, described, returned, framesEq, same, updated⟩ :=
        vmmUnmapPage_spec (directPtr hhdm (start + i)) tables kernelAt.root_height kernelAt.pml_eq
      have valueAbsent : ¬ Present value := by
        have absent := PageOp.unmap_absent (directPtr hhdm (start + i))
          (leafPte state.ram kernel.root (directPtr hhdm (start + i)))
        rwa [described] at absent
      have nextSize : unmapped.load hhdm (arenaSize (directPtr hhdm start)) =
          pageAddress (i + 1 + rounds) := by
        rw [show i + 1 + rounds = i + (rounds + 1) by omega, ← sizeEq]
        exact (same (by simp [blank])).load_eq (by omega) (by decide)
      have nextRounds : (pageAddress (i + 1 + rounds)).toNat / pageSize = i + 1 + rounds :=
        pageAddress_toNat_div (by omega)
      obtain ⟨after, rest, restFrames, restSame, restTables, keepsAbsent, restAbsent⟩ :=
        ih updated.tables (kernelAt.extends updated.toExtends) (by omega) nextSize nextRounds
      have absentNow : ∀ virt, ¬ Present (leafPte state.ram kernel.root virt) ∨
          virt = directPtr hhdm (start + i) →
            ¬ Present (leafPte unmapped.ram kernel.root virt) := by
        intro virt either
        rw [updated.own_leafPte kernelAt.root_height]
        split
        · exact valueAbsent
        · next different =>
          rcases either with absent | here
          · exact absent
          · exact absurd (congrArg pageKey here) different
      refine ⟨after, ?_, restFrames.trans framesEq,
        fun notLeaf => (same notLeaf).trans (restSame notLeaf), restTables, ?_, ?_⟩
      · rw [if_pos (by omega), directPtr_add_pages, returned, ok_bind]
        dsimp only
        rw [unmapArena, nextSize, nextRounds]
        exact rest
      · intro virt absent
        exact keepsAbsent virt (absentNow virt (.inl absent))
      · intro page pageGe pageLt
        by_cases here : page = start + i
        · subst here
          exact keepsAbsent _ (absentNow _ (.inr rfl))
        · exact restAbsent page (by omega) (by omega)

theorem Arena.ptr_sub_metadata (hhdm : Word) (arena : Arena) :
    arena.ptr hhdm - sizeofMetadata = slot (arena.header hhdm) 5 := by
  have split : arena.ptr hhdm = slot (arena.header hhdm) 5 + sizeofMetadata := by
    rw [Arena.ptr, slot, slot, BitVec.add_assoc]
    rfl
  rw [split, BitVec.add_sub_cancel]

theorem divRoundup_pageAddress {count : Nat} (countLe : count ≤ 2 ^ 40) :
    (divRoundup (pageAddress count) 4096#64).toNat = count := by
  have value : (pageAddress count).toNat = count * pageSize := pageAddress_toNat (by omega)
  rw [pageSize] at value
  rw [divRoundup, BitVec.toNat_udiv, BitVec.toNat_add, value]
  change (count * 4096 + 4095) % 2 ^ 64 / 4096 = count
  omega

theorem pmmFree_pages {pmm : Pmm} {start count : Nat} (valid : (heapSpec hhdm top).Valid pmm)
    (positive : 1 ≤ count) (startPos : 1 ≤ start) (fits : start + count ≤ top)
    (used : ∀ page ∈ Set.Ico start (start + count), page ∉ pmm.freeSet) :
    ∃ after, pmmFree pmm (pageAddress start) count = .ok after ∧
      (heapSpec hhdm top).Valid after ∧
      ∀ page, page ∈ after.freeSet ↔
        page ∈ pmm.freeSet ∨ page ∈ Set.Ico start (start + count) := by
  obtain ⟨covered, topEq⟩ := valid
  have marked : ∀ page, start ≤ page → page < start + count → ¬ pmm.Free page := by
    intro page pageGe pageLt free
    exact used page ⟨pageGe, pageLt⟩ (Pmm.mem_freeSet.mpr ⟨by omega, free⟩)
  obtain ⟨after, freed, afterTop, afterPrev, freeIff⟩ := pmmFree_ok positive (by omega) marked
  refine ⟨after, freed, ⟨⟨⟨?_, ?_⟩, ?_, ?_⟩, by rw [afterTop, topEq]⟩, ?_⟩
  · rw [freeIff]
    rintro (free | inPages)
    · exact covered.valid.zeroUsed free
    · omega
  · rw [afterTop, afterPrev]
    exact covered.valid.prev_le
  · rw [afterTop]
    exact covered.top_le
  · rw [afterTop]
    exact covered.reach
  · intro page
    rw [Pmm.mem_freeSet, Pmm.mem_freeSet, afterTop, freeIff, Set.mem_Ico]
    constructor
    · rintro ⟨below, free | inPages⟩
      · exact .inl ⟨below, free⟩
      · exact .inr inPages
    · rintro (⟨below, free⟩ | inPages)
      · exact ⟨below, .inl free⟩
      · exact ⟨by omega, .inr inPages⟩

theorem Tables.released {frames : Pmm} {ram : Memory}
    (tables : Tables (heapSpec hhdm top) height state) (blank : ∀ page ∈ given, height page = none)
    (valid : (heapSpec hhdm top).Valid frames)
    (freeIff : ∀ page, page ∈ frames.freeSet ↔ page ∈ state.frames.freeSet ∨ page ∈ given)
    (same : ∀ {page}, page ∉ given → SamePage state.ram ram page) :
    Released hhdm top given height state ⟨frames, ram⟩ := by
  have outside : ∀ {page h}, height page = some h → page ∉ given := by
    intro page h heightEq inside
    rw [blank page inside] at heightEq
    cases heightEq
  refine ⟨⟨valid, ?_, ?_, tables.direct⟩, freeIff, fun _ notGiven => same notGiven⟩
  · exact tables.forest.congr fun page h index heightEq =>
      (same (outside heightEq)).tableStore_eq index
  · intro page h heightEq free
    rcases (freeIff page).mp free with wasFree | inside
    · exact tables.used heightEq wasFree
    · exact outside heightEq inside

/-- Freeing the block of an arena gives all its pages back and unmaps them from
the direct map. -/
theorem kFree_spec (ready : KernelReady (heapSpec hhdm top) kernel height state)
    (arenaAt : ArenaAt hhdm top height state arena) (apart : kernel.vmmPage ∉ arena.pages) :
    ∃ after, kFree hhdm state (kernel.vmm hhdm) (arena.ptr hhdm) = .ok after ∧
      Released hhdm top arena.pages height state after ∧
      ∀ page ∈ arena.pages, ¬ Present (leafPte after.ram kernel.root (directPtr hhdm page)) := by
  obtain ⟨covered, topEq⟩ := ready.tables.valid
  have topLe := covered.top_le
  have fits := arenaAt.fits
  have positive := arenaAt.positive
  have startLt : arena.start < 2 ^ 40 := by omega
  have inside := Arena.start_mem positive
  obtain ⟨frames, freed, validFrames, freeIff⟩ := pmmFree_pages ready.tables.valid
    positive arenaAt.start_pos fits arenaAt.used
  -- only the count of blocks changes before the pages are unmapped
  obtain ⟨counted, countedEq⟩ :
      ∃ counted, state.store hhdm (slot (arena.header hhdm) 4) 0#64 = counted := ⟨_, rfl⟩
  have countedFrames : counted.frames = state.frames := by
    rw [← countedEq, MmState.store_frames]
  have word : ∀ {i}, i < 512 → counted.load hhdm (slot (arena.header hhdm) i) =
      if i = 4 then 0#64 else state.load hhdm (slot (arena.header hhdm) i) := by
    intro i iLt
    rw [← countedEq]
    exact load_store_word state startLt (by decide) iLt 0#64
  have sizeEq : counted.load hhdm (arenaSize (arena.header hhdm)) = pageAddress arena.count :=
    (word (by decide)).trans arenaAt.size_eq
  have baseEq : counted.load hhdm (arenaBase (arena.header hhdm)) = arena.header hhdm :=
    (word (by decide)).trans arenaAt.base_eq
  have isLast : counted.load hhdm (arenaAllocated (arena.header hhdm)) = 0#64 :=
    word (by decide)
  have countedSame : ∀ {page}, page ∉ arena.pages → SamePage state.ram counted.ram page := by
    intro page outside
    rw [← countedEq]
    refine (SamePage.refl state.ram page).store_word ?_ startLt (by decide) 0#64
    rintro rfl
    exact outside inside
  have freedReleased : Released hhdm top arena.pages height state ⟨frames, counted.ram⟩ :=
    ready.tables.released arenaAt.blank validFrames freeIff countedSame
  obtain ⟨after, unmapped, framesEq, same, tables, -, absent⟩ :=
    @unmapArena_spec hhdm top height ⟨frames, counted.ram⟩ kernel arena.start 0 arena.count
      freedReleased.tables (ready.space_at.released freedReleased apart) (arenaAt.blank _ inside)
      (by omega) (by rw [Nat.zero_add]; exact sizeEq)
  refine ⟨after, ?_, ⟨tables, ?_, ?_⟩, ?_⟩
  · have decremented : (1#64 : Word) - 1#64 = 0#64 := rfl
    have base : arena.header hhdm - hhdm = pageAddress arena.start := by
      rw [Arena.header, directPtr, BitVec.add_sub_cancel]
    rw [kFree, Arena.ptr_sub_metadata, arenaAt.metadata_eq, arenaAt.allocated_eq, decremented,
      arenaAllocated, countedEq, ← arenaAllocated, if_pos (by rw [isLast]; exact BitVec.le_refl _),
      countedFrames, baseEq, base, sizeEq, divRoundup_pageAddress (by omega), freed, ok_bind]
    exact unmapped
  · intro page
    rw [framesEq]
    exact freeIff page
  · intro page notLeaf outside
    exact (countedSame outside).trans (same notLeaf)
  · intro page inPages
    rw [Nat.zero_add] at absent
    exact absent page inPages.1 inPages.2

end Blocks

end MmdOS
