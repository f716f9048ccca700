import MmdOS.ByteMemory
import MmdOS.PageTableEntry

/-!
# The virtual memory manager

This file embeds the page-table code of `vmm.c`.  All kernel data lives in
physical memory and is reached through the direct map: a pointer `p` refers to
the physical byte `p - hhdm`.  Page-table code only asks the physical
allocator for single pages, so it is written over an arbitrary
`pmm_alloc_nozero(1)`; `pmm.c` provides one.

The address space lock is left out: every function below releases the lock it
takes before it returns, and no two of them are in progress at once.

Function names follow the source: `walkPte` is `walk_pte`, `vmmMapPage` is
`vmm_map_page`, and so on.
-/

namespace MmdOS

open ByteMemory

/-- A `pmm_alloc_nozero(1)` over allocator states of type `σ`. -/
abbrev FrameSource (σ : Type) := σ → Except Panic (Word × σ)

structure MmState (σ : Type) where
  frames : σ
  ram : Memory

section Access

variable {σ : Type} (hhdm : Word)

def MmState.load (state : MmState σ) (pointer : Word) : Word :=
  readWord state.ram (pointer - hhdm).toNat

def MmState.store (state : MmState σ) (pointer value : Word) : MmState σ :=
  { state with ram := writeWord state.ram (pointer - hhdm).toNat value }

@[simp]
theorem MmState.store_frames (state : MmState σ) (pointer value : Word) :
    (state.store hhdm pointer value).frames = state.frames :=
  rfl

def memset (ram : Memory) (ptr : Word) (value : BitVec 8) : Nat → Memory
  | 0 => ram
  | size + 1 =>
      memset (Function.update ram (ptr - hhdm).toNat value) (ptr + 1#64) value size

/-- `pmm_alloc`, over the given `pmm_alloc_nozero` -/
def pmmAlloc (allocNozero : FrameSource σ) (nPages : Nat)
    (state : MmState σ) : Except Panic (Word × MmState σ) := do
  let (allocated, frames) ← allocNozero state.frames
  if allocated ≠ 0#64 then
    .ok (allocated,
      { frames, ram := memset hhdm state.ram (allocated + hhdm) 0#8
          (nPages * pageSize % 2 ^ 64) })
  else
    .ok (allocated, { state with frames })

end Access

section PageTables

variable {σ : Type} (hhdm : Word) (source : FrameSource σ)

def walkPte (state : MmState σ) (pte offset : Word) (alloc : Bool) :
    Except Panic (Word × MmState σ) :=
  let entry := state.load hhdm (pte + 8#64 * offset)
  if Present entry then .ok (pteGetAddr entry + hhdm, state)
  else if alloc = false then .ok (0#64, state)
  else do
    let (nextLvl, state) ← pmmAlloc hhdm source 1 state
    .ok (nextLvl + hhdm,
      state.store hhdm (pte + 8#64 * offset) (nextLvl ||| ptePresent ||| pteWritable))

/-- The field `pml` of a `vmm_t`, behind the four-byte lock and its padding. -/
def pmlField (vmm : Word) : Word := vmm + 8#64

def arenaField (vmm : Word) : Word := vmm + 16#64

/-- The three `walk_pte` calls that every page-table function starts with.
The result is `lvl1`, or a null pointer as soon as one level is missing. -/
def walkTables (state : MmState σ) (vmm virt : Word) (alloc : Bool) :
    Except Panic (Word × MmState σ) := do
  let lvl4 := state.load hhdm (pmlField vmm)
  let (lvl3, state) ← walkPte hhdm source state lvl4 (lvl4Offset virt) alloc
  if lvl3 = 0#64 then .ok (0#64, state)
  else
    let (lvl2, state) ← walkPte hhdm source state lvl3 (lvl3Offset virt) alloc
    if lvl2 = 0#64 then .ok (0#64, state)
    else walkPte hhdm source state lvl2 (lvl2Offset virt) alloc

def vmmMapPage (state : MmState σ) (vmm virt physical flags : Word) :
    Except Panic (Bool × MmState σ) := do
  let (lvl1, state) ← walkTables hhdm source state vmm virt true
  if lvl1 = 0#64 then .ok (false, state)
  else
    let slot := lvl1 + 8#64 * lvl1Offset virt
    if Present (state.load hhdm slot) then .ok (true, state)
    else .ok (true, state.store hhdm slot (physical ||| flags))

def vmmUnmapPage (state : MmState σ) (vmm virt : Word) :
    Except Panic (Bool × MmState σ) := do
  let (lvl1, state) ← walkTables hhdm source state vmm virt false
  if lvl1 = 0#64 then .ok (false, state)
  else
    let slot := lvl1 + 8#64 * lvl1Offset virt
    if Present (state.load hhdm slot) then .ok (true, state.store hhdm slot 0#64)
    else .ok (false, state)

def vmmChangeFlag (state : MmState σ) (vmm virt flags : Word) :
    Except Panic (Bool × MmState σ) := do
  let (lvl1, state) ← walkTables hhdm source state vmm virt true
  if lvl1 = 0#64 then .ok (false, state)
  else
    let slot := lvl1 + 8#64 * lvl1Offset virt
    if Present (state.load hhdm slot) then
      .ok (true, state.store hhdm slot (pteGetAddr (state.load hhdm slot) ||| flags))
    else .ok (false, state)

/-- `vmm_virt2pte`; the walk allocates whatever the caller asks for. -/
def vmmVirt2pte (state : MmState σ) (vmm virt : Word) (_alloc : Bool) :
    Except Panic (Word × MmState σ) := do
  let (lvl1, state) ← walkTables hhdm source state vmm virt true
  if lvl1 = 0#64 then .ok (0#64, state)
  else .ok (lvl1 + 8#64 * lvl1Offset virt, state)

def vmmVirt2phys (state : MmState σ) (vmm virt : Word) (alloc : Bool) :
    Except Panic (Word × MmState σ) := do
  let (pte, state) ← vmmVirt2pte hhdm source state vmm virt alloc
  if pte = 0#64 then .ok (0#64, state)
  else .ok (pteGetAddr (state.load hhdm pte), state)

/-- The copy loop of `vmm_new`, for the top-level entries from `index` on. -/
def copyEntries (state : MmState σ) (newVmm vmmKernel : Word) (index : Nat) :
    Nat → MmState σ
  | 0 => state
  | count + 1 =>
      let origin := state.load hhdm (pmlField vmmKernel) + 8#64 * BitVec.ofNat 64 index
      let target := state.load hhdm (pmlField newVmm) + 8#64 * BitVec.ofNat 64 index
      copyEntries (state.store hhdm target (state.load hhdm origin))
        newVmm vmmKernel (index + 1) count

/-- The statements that `vmm_new` and `vmm_init` begin with: a `vmm_t` and its
top-level table, both reached through the direct map. -/
def vmmAlloc (state : MmState σ) : Except Panic (Word × MmState σ) := do
  let (frame, state) ← pmmAlloc hhdm source 1 state
  let newVmm := frame + hhdm
  let state := state.store hhdm (arenaField newVmm) 0#64
  let (table, state) ← pmmAlloc hhdm source 1 state
  let state := state.store hhdm (pmlField newVmm) table
  let state := state.store hhdm (pmlField newVmm)
    (state.load hhdm (pmlField newVmm) + hhdm)
  .ok (newVmm, state)

/-- `vmm_new`.  Both calls of `vmm_map_page` are made with pointers that have
already been moved into the direct map. -/
def vmmNew (state : MmState σ) (vmmKernel : Word) : Except Panic (Word × MmState σ) := do
  let (newVmm, state) ← vmmAlloc hhdm source state
  let (_, state) ← vmmMapPage hhdm source state vmmKernel (newVmm + hhdm) newVmm
    (ptePresent ||| pteWritable)
  let pml := state.load hhdm (pmlField newVmm)
  let (_, state) ← vmmMapPage hhdm source state vmmKernel (pml + hhdm) pml
    (ptePresent ||| pteWritable)
  .ok (newVmm, copyEntries hhdm state newVmm vmmKernel 0 512)

end PageTables

section Pages

variable {σ : Type} {hhdm : Word}
variable {page : Nat} {offset : Word} {second : Memory}

def directPtr (hhdm : Word) (page : Nat) : Word :=
  pageAddress page + hhdm

def tableStore (ram : Memory) (page : Nat) (index : Fin 512) : Word :=
  readWord ram (page * pageSize + 8 * index.val)

theorem directPtr_sub {offset : Nat} (pageLt : page < 2 ^ 40) (offsetLt : offset < pageSize) :
    (directPtr hhdm page + BitVec.ofNat 64 offset - hhdm).toNat =
      page * pageSize + offset := by
  have cancel : directPtr hhdm page + BitVec.ofNat 64 offset - hhdm =
      pageAddress page + BitVec.ofNat 64 offset := by
    rw [directPtr]
    bv_omega
  have pageEq : (pageAddress page).toNat = page * pageSize :=
    pageAddress_toNat (by omega)
  rw [pageSize] at *
  rw [cancel, BitVec.toNat_add, pageEq, BitVec.toNat_ofNat]
  omega

theorem directPtr_add_toNat {page offset : Nat}
    (reach : (page + 1) * pageSize + hhdm.toNat ≤ 2 ^ 64) (offsetLt : offset < pageSize) :
    (directPtr hhdm page + BitVec.ofNat 64 offset).toNat =
      page * pageSize + hhdm.toNat + offset := by
  rw [pageSize] at *
  have pageEq : (pageAddress page).toNat = page * pageSize :=
    pageAddress_toNat (by omega)
  rw [directPtr, BitVec.toNat_add, BitVec.toNat_add, pageEq, BitVec.toNat_ofNat, pageSize]
  omega

theorem directPtr_toNat (reach : (page + 1) * pageSize + hhdm.toNat ≤ 2 ^ 64) :
    (directPtr hhdm page).toNat = page * pageSize + hhdm.toNat := by
  have atStart := @directPtr_add_toNat hhdm page 0 reach (by decide)
  rwa [BitVec.add_zero, Nat.add_zero] at atStart

theorem directPtr_ne_zero (positive : 1 ≤ page)
    (reach : (page + 1) * pageSize + hhdm.toNat ≤ 2 ^ 64) : directPtr hhdm page ≠ 0#64 := by
  intro isZero
  have value := directPtr_toNat reach
  rw [isZero, pageSize] at value
  simp only [BitVec.toNat_ofNat] at value
  omega

theorem directPtr_slot (page : Nat) (offsetLt : offset.toNat < 512) :
    directPtr hhdm page + 8#64 * offset =
      directPtr hhdm page + BitVec.ofNat 64 (8 * (tableIndex offset).val) := by
  rw [tableIndex_val offsetLt]
  congr 1

theorem load_slot (state : MmState σ) (pageLt : page < 2 ^ 40) (offsetLt : offset.toNat < 512) :
    state.load hhdm (directPtr hhdm page + 8#64 * offset) =
      tableStore state.ram page (tableIndex offset) := by
  have inside : 8 * (tableIndex offset).val < pageSize := by
    rw [tableIndex_val offsetLt, pageSize]
    omega
  rw [MmState.load, directPtr_slot page offsetLt, directPtr_sub pageLt inside, tableStore]

theorem directPtr_slot_ne_zero (positive : 1 ≤ page)
    (reach : (page + 1) * pageSize + hhdm.toNat ≤ 2 ^ 64) (offsetLt : offset.toNat < 512) :
    directPtr hhdm page + 8#64 * offset ≠ 0#64 := by
  intro isZero
  rw [directPtr_slot page offsetLt] at isZero
  have value := @directPtr_add_toNat hhdm page (8 * (tableIndex offset).val) reach
    (by rw [tableIndex_val offsetLt, pageSize]; omega)
  rw [isZero, pageSize] at value
  simp only [BitVec.toNat_ofNat] at value
  omega

theorem tableStore_writeWord (ram : Memory) (page : Nat) (index : Fin 512) (value : Word) :
    tableStore (writeWord ram (page * pageSize + 8 * index.val) value) =
      Radix.setEntry (tableStore ram) page index value := by
  funext other position
  have indexLt := index.isLt
  have positionLt := position.isLt
  by_cases same : other = page ∧ position = index
  · obtain ⟨rfl, rfl⟩ := same
    rw [Radix.setEntry_self, tableStore, readWord_writeWord_self]
  · rw [Radix.setEntry_of_ne same, tableStore, tableStore]
    apply readWord_writeWord_of_disjoint
    rw [Fin.ext_iff] at same
    rw [pageSize]
    omega

theorem tableStore_store_slot (state : MmState σ) (pageLt : page < 2 ^ 40)
    (offsetLt : offset.toNat < 512) (value : Word) :
    tableStore (state.store hhdm (directPtr hhdm page + 8#64 * offset) value).ram =
      Radix.setEntry (tableStore state.ram) page (tableIndex offset) value := by
  have inside : 8 * (tableIndex offset).val < pageSize := by
    rw [tableIndex_val offsetLt, pageSize]
    omega
  rw [MmState.store, directPtr_slot page offsetLt, directPtr_sub pageLt inside]
  exact tableStore_writeWord state.ram page (tableIndex offset) value

def SamePage (first second : Memory) (page : Nat) : Prop :=
  ∀ position, position / pageSize = page → second position = first position

theorem SamePage.refl (ram : Memory) (page : Nat) : SamePage ram ram page :=
  fun _ _ => rfl

theorem SamePage.trans {first third : Memory} (firstSame : SamePage first second page)
    (secondSame : SamePage second third page) :
    SamePage first third page :=
  fun position inPage =>
    (secondSame position inPage).trans (firstSame position inPage)

theorem SamePage.readWord_eq {first : Memory} {offset : Nat} (same : SamePage first second page)
    (inside : offset + 8 ≤ pageSize) :
    readWord second (page * pageSize + offset) = readWord first (page * pageSize + offset) := by
  apply readWord_congr
  intro position positionGe positionLt
  refine same position ?_
  rw [pageSize] at *
  omega

theorem SamePage.tableStore_eq {first : Memory} (same : SamePage first second page)
    (index : Fin 512) :
    tableStore second page index = tableStore first page index := by
  apply same.readWord_eq
  have := index.isLt
  rw [pageSize]
  omega

/-- A store into one page leaves every other page alone. -/
theorem samePage_store (state : MmState σ) {other offset : Nat} (pageLt : page < 2 ^ 40)
    (inside : offset + 8 ≤ pageSize) (different : other ≠ page) (value : Word) :
    SamePage state.ram
      (state.store hhdm (directPtr hhdm page + BitVec.ofNat 64 offset) value).ram other := by
  intro position inPage
  rw [MmState.store, directPtr_sub pageLt (by rw [pageSize] at *; omega)]
  apply writeWord_of_outside
  rw [pageSize] at *
  omega

theorem samePage_store_slot (state : MmState σ) {other : Nat} (pageLt : page < 2 ^ 40)
    (offsetLt : offset.toNat < 512) (different : other ≠ page) (value : Word) :
    SamePage state.ram
      (state.store hhdm (directPtr hhdm page + 8#64 * offset) value).ram other := by
  rw [directPtr_slot page offsetLt]
  apply samePage_store state pageLt _ different
  rw [tableIndex_val offsetLt, pageSize]
  omega

theorem memset_eq_fill (ram : Memory) (ptr : Word) (value : BitVec 8) (size : Nat)
    (fits : (ptr - hhdm).toNat + size ≤ 2 ^ 64) :
    memset hhdm ram ptr value size = fill ram (ptr - hhdm).toNat size value := by
  induction size generalizing ram ptr with
  | zero =>
      funext position
      rw [memset, fill_of_outside (by omega)]
  | succ size ih =>
      by_cases last : size = 0
      · subst last
        funext position
        rw [memset, memset, fill, Function.update_apply]
        congr 1
        rw [eq_iff_iff]
        omega
      · have nextPtr : (ptr + 1#64 - hhdm).toNat = (ptr - hhdm).toNat + 1 := by
          bv_omega
        rw [memset, ih _ _ (by omega), nextPtr]
        funext position
        by_cases first : position = (ptr - hhdm).toNat
        · rw [fill_of_outside (by omega), fill, if_pos (by omega), first,
            Function.update_self]
        · rw [fill, fill, Function.update_of_ne first]
          congr 1
          rw [eq_iff_iff]
          omega

end Pages

end MmdOS
