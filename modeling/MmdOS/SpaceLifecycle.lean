import MmdOS.HeapRuns
import MmdOS.KernelMap
import MmdOS.Outcome

/-!
# Creating and destroying address spaces

`vmm_new` hands pointers that already lie in the direct map to `vmm_map_page`,
once as the address to map and once as the frame.  `vmm_destroy` follows the
address bits of the entries as if they were pointers, does not count levels, and
frees every table below the top twice.
-/

namespace MmdOS

open ByteMemory

variable {page : Nat} {space : Space} {state : MmState Pmm}
variable {value hhdm : Word} {final : MmState Pmm} {height : Nat → Option Nat}

/-- Every leaf that is present only afterwards points to one of two frames. -/
def AddsOnly (root : Nat) (frame table : Word) (before after : Memory) : Prop :=
  ∀ virt, ¬ Present (leafPte before root virt) → Present (leafPte after root virt) →
    pteGetAddr (leafPte after root virt) = frame ∨ pteGetAddr (leafPte after root virt) = table

section NewLeaves

variable {σ : Type} {hhdm : Word} {source : FrameSource σ} {spec : FrameSpec hhdm source}
variable {height : Nat → Option Nat} {state : MmState σ} {kernel : Space}

section

variable (higher : 0xffff800000000000 ≤ hhdm.toNat) (direct : DirectMapped hhdm page)
include higher direct

/-- The entry for a pointer into the direct map has the direct map's offset in
its address bits. -/
theorem pteGetAddr_directPtr :
    2 ^ 51 ≤ (pteGetAddr (directPtr hhdm page ||| (ptePresent ||| pteWritable))).toNat := by
  have flagless : pteGetAddr (directPtr hhdm page ||| (ptePresent ||| pteWritable)) =
      pteGetAddr (directPtr hhdm page) := by
    have noFlags : pteAddr &&& (ptePresent ||| pteWritable) = 0#64 := by decide
    rw [pteGetAddr, pteGetAddr, BitVec.and_comm, BitVec.and_or_distrib_left, noFlags,
      BitVec.or_zero, BitVec.and_comm]
  obtain ⟨-, -, reach⟩ := direct
  rw [flagless, pteGetAddr_toNat, directPtr_toNat reach]
  rw [pageSize] at reach ⊢
  omega

/-- A frame that the direct map reaches lies far below that. -/
theorem pageAddress_lt_of_higher : (pageAddress page).toNat < 2 ^ 51 := by
  obtain ⟨-, pageLt, reach⟩ := direct
  rw [pageAddress_toNat (by omega)]
  rw [pageSize] at reach ⊢
  omega

theorem directPtr_entry_ne {other : Nat} (otherDirect : DirectMapped hhdm other) :
    pteGetAddr (directPtr hhdm page ||| (ptePresent ||| pteWritable)) ≠ pageAddress other := by
  intro equal
  have large := pteGetAddr_directPtr higher direct
  rw [equal] at large
  have small := pageAddress_lt_of_higher higher otherDirect
  omega

end

theorem pageKey_ne_of_absent {ram : Memory} {root : Nat} {virt virt' : Word}
    (absent : ¬ Present (leafPte ram root virt)) (present : Present (leafPte ram root virt')) :
    pageKey virt ≠ pageKey virt' := by
  intro keyEq
  rw [leafPte_congr keyEq rfl] at absent
  exact absent present

/-- When one of the two pages of the new address space is newly mapped, its
leaf is wrong. -/
theorem MapsPages.addsOnly_iff {after : MmState σ}
    (maps : MapsPages hhdm source kernel space state after)
    (higher : 0xffff800000000000 ≤ hhdm.toNat) (vmmDirect : DirectMapped hhdm space.vmmPage)
    (rootDirect : DirectMapped hhdm space.root) :
    AddsOnly kernel.root (pageAddress space.vmmPage) (pageAddress space.root) state.ram after.ram ↔
      Present (leafPte state.ram kernel.root (directPtr hhdm space.vmmPage + hhdm)) ∧
      Present (leafPte state.ram kernel.root (directPtr hhdm space.root + hhdm)) := by
  have wrong : ∀ {page virt}, DirectMapped hhdm page →
      AddsOnly kernel.root (pageAddress space.vmmPage) (pageAddress space.root)
        state.ram after.ram →
      leafPte after.ram kernel.root virt = directPtr hhdm page ||| (ptePresent ||| pteWritable) →
      Present (leafPte state.ram kernel.root virt) := by
    intro page virt direct adds entry
    by_contra absent
    have outcome := adds virt absent (by rw [entry]; exact present_writable _)
    rw [entry] at outcome
    rcases outcome with isVmm | isRoot
    · exact directPtr_entry_ne higher direct vmmDirect isVmm
    · exact directPtr_entry_ne higher direct rootDirect isRoot
  constructor
  · intro adds
    have vmmPresent :
        Present (leafPte state.ram kernel.root (directPtr hhdm space.vmmPage + hhdm)) := by
      by_contra absent
      refine absent (wrong vmmDirect adds ?_)
      rw [maps.leafPte_eq, if_neg absent, if_pos rfl]
    refine ⟨vmmPresent, ?_⟩
    by_contra absent
    have keyNe := pageKey_ne_of_absent absent vmmPresent
    refine absent (wrong rootDirect adds ?_)
    rw [maps.leafPte_eq, if_neg absent, if_neg keyNe, if_pos rfl]
  · rintro ⟨vmmPresent, rootPresent⟩ virt absent isPresent
    have vmmKey := pageKey_ne_of_absent absent vmmPresent
    have rootKey := pageKey_ne_of_absent absent rootPresent
    rw [maps.leafPte_eq, if_neg absent, if_neg vmmKey, if_neg rootKey] at isPresent
    exact absurd isPresent absent

/-- With the direct map in the higher half, the leaves that `vmm_new` adds to
`vmm_kernel` point to the new frames exactly when it adds none: when something
is mapped at both addresses before the call. -/
theorem vmm_new_leaves_iff (tables : Tables spec height state)
    (kernelAt : SpaceAt spec height state kernel) (higher : 0xffff800000000000 ≤ hhdm.toNat)
    {frame table newVmm : Word} {frames frames' : σ} {after : MmState σ}
    (frameTaken : source state.frames = .ok (frame, frames))
    (tableTaken : source frames = .ok (table, frames'))
    (returned : vmmNew hhdm source state (kernel.vmm hhdm) = .ok (newVmm, after)) :
    AddsOnly kernel.root frame table state.ram after.ram ↔
      Present (leafPte state.ram kernel.root (frame + hhdm + hhdm)) ∧
      Present (leafPte state.ram kernel.root (table + hhdm + hhdm)) := by
  obtain ⟨space, height', -, opened, maps⟩ := vmmNew_returned tables kernelAt returned
  obtain ⟨frames₁, frames₂, vmmFrame, rootFrame⟩ := maps.frames
  rw [frameTaken] at vmmFrame
  cases vmmFrame
  rw [tableTaken, Except.ok.injEq, Prod.mk.injEq] at rootFrame
  obtain ⟨rfl, -⟩ := rootFrame
  have rootDirect := opened.tables.direct opened.space_at.root_height
  exact maps.addsOnly_iff higher opened.space_at.direct rootDirect

end NewLeaves

theorem machine_new_space {hhdm : Word} (aligned : hhdm.toNat % 2 ^ 21 = 0)
    (reach : hhdm.toNat + 2 ^ 32 ≤ 2 ^ 64) :
    ∃ pmm kernel height world space after,
      vmmInit hhdm pmmSource machineLayout ⟨pmm, fun _ => 0#8⟩ = .ok world ∧
      KernelReady (pmmSpec hhdm) kernel height world.mm ∧
      (∀ virt, leafPte world.mm.ram kernel.root virt =
        (flatRun (fun _ => 0#64)
          ((machineLayout.requests hhdm).map MapRequest.op)).2 (pageKey virt)) ∧
      vmmNew hhdm pmmSource world.mm (kernel.vmm hhdm) = .ok (Space.vmm hhdm space, after) ∧
      MapsPages hhdm pmmSource kernel space world.mm after ∧
      (1 ≤ space.vmmPage ∧ space.vmmPage < 32768) ∧ (1 ≤ space.root ∧ space.root < 32768) := by
  obtain ⟨pmm, -, topEq, covered, enough⟩ := machine_frames
  have cost : machineLayout.bootFrames hhdm ≤ 12555 := machineLayout.bootFrames_le aligned reach
  have valid : (pmmSpec hhdm).Valid (MmState.mk pmm fun _ => 0#8).frames :=
    ⟨covered.valid, covered.top_le, by rw [topEq, pageSize]; omega⟩
  have pageBound : ∀ page ∈ pmm.freeSet, 1 ≤ page ∧ page < 32768 := by
    intro page free
    rw [← topEq]
    exact ⟨((pmmSpec hhdm).free_direct valid free).1, (Pmm.mem_freeSet.mp free).1⟩
  change 32511 ≤ pmm.freeSet.card at enough
  rcases vmmInit_spec valid machineLayout with ⟨reason, -, short, -⟩ |
    ⟨kernel, height, world, returned, -, -, ready, ext, flat, -, -, supplyLe⟩
  · change pmm.freeSet.card < _ at short
    omega
  change pmm.freeSet.card ≤ world.mm.frames.freeSet.card + _ at supplyLe
  rcases vmmNew_spec ready.tables ready.space_at with ⟨reason, -, short, -⟩ |
    ⟨space, height', after, created, opened, -, maps⟩
  · change world.mm.frames.freeSet.card ≤ 7 at short
    omega
  have free : ∀ page ∈ ({space.vmmPage, space.root} : Set Nat), page ∈ pmm.freeSet :=
    fun page member => ((ext.free_iff page).mp (opened.taken_free member)).1
  exact ⟨pmm, kernel, height, world, space, after, returned, ready, flat, created, maps,
    pageBound _ (free _ (Set.mem_insert _ _)),
    pageBound _ (free _ (Set.mem_insert_of_mem _ (Set.mem_singleton _)))⟩

/-- With the direct map at the start of the higher half, twice its offset wraps
to the identity map, where low frames are mapped already. -/
theorem vmm_new_leaves_iff_machine : ∃ pmm world kernel frame table newVmm after,
    vmmInit machineHhdm pmmSource machineLayout ⟨pmm, fun _ => 0#8⟩ = .ok world ∧
    vmmNew machineHhdm pmmSource world.mm (Space.vmm machineHhdm kernel) = .ok (newVmm, after) ∧
    AddsOnly kernel.root frame table world.mm.ram after.ram := by
  obtain ⟨pmm, kernel, height, world, space, after, booted, ready, flat, created, maps, vmmBound,
    rootBound⟩ := @machine_new_space machineHhdm (by decide) (by decide)
  obtain ⟨frames, frames', vmmFrame, rootFrame⟩ := maps.frames
  have present : ∀ {page}, 1 ≤ page ∧ page < 32768 →
      Present (leafPte world.mm.ram kernel.root
        (pageAddress page + machineHhdm + machineHhdm)) := by
    intro page bound
    have wraps : pageKey (pageAddress page + machineHhdm + machineHhdm) =
        pageKey (pageAddress page) := by
      have offset : machineHhdm + machineHhdm = BitVec.ofNat 64 0xffff000000000000 := by decide
      rw [BitVec.add_assoc, offset, pageKey_eq, pageKey_eq, BitVec.toNat_add,
        pageAddress_toNat (by omega), BitVec.toNat_ofNat, pageSize]
      omega
    rw [flat, wraps, machineLayout_separate.identity_entry bound.1 (by omega)]
    exact present_writable _
  have both := vmm_new_leaves_iff ready.tables ready.space_at (by decide) vmmFrame rootFrame created
  exact ⟨pmm, world, kernel, _, _, _, after, booted, created,
    both.mpr ⟨present vmmBound, present rootBound⟩⟩

/-- With the direct map elsewhere in the higher half, nothing is mapped at
twice its offset, and the first leaf that `vmm_new` adds is wrong. -/
theorem vmm_new_wrong_leaf : ∃ pmm world kernel frame table frames frames' newVmm after,
    vmmInit 0xffff888000000000#64 pmmSource machineLayout ⟨pmm, fun _ => 0#8⟩ = .ok world ∧
    pmmSource world.mm.frames = .ok (frame, frames) ∧
    pmmSource frames = .ok (table, frames') ∧
    vmmNew 0xffff888000000000#64 pmmSource world.mm (Space.vmm 0xffff888000000000#64 kernel) =
      .ok (newVmm, after) ∧
    ¬ AddsOnly kernel.root frame table world.mm.ram after.ram := by
  obtain ⟨pmm, kernel, height, world, space, after, booted, ready, flat, created, maps, vmmBound,
    rootBound⟩ := @machine_new_space 0xffff888000000000#64 (by decide) (by decide)
  obtain ⟨frames, frames', vmmFrame, rootFrame⟩ := maps.frames
  have absent : ¬ Present (leafPte world.mm.ram kernel.root
      (directPtr 0xffff888000000000#64 space.vmmPage + 0xffff888000000000#64)) := by
    have keyEq : pageKey (directPtr 0xffff888000000000#64 space.vmmPage + 0xffff888000000000#64) =
        0x110000000 + space.vmmPage := by
      have offset : (0xffff888000000000#64 : Word) + 0xffff888000000000#64 =
        BitVec.ofNat 64 0xffff110000000000 := by decide
      rw [directPtr, BitVec.add_assoc, offset, pageKey_eq, BitVec.toNat_add,
        pageAddress_toNat (by omega), BitVec.toNat_ofNat, pageSize]
      omega
    have sections : ∀ request ∈ machineLayout.textRequests ++ machineLayout.rodataRequests ++
        machineLayout.dataRequests, 0x110008000 ≤ pageKey request.virt := by decide
    have untouched : ∀ request ∈ machineLayout.requests 0xffff888000000000#64,
        pageKey request.virt ≠ 0x110000000 + space.vmmPage := by
      intro request asked
      rw [KernelLayout.requests, ← List.append_assoc, ← List.append_assoc] at asked
      rcases List.mem_append.mp asked with inSection | inLow
      · have bound := sections request inSection
        omega
      · obtain ⟨page, -, pageLt, rfl | rfl⟩ := mem_lowRequests.mp inLow
        · rw [identityRequest, pageKey_eq, pageAddress_toNat (by omega), pageSize]
          omega
        · rw [directRequest, pageKey_eq, directPtr_value (by decide) pageLt, pageSize]
          change (page * 4096 + 0xffff888000000000) / 2 ^ 12 % 2 ^ 36 ≠ _
          omega
    rw [flat, keyEq, flatRun_of_untouched _ untouched]
    decide
  have vmmDirect : DirectMapped 0xffff888000000000#64 space.vmmPage :=
    ⟨vmmBound.1, by omega, by rw [pageSize]; change _ * 4096 + 0xffff888000000000 ≤ _; omega⟩
  have rootDirect : DirectMapped 0xffff888000000000#64 space.root :=
    ⟨rootBound.1, by omega, by rw [pageSize]; change _ * 4096 + 0xffff888000000000 ≤ _; omega⟩
  refine ⟨pmm, world, kernel, _, _, frames, frames', _, after, booted, vmmFrame, rootFrame, created,
    fun adds => ?_⟩
  exact absent ((maps.addsOnly_iff (by decide) vmmDirect rootDirect).mp adds).1

/-- How the processor reads a word, where `none` is a page fault.  An address in
the direct map is read from the page behind it, unless it is not mapped; about
other addresses nothing is said. -/
structure Mmu (hhdm : Word) where
  read : MmState Pmm → Word → Option Word
  direct : ∀ {state : MmState Pmm} {page offset : Nat} {value : Word}, DirectMapped hhdm page →
    offset + 8 ≤ pageSize →
    read state (directPtr hhdm page + BitVec.ofNat 64 offset) = some value →
    value = state.load hhdm (directPtr hhdm page + BitVec.ofNat 64 offset)

section Destroy

variable (hhdm : Word) (mmu : Mmu hhdm)

def Mmu.load (state : MmState Pmm) (address : Word) : Outcome Trap Word :=
  match mmu.read state address with
  | none => throw (.pageFault address)
  | some value => pure value

def freePage (state : MmState Pmm) (addr : Word) : Outcome Trap (MmState Pmm) :=
  match pmmFree state.frames addr 1 with
  | .error reason => throw (.panic reason)
  | .ok frames => pure { state with frames }

/-- The loop of `destroy_lvl`, for `count` entries from `i` on.  `next` is the
recursive call. -/
def destroyEntries (next : MmState Pmm → Word → Outcome Trap (MmState Pmm)) (lvl : Word)
    (state : MmState Pmm) (i : Nat) : (count : Nat) → Outcome Trap (MmState Pmm)
  | 0 => pure state
  | count + 1 => do
      let entry ← mmu.load hhdm state (lvl + 8#64 * BitVec.ofNat 64 i)
      if Present entry then
        let nextLvl := pteGetAddr entry
        let state ← next state nextLvl
        let state ← freePage state (nextLvl - hhdm)
        destroyEntries next lvl state (i + 1) count
      else destroyEntries next lvl state (i + 1) count

/-- `destroy_lvl`.  The level is handed down and never looked at, so that the
recursion is bounded by fuel only. -/
def destroyLvl : (fuel : Nat) → MmState Pmm → (lvl lvlOffset : Word) → Outcome Trap (MmState Pmm)
  | 0, _, _, _ => liftM (none : Option (MmState Pmm))
  | fuel + 1, state, lvl, lvlOffset =>
      if lvl = 0#64 then pure state
      else do
        let state ← destroyEntries hhdm mmu
          (fun state nextLvl => destroyLvl fuel state nextLvl (lvlOffset - 1#64)) lvl state 0 512
        freePage state (lvl - hhdm)

def vmmDestroy (fuel : Nat) (state : MmState Pmm) (vmm : Word) : Outcome Trap (MmState Pmm) := do
  let pml ← mmu.load hhdm state (pmlField vmm)
  let state ← destroyLvl hhdm mmu fuel state pml 4#64
  let arena ← mmu.load hhdm state (arenaField vmm)
  let state ← freePage state (arena - hhdm)
  freePage state (vmm - hhdm)

/-- `vmm_destroy` returns, gives exactly the frames `own` back, and leaves every
translation of the kernel as it is. -/
def Undoes (vmmKernel vmm : Word) (own : Set Nat) (state : MmState Pmm) : Prop :=
  ∃ fuel after, (vmmDestroy hhdm mmu fuel state vmm).Yields after ∧
    (∀ page, page ∈ after.frames.freeSet ↔ page ∈ state.frames.freeSet ∨ page ∈ own) ∧
    ∀ virt, vmmPte hhdm after vmmKernel virt = vmmPte hhdm state vmmKernel virt

end Destroy

section DoubleFree

variable {hhdm : Word} {mmu : Mmu hhdm} {state after : MmState Pmm}
variable {addr lvl : Word}
variable {fuel i count : Nat} {next : MmState Pmm → Word → Outcome Trap (MmState Pmm)}

@[simp]
theorem Mmu.yields_load {address : Word} :
    (mmu.load hhdm state address).Yields value ↔ mmu.read state address = some value := by
  rw [Mmu.load]
  cases mmu.read state address with
  | none =>
      constructor
      · intro returned
        cases returned
      · intro isSome
        cases isSome
  | some word =>
      rw [Option.some.injEq]
      exact Outcome.yields_pure

theorem yields_freePage :
    (freePage state addr).Yields after ↔
      ∃ frames, pmmFree state.frames addr 1 = .ok frames ∧ { state with frames } = after := by
  rw [freePage]
  cases pmmFree state.frames addr 1 with
  | error reason =>
      constructor
      · intro returned
        cases returned
      · rintro ⟨frames, freed, -⟩
        cases freed
  | ok frames => simp

theorem pmmFree_one (pmm : Pmm) (addr : Word) :
    pmmFree pmm addr 1 =
      if bitmapGet pmm.bitmap (addr.toNat / pageSize) then
        .ok { pmm with bitmap := bitmapClear pmm.bitmap (addr.toNat / pageSize) }
      else .error .pageAlreadyFree := by
  have rounds : (addr.toNat / pageSize + 1) % 2 ^ 64 - addr.toNat / pageSize = 1 := by
    have addrLt := addr.isLt
    rw [pageSize]
    omega
  simp only [pmmFree, rounds, Nat.one_ne_zero, if_false, freePages]
  split <;> rfl

/-- A page that has just been freed cannot be freed again. -/
theorem freePage_twice (freedOnce : (freePage state addr).Yields after) :
    ¬ (freePage after addr).Yields final := by
  intro again
  obtain ⟨frames, freed, rfl⟩ := yields_freePage.mp freedOnce
  obtain ⟨frames', freedAgain, -⟩ := yields_freePage.mp again
  rw [pmmFree_one] at freed freedAgain
  split at freed
  case isFalse => cases freed
  case isTrue marked =>
    cases freed
    simp [bitmapGet_bitmapClear] at freedAgain

theorem freePage_ram (freed : (freePage state addr).Yields after) :
    after.ram = state.ram := by
  obtain ⟨frames, -, rfl⟩ := yields_freePage.mp freed
  rfl

theorem destroyLvl_frees {lvlOffset : Word} (lvlNe : lvl ≠ 0#64)
    (returned : (destroyLvl hhdm mmu fuel state lvl lvlOffset).Yields after) :
    ∃ before, (freePage before (lvl - hhdm)).Yields after := by
  cases fuel with
  | zero =>
      rw [destroyLvl, Outcome.yields_lift] at returned
      cases returned
  | succ fuel =>
      rw [destroyLvl, if_neg lvlNe, Outcome.yields_bind] at returned
      obtain ⟨before, -, freed⟩ := returned
      exact ⟨before, freed⟩

/-- The loop never gets past an entry that points somewhere: when the recursive
call comes back, the table is free already. -/
theorem destroyEntries_stuck
    (nextRam : ∀ {state lvl after}, (next state lvl).Yields after → after.ram = state.ram)
    (nextFrees : ∀ {state lvl after}, lvl ≠ 0#64 → (next state lvl).Yields after →
      ∃ before, (freePage before (lvl - hhdm)).Yields after) (direct : DirectMapped hhdm page)
    {index : Fin 512} (atLeast : i ≤ index.val) (below : index.val < i + count)
    (present : Present (tableStore state.ram page index))
    (points : pteGetAddr (tableStore state.ram page index) ≠ 0#64) :
    ¬ (destroyEntries hhdm mmu next (directPtr hhdm page) state i count).Yields after := by
  induction count generalizing state i with
  | zero => omega
  | succ count ih =>
      intro returned
      have indexLt := index.isLt
      rw [destroyEntries, Outcome.yields_bind] at returned
      obtain ⟨entry, isRead, returned⟩ := returned
      have offsetLt : (BitVec.ofNat 64 i).toNat < 512 := by
        rw [BitVec.toNat_ofNat]
        omega
      have inside : 8 * (tableIndex (BitVec.ofNat 64 i)).val + 8 ≤ pageSize := by
        rw [tableIndex_val offsetLt, pageSize]
        omega
      rw [Mmu.yields_load, directPtr_slot page offsetLt] at isRead
      have entryEq := mmu.direct direct inside isRead
      rw [← directPtr_slot page offsetLt, load_slot state direct.2.1 offsetLt] at entryEq
      by_cases here : i = index.val
      · have isIndex : tableIndex (BitVec.ofNat 64 i) = index := by
          apply Fin.ext
          rw [tableIndex_val offsetLt, BitVec.toNat_ofNat, here]
          omega
        rw [isIndex] at entryEq
        rw [entryEq, if_pos present, Outcome.yields_bind] at returned
        obtain ⟨destroyed, called, returned⟩ := returned
        obtain ⟨freed, freedTwice, -⟩ := Outcome.yields_bind.mp returned
        obtain ⟨before, freedOnce⟩ := nextFrees points called
        exact freePage_twice freedOnce freedTwice
      · split at returned
        · obtain ⟨destroyed, called, returned⟩ := Outcome.yields_bind.mp returned
          obtain ⟨freed, freedTwice, returned⟩ := Outcome.yields_bind.mp returned
          have sameRam : freed.ram = state.ram :=
            (freePage_ram freedTwice).trans (nextRam called)
          rw [← sameRam] at present points
          exact ih (by omega) (by omega) present points returned
        · exact ih (by omega) (by omega) present points returned

theorem destroyEntries_ram
    (nextRam : ∀ {state lvl after}, (next state lvl).Yields after → after.ram = state.ram)
    (returned : (destroyEntries hhdm mmu next lvl state i count).Yields after) :
    after.ram = state.ram := by
  induction count generalizing state i with
  | zero =>
      rw [destroyEntries, Outcome.yields_pure] at returned
      rw [returned]
  | succ count ih =>
      rw [destroyEntries, Outcome.yields_bind] at returned
      obtain ⟨entry, -, returned⟩ := returned
      split at returned
      · obtain ⟨destroyed, called, returned⟩ := Outcome.yields_bind.mp returned
        obtain ⟨freed, freedTwice, returned⟩ := Outcome.yields_bind.mp returned
        exact (ih returned).trans ((freePage_ram freedTwice).trans (nextRam called))
      · exact ih returned

theorem destroyLvl_ram {lvlOffset : Word}
    (returned : (destroyLvl hhdm mmu fuel state lvl lvlOffset).Yields after) :
    after.ram = state.ram := by
  induction fuel generalizing state after lvl lvlOffset with
  | zero =>
      rw [destroyLvl, Outcome.yields_lift] at returned
      cases returned
  | succ fuel ih =>
      rw [destroyLvl] at returned
      split at returned
      · rw [Outcome.yields_pure] at returned
        rw [returned]
      · obtain ⟨before, destroyed, freed⟩ := Outcome.yields_bind.mp returned
        exact (freePage_ram freed).trans (destroyEntries_ram (fun called => ih called) destroyed)

/-- `vmm_destroy` of an address space whose top-level table is not empty does
not return. -/
theorem vmmDestroy_stuck {spec : FrameSpec hhdm pmmSource} (tables : Tables spec height state)
    (spaceAt : SpaceAt spec height state space) {index : Fin 512}
    (present : Present (tableStore state.ram space.root index)) (fuel : Nat) :
    ¬ (vmmDestroy hhdm mmu fuel state (space.vmm hhdm)).Yields after := by
  intro returned
  have rootDirect := tables.direct spaceAt.root_height
  obtain ⟨next, pointsTo⟩ : ∃ next, entryTable (tableStore state.ram space.root index) =
      some next := ⟨_, if_pos present⟩
  obtain ⟨-, addrEq, nextLt⟩ := entryTable_eq_some pointsTo
  have nextDirect := tables.direct (tables.forest.closed spaceAt.root_height pointsTo)
  have points : pteGetAddr (tableStore state.ram space.root index) ≠ 0#64 := by
    rw [addrEq]
    exact pageAddress_ne_zero (by omega) nextDirect.1
  rw [vmmDestroy, Outcome.yields_bind] at returned
  obtain ⟨pml, isRead, returned⟩ := returned
  obtain ⟨destroyed, destroyedPml, -⟩ := Outcome.yields_bind.mp returned
  rw [Mmu.yields_load] at isRead
  have pmlEq := (mmu.direct spaceAt.direct (by decide : 8 + 8 ≤ pageSize) isRead).trans
    spaceAt.pml_eq
  rw [pmlEq] at destroyedPml
  cases fuel with
  | zero =>
      rw [destroyLvl, Outcome.yields_lift] at destroyedPml
      cases destroyedPml
  | succ fuel =>
      rw [destroyLvl, if_neg (directPtr_ne_zero rootDirect.1 rootDirect.2.2),
        Outcome.yields_bind] at destroyedPml
      obtain ⟨emptied, looped, -⟩ := destroyedPml
      have indexLt := index.isLt
      exact destroyEntries_stuck destroyLvl_ram destroyLvl_frees rootDirect (by omega) (by omega)
        present points looped

end DoubleFree

inductive MemoryStep (hhdm : Word) : HeapHistory → HeapHistory → Prop
  | heap {history next : HeapHistory} (step : HeapStep hhdm (fun _ => True) history next) :
      MemoryStep hhdm history next
  | op {history : HeapHistory} {vmm : Word} {mm : MmState Pmm} (op : PageOp) (result : OpResult)
      (isSpace : vmm = history.kernel.vmmKernel ∨ vmm ∈ history.spaces)
      (call : op.run hhdm pmmSource history.kernel.mm vmm = .ok (result, mm)) :
      MemoryStep hhdm history ⟨{ history.kernel with mm }, history.live, history.spaces⟩

namespace HeapHistory

variable {hhdm : Word} {top : Nat} {height : Nat → Option Nat} {kernel : Space}
variable {others : List Space} {arenas : List Arena} {history : HeapHistory}

theorem Standing.heap_step {Sizes : Word → Prop} {next : HeapHistory}
    (standing : Standing hhdm top height kernel others arenas history)
    (step : HeapStep hhdm Sizes history next) :
    ∃ height' others' arenas', Standing hhdm top height' kernel others' arenas' next := by
  have kernelEq : history.kernel.vmmKernel = kernel.vmm hhdm := standing.forked.kernel_eq
  cases step with
  | alloc fuel size _ call =>
      rw [kernelEq] at call
      obtain ⟨arena, height', rfl, rfl, -, ext, arenaAt, -⟩ :=
        kAlloc_returned standing.forked.ready call
      exact ⟨height', others, arena :: arenas, standing.alloc ext arenaAt⟩
  | free block isLive call =>
      obtain ⟨arena, member, rfl⟩ := List.mem_map.mp (standing.live_perm.mem_iff.mp isLive)
      obtain ⟨mm, freed, released, -⟩ := standing.free_arena member
      rw [Arena.block, freed] at call
      cases call
      exact ⟨height, others, arenas.erase arena,
        standing.free (List.perm_cons_erase member) released⟩
  | new created =>
      rw [kernelEq] at created
      obtain ⟨space, height', rfl, opened, -⟩ :=
        vmmNew_returned standing.forked.ready.tables standing.forked.ready.space_at created
      exact ⟨height', space :: others, arenas, standing.new opened⟩

theorem Standing.step {next : HeapHistory}
    (standing : Standing hhdm top height kernel others arenas history)
    (step : MemoryStep hhdm history next) :
    ∃ height' others' arenas', Standing hhdm top height' kernel others' arenas' next := by
  cases step with
  | heap step => exact standing.heap_step step
  | op op result isSpace call =>
      obtain ⟨space, -, rfl, spaceAt⟩ := standing.forked.space_of_mem isSpace
      obtain ⟨value, height', -, updated⟩ :=
        pageOp_returned standing.forked.ready.tables spaceAt.root_height spaceAt.pml_eq call
      exact ⟨height', others, arenas, standing.extends updated.toExtends⟩

theorem standing_of_run {layout : KernelLayout} {start : KernelState Pmm}
    (covered : state.frames.Covered hhdm) (booted : vmmInit hhdm pmmSource layout state = .ok start)
    (run : Relation.ReflTransGen (MemoryStep hhdm) ⟨start, [], []⟩ history) :
    ∃ height kernel others arenas,
      Standing hhdm start.mm.frames.bitmapTopIndex height kernel others arenas history := by
  induction run with
  | refl =>
      obtain ⟨height, kernel, owned⟩ :=
        @Owned.booted hhdm (fun _ => True) layout state start covered booted
      exact ⟨height, kernel, [], [], owned.toStanding⟩
  | tail _ step ih =>
      obtain ⟨height, kernel, others, arenas, standing⟩ := ih
      obtain ⟨height', others', arenas', next⟩ := standing.step step
      exact ⟨height', kernel, others', arenas', next⟩

end HeapHistory

theorem runOps_top {spec : FrameSpec hhdm pmmSource} {ops : List PageOp} {results : List OpResult}
    (tables : Tables spec height state) (spaceAt : SpaceAt spec height state space)
    {index : Fin 512} (present : Present (tableStore state.ram space.root index))
    (run : runOps hhdm pmmSource state (space.vmm hhdm) ops = .ok (results, final)) :
    ∃ height', Tables spec height' final ∧ SpaceAt spec height' final space ∧
      Present (tableStore final.ram space.root index) := by
  induction ops generalizing state height results with
  | nil =>
      rw [runOps, Except.ok.injEq, Prod.mk.injEq] at run
      rw [← run.2]
      exact ⟨height, tables, spaceAt, present⟩
  | cons op ops ih =>
      rcases pageOp_spec tables op spaceAt.root_height spaceAt.pml_eq with
        ⟨reason, -, -, stopped⟩ | ⟨result, value, height', state', -, returned, updated⟩
      · simp only [runOps, stopped, panic_bind] at run
        cases run
      · have kept := updated.present spaceAt.root_height present
        cases rest : runOps hhdm pmmSource state' (space.vmm hhdm) ops with
        | error reason =>
            simp only [runOps, returned, rest, ok_bind, panic_bind] at run
            cases run
        | ok pair =>
            simp only [runOps, returned, rest, ok_bind, Except.ok.injEq, Prod.mk.injEq] at run
            obtain ⟨rest', final'⟩ := pair
            obtain ⟨-, rfl⟩ := run
            exact ih updated.tables (spaceAt.extends updated.toExtends) (by rwa [kept]) rest

/-- Destroying an address space never undoes its creation.  From every state
that calls of the heap and of the page tables reach after `vmm_init`, and after
any calls on the new address space, `vmm_destroy` does not return, whatever the
processor finds behind the addresses it follows. -/
theorem vmm_destroy_never_undoes {hhdm : Word} {layout : KernelLayout} {state : MmState Pmm}
    {start : KernelState Pmm} {history : HeapHistory} (covered : state.frames.Covered hhdm)
    (booted : vmmInit hhdm pmmSource layout state = .ok start)
    (run : Relation.ReflTransGen (MemoryStep hhdm) ⟨start, [], []⟩ history)
    {newVmm : Word} {created mapped : MmState Pmm} {ops : List PageOp} {results : List OpResult}
    (isNew : vmmNew hhdm pmmSource history.kernel.mm history.kernel.vmmKernel =
      .ok (newVmm, created))
    (calls : runOps hhdm pmmSource created newVmm ops = .ok (results, mapped))
    (mmu : Mmu hhdm) (own : Set Nat) :
    ¬ Undoes hhdm mmu history.kernel.vmmKernel newVmm own mapped := by
  rintro ⟨fuel, after, returned, -⟩
  obtain ⟨height, kernel, others, arenas, standing⟩ :=
    HeapHistory.standing_of_run covered booted run
  have kernelEq : history.kernel.vmmKernel = kernel.vmm hhdm := standing.forked.kernel_eq
  rw [kernelEq] at isNew
  have ready := standing.forked.ready
  obtain ⟨space, height', rfl, opened, -⟩ := vmmNew_returned ready.tables ready.space_at isNew
  have present : Present (tableStore created.ram space.root 256) := by
    rw [opened.copied]
    exact (ready.extends opened.toExtends).upper 256 (by decide)
  obtain ⟨height'', tables, spaceAt, isPresent⟩ :=
    runOps_top opened.tables opened.space_at present calls
  exact vmmDestroy_stuck tables spaceAt isPresent fuel returned

/-- A read through the map that `vmm_init` sets up: the first four gigabytes at
their own addresses, and the direct map. -/
def bootRead (hhdm : Word) (state : MmState Pmm) (pointer : Word) : Word :=
  if pointer.toNat < 2 ^ 32 then readWord state.ram pointer.toNat else state.load hhdm pointer

theorem bootRead_direct {offset : Nat} (apart : 2 ^ 32 ≤ hhdm.toNat)
    (direct : DirectMapped hhdm page) (inside : offset + 8 ≤ pageSize)
    (isRead : some (bootRead hhdm state (directPtr hhdm page + BitVec.ofNat 64 offset)) =
      some value) :
    value = state.load hhdm (directPtr hhdm page + BitVec.ofNat 64 offset) := by
  have offsetLt : offset < pageSize := by
    rw [pageSize] at *
    omega
  rw [bootRead, directPtr_add_toNat direct.2.2 offsetLt, if_neg (by omega),
    Option.some.injEq] at isRead
  exact isRead.symm

def bootMmu (hhdm : Word) (apart : 2 ^ 32 ≤ hhdm.toNat) : Mmu hhdm where
  read := fun state pointer => some (bootRead hhdm state pointer)
  direct := bootRead_direct apart

theorem machine_mapped_space : ∃ pmm start newVmm created mapped result,
    (MmState.mk pmm fun _ => 0#8).frames.Covered machineHhdm ∧
    vmmInit machineHhdm pmmSource machineLayout ⟨pmm, fun _ => 0#8⟩ = .ok start ∧
    vmmNew machineHhdm pmmSource start.mm start.vmmKernel = .ok (newVmm, created) ∧
    runOps machineHhdm pmmSource created newVmm [.map 0x7f0000000000#64 0x5000#64 3#64] =
      .ok ([result], mapped) ∧
    ∀ mmu : Mmu machineHhdm, ∀ fuel after,
      ¬ (vmmDestroy machineHhdm mmu fuel mapped newVmm).Yields after := by
  obtain ⟨pmm, kernel, height, start, -, -, covered, booted, kernelEq, ready, -, -, -,
    supply⟩ := machine_boots
  rcases vmmNew_spec ready.tables ready.space_at with ⟨reason, -, short, -⟩ |
    ⟨space, height₁, created, isNew, opened, supply₁, -⟩
  · omega
  have present : Present (tableStore created.ram space.root 256) := by
    rw [opened.copied]
    exact (ready.extends opened.toExtends).upper 256 (by decide)
  rcases pageOp_spec opened.tables (.map 0x7f0000000000#64 0x5000#64 3#64)
    opened.space_at.root_height opened.space_at.pml_eq with ⟨reason, -, short, -⟩ |
      ⟨result, value, height₂, mapped, -, returned, -⟩
  · omega
  have calls : runOps machineHhdm pmmSource created (space.vmm machineHhdm)
      [.map 0x7f0000000000#64 0x5000#64 3#64] = .ok ([result], mapped) := by
    simp only [runOps, returned, ok_bind]
  obtain ⟨height₃, tables, spaceAt, isPresent⟩ :=
    runOps_top opened.tables opened.space_at present calls
  exact ⟨pmm, start, _, created, mapped, result, covered, booted, by rw [kernelEq]; exact isNew,
    calls, fun mmu fuel after => vmmDestroy_stuck tables spaceAt isPresent fuel⟩

theorem machineHhdm_ge : 2 ^ 32 ≤ machineHhdm.toNat := by
  decide

theorem vmm_destroy_never_undoes_machine : ∃ pmm start newVmm created mapped result,
    vmmInit machineHhdm pmmSource machineLayout ⟨pmm, fun _ => 0#8⟩ = .ok start ∧
    vmmNew machineHhdm pmmSource start.mm start.vmmKernel = .ok (newVmm, created) ∧
    runOps machineHhdm pmmSource created newVmm [.map 0x7f0000000000#64 0x5000#64 3#64] =
      .ok ([result], mapped) ∧
    ∀ own, ¬ Undoes machineHhdm (bootMmu machineHhdm machineHhdm_ge) start.vmmKernel newVmm own
      mapped := by
  obtain ⟨pmm, start, newVmm, created, mapped, result, covered, booted, isNew, calls, -⟩ :=
    machine_mapped_space
  exact ⟨pmm, start, newVmm, created, mapped, result, booted, isNew, calls,
    vmm_destroy_never_undoes covered booted .refl isNew calls
      (bootMmu machineHhdm machineHhdm_ge)⟩

theorem vmm_destroy_stuck_machine : ∃ pmm start newVmm created mapped result,
    vmmInit machineHhdm pmmSource machineLayout ⟨pmm, fun _ => 0#8⟩ = .ok start ∧
    vmmNew machineHhdm pmmSource start.mm start.vmmKernel = .ok (newVmm, created) ∧
    runOps machineHhdm pmmSource created newVmm [.map 0x7f0000000000#64 0x5000#64 3#64] =
      .ok ([result], mapped) ∧
    ∀ fuel after, ¬ (vmmDestroy machineHhdm (bootMmu machineHhdm machineHhdm_ge) fuel mapped
      newVmm).Yields after := by
  obtain ⟨pmm, start, newVmm, created, mapped, result, -, booted, isNew, calls, stuck⟩ :=
    machine_mapped_space
  exact ⟨pmm, start, newVmm, created, mapped, result, booted, isNew, calls, stuck _⟩

end MmdOS
