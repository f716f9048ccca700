import MmdOS.KernelMap
import MmdOS.MemoryMap
import MmdOS.PhysicalAllocatorRuns

/-!
# The free pages after boot

`pmm_init` hands out all usable memory, while `vmm_init` fills the direct map
only up to four gigabytes.  From the start of the bitmap on, the allocator
takes the lowest free page each time, so that `vmm_init` leaves the highest
pages free.
-/

namespace MmdOS

open ByteMemory

variable {hhdm : Word} {pmm : Pmm} {page top : Nat}

namespace Pmm

/-- All pages that have been taken since `initial` lie below all that are still
free. -/
structure InOrder (hhdm : Word) (initial pmm : Pmm) : Prop where
  covered : pmm.Covered hhdm
  behind : ∀ page < pmm.bitmapPrevIndex, ¬pmm.Free page
  subset : pmm.freeSet ⊆ initial.freeSet
  taken_lt : ∀ page ∈ initial.freeSet, page ∉ pmm.freeSet → page < pmm.bitmapPrevIndex

theorem InOrder.lt_of_taken {initial : Pmm} (order : InOrder hhdm initial pmm) {other : Nat}
    (wasFree : page ∈ initial.freeSet) (taken : page ∉ pmm.freeSet) (free : other ∈ pmm.freeSet) :
    page < other := by
  have below := order.taken_lt page wasFree taken
  by_contra notBelow
  exact order.behind other (by omega) (mem_freeSet.mp free).2

end Pmm

/-- Nothing is free behind the cursor, so that the lowest free page is taken. -/
theorem pmmAllocNozero_lowest {after : Pmm} {addr : Word} (valid : pmm.Valid)
    (behind : ∀ page < pmm.bitmapPrevIndex, ¬pmm.Free page)
    (allocated : pmmAllocNozero pmm 1 = .ok (addr, after)) :
    ∃ start, addr = pageAddress start ∧ pmm.Took start 1 after ∧
      ∀ page < start, ¬pmm.Free page := by
  obtain ⟨start, addrEq, taken⟩ := pmmAllocNozero_took valid le_rfl allocated
  refine ⟨start, addrEq, taken, ?_⟩
  have startFree := taken.free start le_rfl (by omega)
  rcases physicalAlloc_cases valid.zeroUsed le_rfl le_rfl with
    ⟨lowest, next, result, nonNull, took, -, -, blocked⟩ | ⟨-, blocked⟩
  · simp only [pmmAllocNozero, result, if_neg nonNull, Except.ok.injEq, Prod.mk.injEq] at allocated
    obtain ⟨-, rfl⟩ := allocated
    have startEq : start = lowest := by
      have first := taken.prev_eq
      have second := took.prev_eq
      omega
    intro page pageLt isFree
    by_cases before : page < pmm.bitmapPrevIndex
    · exact behind page before isFree
    · refine blocked page (by omega) (by omega) ?_
      intro other otherGe otherLt
      have same : other = page := by omega
      rwa [same]
  · refine absurd ?_ (blocked start ?_ taken.fits)
    · exact taken.free
    · by_contra before
      exact behind start (by omega) startFree

theorem Pmm.InOrder.alloc {hhdm : Word} {initial pmm after : Pmm} {addr : Word}
    (order : Pmm.InOrder hhdm initial pmm)
    (allocated : pmmAllocNozero pmm 1 = .ok (addr, after)) :
    Pmm.InOrder hhdm initial after := by
  obtain ⟨start, -, taken, lowest⟩ :=
    pmmAllocNozero_lowest order.covered.valid order.behind allocated
  refine ⟨order.covered.took taken, ?_, ?_, ?_⟩
  · intro page pageLt isFree
    obtain ⟨wasFree, outside⟩ := (taken.free_iff page).mp isFree
    rw [taken.prev_eq] at pageLt
    exact lowest page (by omega) wasFree
  · rw [taken.freeSet_eq]
    exact (Finset.erase_subset _ _).trans order.subset
  · intro page wasFree notFree
    rw [taken.freeSet_eq, Finset.mem_erase, not_and] at notFree
    rw [taken.prev_eq]
    by_cases here : page = start
    · omega
    · have before := order.taken_lt page wasFree (notFree here)
      by_contra behindStart
      have startFree := taken.free start le_rfl (by omega)
      exact order.behind start (by omega) startFree

def bootSpec (hhdm : Word) (initial : Pmm) : FrameSpec hhdm pmmSource where
  Valid := Pmm.InOrder hhdm initial
  Free := (pmmSpec hhdm).Free
  supply := (pmmSpec hhdm).supply
  free_direct := fun order free => (pmmSpec hhdm).free_direct order.covered free
  supply_error := fun order failed => (pmmSpec hhdm).supply_error order.covered failed
  alloc_spec := fun order allocated =>
    ⟨order.alloc allocated, ((pmmSpec hhdm).alloc_spec order.covered allocated).2⟩

theorem KernelReady.card_freeSet_le {initial : Pmm} {kernel : Space} {height : Nat → Option Nat}
    {state world : MmState Pmm} {paths : Finset (List (Fin 512))}
    (ready : KernelReady (bootSpec hhdm initial) kernel height world)
    (ext : Extends (bootSpec hhdm initial) {kernel.vmmPage, kernel.root} (fun _ => none) state
      height world) (reached : ∀ path ∈ paths, path.length ≤ 3 ∧
      Radix.descend entryTable (tableStore world.ram) kernel.root path ≠ none) :
    world.frames.freeSet.card + (1 + paths.card) ≤ state.frames.freeSet.card := by
  let node : List (Fin 512) → Nat := fun path =>
    (Radix.descend entryTable (tableStore world.ram) kernel.root path).getD 0
  have nodeEq : ∀ path ∈ paths,
      Radix.descend entryTable (tableStore world.ram) kernel.root path = some (node path) := by
    intro path member
    obtain ⟨last, lastEq⟩ := Option.ne_none_iff_exists'.mp (reached path member).2
    change _ = some (Option.getD _ 0)
    rw [lastEq, Option.getD_some]
  have nodeHeight : ∀ path ∈ paths, height (node path) = some (3 - path.length) := by
    intro path member
    have lengthLe := (reached path member).1
    refine ready.tables.forest.descend_height ?_ (nodeEq path member)
    rw [ready.space_at.root_height]
    congr 1
    omega
  have injective : Set.InjOn node paths := by
    intro path member path' member' same
    refine ready.tables.forest.path_unique ready.space_at.root_height (reached path member).1
      (reached path' member').1 (nodeEq path member) ?_
    rw [same]
    exact nodeEq path' member'
  have vmmFree : kernel.vmmPage ∈ state.frames.freeSet := ext.taken_free (Set.mem_insert _ _)
  have vmmNotNode : kernel.vmmPage ∉ paths.image node := by
    intro member
    obtain ⟨path, inPaths, same⟩ := Finset.mem_image.mp member
    have blank := ready.space_at.blank
    rw [← same, nodeHeight path inPaths] at blank
    cases blank
  have disjoint : Disjoint world.frames.freeSet (insert kernel.vmmPage (paths.image node)) := by
    rw [Finset.disjoint_right]
    intro page member
    rcases Finset.mem_insert.mp member with rfl | isNode
    · exact ready.space_at.used
    · obtain ⟨path, inPaths, rfl⟩ := Finset.mem_image.mp isNode
      exact ready.tables.used (nodeHeight path inPaths)
  have covered : world.frames.freeSet ∪ insert kernel.vmmPage (paths.image node) ⊆
      state.frames.freeSet := by
    intro page member
    rcases Finset.mem_union.mp member with free | member
    · exact ((ext.free_iff page).mp free).1
    · rcases Finset.mem_insert.mp member with rfl | isNode
      · exact vmmFree
      · obtain ⟨path, inPaths, rfl⟩ := Finset.mem_image.mp isNode
        rcases ext.fresh (nodeHeight path inPaths) with old | ⟨wasFree, -⟩
        · cases old
        · exact wasFree
  have card := Finset.card_le_card covered
  rw [Finset.card_union_of_disjoint disjoint, Finset.card_insert_of_notMem vmmNotNode,
    Finset.card_image_of_injOn injective] at card
  omega

section Boot

variable {entries : List MemmapEntry} {hhdm : Word} {layout : KernelLayout} {pmm : Pmm}
variable {memory : Memory} {world : KernelState Pmm}

theorem Pmm.Covered.inOrder (covered : pmm.Covered hhdm) (prevEq : pmm.bitmapPrevIndex = 0) :
    Pmm.InOrder hhdm pmm pmm where
  covered := covered
  behind := by
    intro page pageLt
    rw [prevEq] at pageLt
    exact absurd pageLt (Nat.not_lt_zero _)
  subset := Finset.Subset.refl _
  taken_lt := fun _ wasFree taken => absurd wasFree taken

theorem Pmm.Initial.inOrder (initial : pmm.Initial entries)
    (reach : mapTop entries * pageSize + hhdm.toNat ≤ 2 ^ 64)
    (higher : 2 ^ 64 - 2 ^ 47 ≤ hhdm.toNat + 0x1000) : Pmm.InOrder hhdm pmm pmm := by
  refine Pmm.Covered.inOrder ⟨⟨initial.zero_used, ?_⟩, ?_, ?_⟩ initial.prev_eq
  · rw [initial.prev_eq]
    exact Nat.zero_le _
  · rw [initial.top_eq]
    rw [pageSize] at reach
    omega
  · rw [initial.top_eq]
    exact reach

theorem vmmInit_in_order (order : Pmm.InOrder hhdm pmm pmm)
    (returned : vmmInit hhdm pmmSource layout ⟨pmm, memory⟩ = .ok world) :
    Pmm.InOrder hhdm pmm world.mm.frames ∧
    (∀ virt, vmmPte hhdm world.mm world.vmmKernel virt =
      (flatRun (fun _ => 0#64) ((layout.requests hhdm).map MapRequest.op)).2 (pageKey virt)) ∧
    world.mm.frames.freeSet.card + layout.bootFrames hhdm = pmm.freeSet.card := by
  have valid : (bootSpec hhdm pmm).Valid (MmState.mk pmm memory).frames := order
  rcases vmmInit_spec valid layout with ⟨reason, -, -, stopped⟩ |
    ⟨kernel, height, final, finalReturned, kernelEq, -, ready, ext, flat, reached, -, supplyLe⟩
  · rw [stopped] at returned
    cases returned
  · rw [returned] at finalReturned
    cases finalReturned
    refine ⟨ready.tables.valid, ?_, ?_⟩
    · intro virt
      rw [vmmPte, kernelEq, ready.space_at.vmmRoot_eq ready.tables, flat]
    · have atLeast := ready.card_freeSet_le ext reached
      have atMost : pmm.freeSet.card ≤
        world.mm.frames.freeSet.card + layout.bootFrames hhdm := supplyLe
      rw [KernelLayout.bootFrames] at *
      exact Nat.le_antisymm atLeast atMost

def DirectTranslation (hhdm : Word) (world : KernelState Pmm) (page : Nat) : Prop :=
  Present (vmmPte hhdm world.mm world.vmmKernel (directPtr hhdm page)) ∧
    pteGetAddr (vmmPte hhdm world.mm world.vmmKernel (directPtr hhdm page)) = pageAddress page

def KernelLayout.Avoids (layout : KernelLayout) (hhdm : Word) (top : Nat) : Prop :=
  ∀ part virt, layout.InSection part virt →
    ¬(hhdm.toNat ≤ virt.toNat ∧ virt.toNat < hhdm.toNat + top * pageSize)

theorem KernelLayout.Separate.direct_low (separate : layout.Separate hhdm) (positive : 1 ≤ page)
    (pageLt : page < 2 ^ 20) :
    (flatRun (fun _ => 0#64) ((layout.requests hhdm).map MapRequest.op)).2
        (pageKey (directPtr hhdm page)) =
      pageAddress page ||| (ptePresent ||| pteWritable ||| pteNoExecute) := by
  have asked : directRequest hhdm page ∈ lowRequests hhdm :=
    mem_lowRequests.mpr ⟨page, positive, pageLt, .inr rfl⟩
  have entry := separate.low_entry asked
  dsimp only [directRequest] at entry
  exact entry

theorem KernelLayout.Separate.direct_high (separate : layout.Separate hhdm)
    (avoids : layout.Avoids hhdm top) (reach : top * pageSize + hhdm.toNat ≤ 2 ^ 64)
    (pageGe : 2 ^ 20 ≤ page) (pageLt : page < top) :
    (flatRun (fun _ => 0#64) ((layout.requests hhdm).map MapRequest.op)).2
        (pageKey (directPtr hhdm page)) = 0#64 := by
  have pageReach : (page + 1) * pageSize ≤ top * pageSize := Nat.mul_le_mul_right _ pageLt
  have value : (directPtr hhdm page).toNat = page * pageSize + hhdm.toNat :=
    directPtr_toNat (by omega)
  have aligned := separate.aligned
  have higher := separate.directHigher
  rw [pageSize] at aligned pageReach reach value
  have isPage : PageVirt (directPtr hhdm page) := by
    rw [PageVirt, value, pageSize]
    omega
  refine separate.flatRun_unasked isPage ?_
  intro request asked virtEq
  rcases layout.mem_requests.mp asked with ⟨part, inPart⟩ | inLow
  · obtain ⟨-, -, inside, -⟩ := mem_partRequests.mp inPart
    rw [virtEq] at inside
    refine avoids part _ inside ?_
    rw [value, pageSize]
    omega
  · obtain ⟨other, -, otherLt, rfl | rfl⟩ := mem_lowRequests.mp inLow
    · have otherValue : (pageAddress other).toNat = other * pageSize :=
        pageAddress_toNat (by omega)
      rw [identityRequest] at virtEq
      dsimp only at virtEq
      rw [virtEq, value, pageSize] at otherValue
      omega
    · have otherValue := directPtr_value separate.reach otherLt
      rw [directRequest] at virtEq
      dsimp only at virtEq
      rw [virtEq, value, pageSize] at otherValue
      omega

theorem directTranslation_low (separate : layout.Separate hhdm) (order : Pmm.InOrder hhdm pmm pmm)
    (returned : vmmInit hhdm pmmSource layout ⟨pmm, memory⟩ = .ok world) (positive : 1 ≤ page)
    (pageLt : page < 2 ^ 20) : DirectTranslation hhdm world page := by
  obtain ⟨-, entries, -⟩ := vmmInit_in_order order returned
  have value : (pageAddress page).toNat = page * pageSize := pageAddress_toNat (by omega)
  rw [DirectTranslation, entries, separate.direct_low positive pageLt]
  constructor
  · have asked : directRequest hhdm page ∈ lowRequests hhdm :=
      mem_lowRequests.mpr ⟨page, positive, pageLt, .inr rfl⟩
    have present := lowRequest_present asked
    dsimp only [directRequest] at present
    exact present
  · apply pteGetAddr_or
    · rw [value, Nat.mul_mod_left]
    · rw [value, pageSize]
      omega
    · decide

/-- If any page above four gigabytes was free, the free pages that are left end
with such a page. -/
theorem high_page_left (order : Pmm.InOrder hhdm pmm world.mm.frames) (wasFree : page ∈ pmm.freeSet)
    (some_left : world.mm.frames.freeSet.Nonempty) :
    ∃ other ∈ world.mm.frames.freeSet, page ≤ other := by
  by_cases free : page ∈ world.mm.frames.freeSet
  · exact ⟨page, free, le_rfl⟩
  · obtain ⟨other, isFree⟩ := some_left
    exact ⟨other, isFree, (order.lt_of_taken wasFree free isFree).le⟩

/-- After boot, every free page can be reached through the direct map exactly
when no usable memory lies above four gigabytes, or boot takes all there is. -/
theorem free_pages_mapped_iff {ram : Nat → BitVec 8} {fuel : Nat} (limine : LimineMap entries)
    (sized : mapTop entries ≤ 8 * (bitmapSize (mapTop entries)).toNat)
    (separate : layout.Separate hhdm) (avoids : layout.Avoids hhdm (mapTop entries))
    (reach : mapTop entries * pageSize + hhdm.toNat ≤ 2 ^ 64)
    (booted : pmmInit entries hhdm ram fuel = some (.ok pmm))
    (returned : vmmInit hhdm pmmSource layout ⟨pmm, memory⟩ = .ok world) :
    (∀ page ∈ world.mm.frames.freeSet, DirectTranslation hhdm world page) ↔
      (∀ page ∈ allocatable entries, page < 2 ^ 20) ∨
        (allocatable entries).card ≤ layout.bootFrames hhdm := by
  have initial := pmmInit_initial limine sized booted
  have start := initial.inOrder reach separate.directHigher
  obtain ⟨order, entryEq, count⟩ := vmmInit_in_order start returned
  rw [initial.free_eq] at count
  constructor
  · intro mapped
    by_contra neither
    rw [not_or, not_forall] at neither
    obtain ⟨⟨page, notLow⟩, many⟩ := neither
    rw [Classical.not_imp] at notLow
    have left : world.mm.frames.freeSet.Nonempty := Finset.card_pos.mp (by omega)
    have wasFree : page ∈ pmm.freeSet := by
      rw [initial.free_eq]
      exact notLow.1
    obtain ⟨other, isFree, pageLe⟩ := high_page_left order wasFree left
    have otherLt := (Pmm.mem_freeSet.mp (order.subset isFree)).1
    rw [initial.top_eq] at otherLt
    have present := (mapped other isFree).1
    rw [entryEq, separate.direct_high avoids reach (by omega) otherLt] at present
    exact present (by decide)
  · rintro (low | few) page isFree
    · have wasFree := order.subset isFree
      have direct := (pmmSpec hhdm).free_direct order.covered isFree
      rw [initial.free_eq] at wasFree
      exact directTranslation_low separate start returned direct.1 (low page wasFree)
    · have empty : world.mm.frames.freeSet = ∅ := Finset.card_eq_zero.mp (by omega)
      rw [empty] at isFree
      exact absurd isFree (Finset.notMem_empty page)

end Boot

def highMap : List MemmapEntry :=
  machineMap ++ [⟨0x100000000#64, 0x8000000#64, .usable⟩]

theorem highMap_limine : LimineMap highMap := by
  refine ⟨⟨by decide, by decide, ?_⟩, by decide⟩
  simp only [highMap, machineMap, List.cons_append, List.nil_append, List.pairwise_cons,
    List.mem_cons, List.not_mem_nil, MemmapEntry.Contains]
  simp [pageSize]
  omega

theorem machineLayout_avoids (topLe : top ≤ 2 ^ 21) :
    machineLayout.Avoids machineHhdm top := by
  intro part virt inside direct
  cases part <;> simp only [KernelLayout.InSection, KernelLayout.first, KernelLayout.last,
    machineLayout, machineHhdm, pageSize, BitVec.toNat_ofNat] at inside direct <;> omega

theorem free_pages_mapped_iff_machine : ∃ pmm world,
    pmmInit machineMap machineHhdm (fun _ => 0#8) 4 = some (.ok pmm) ∧
    vmmInit machineHhdm pmmSource machineLayout ⟨pmm, fun _ => 0#8⟩ = .ok world ∧
    world.mm.frames.freeSet.Nonempty ∧
    ∀ page ∈ world.mm.frames.freeSet, DirectTranslation machineHhdm world page := by
  obtain ⟨pmm, kernel, height, world, booted, topEq, covered, returned, -, -, -, -, -,
    enough⟩ := machine_boots
  have top : mapTop machineMap = 32768 := by decide
  have some_left : world.mm.frames.freeSet.Nonempty := Finset.card_pos.mp (by
    have : 100 ≤ world.mm.frames.freeSet.card := enough
    omega)
  refine ⟨pmm, world, booted, returned, some_left, ?_⟩
  refine (free_pages_mapped_iff machineMap_limine (by rw [top]; exact machine_sized)
    machineLayout_separate (machineLayout_avoids (by rw [top]; decide)) (by rw [top]; decide) booted
    returned).mpr (.inl ?_)
  intro page member
  rw [allocatable, Finset.mem_filter, Finset.mem_range, top] at member
  omega

theorem highMap_boots :
    ∃ pmm, pmmInit highMap machineHhdm (fun _ => 0#8) 5 = some (.ok pmm) :=
  pmmInit_returns highMap_limine.toWholePages (by decide)
    (by decide : bitmapHome highMap (bitmapSize (mapTop highMap)) =
      some ⟨0x100000#64, 0x7f00000#64, .usable⟩) (by decide) (by decide)

theorem highMap_allocatable
    (inside : (289 ≤ page ∧ page < 32768) ∨ (1048576 ≤ page ∧ page < 1081344)) :
    page ∈ allocatable highMap := by
  have top : mapTop highMap = 1081344 := by decide
  have home : bitmapHome highMap (bitmapSize 1081344) =
      some ⟨0x100000#64, 0x7f00000#64, .usable⟩ := by decide
  have size : (bitmapSize 1081344).toNat = 0x21000 := by decide
  rw [allocatable, Finset.mem_filter, Finset.mem_range, InBitmap, top, home, size]
  refine ⟨by omega, ?_, ?_⟩
  · rcases inside with low | high
    · refine ⟨⟨0x100000#64, 0x7f00000#64, .usable⟩, by decide, rfl, ?_⟩
      rw [pageSize]
      simp only [BitVec.toNat_ofNat]
      omega
    · refine ⟨⟨0x100000000#64, 0x8000000#64, .usable⟩, by decide, rfl, ?_⟩
      rw [pageSize]
      simp only [BitVec.toNat_ofNat]
      omega
  · rintro ⟨entry, isHome, inBitmap⟩
    rw [Option.mem_some_iff] at isHome
    rw [← isHome, pageSize] at inBitmap
    simp only [BitVec.toNat_ofNat] at inBitmap
    omega

/-- The last page of this machine is free after boot, and not mapped. -/
theorem high_page_free_unmapped : ∃ pmm world,
    pmmInit highMap machineHhdm (fun _ => 0#8) 5 = some (.ok pmm) ∧
    vmmInit machineHhdm pmmSource machineLayout ⟨pmm, fun _ => 0#8⟩ = .ok world ∧
    LimineMap highMap ∧ 1081343 ∈ world.mm.frames.freeSet ∧
    vmmPte machineHhdm world.mm world.vmmKernel (directPtr machineHhdm 1081343) = 0#64 := by
  obtain ⟨pmm, booted⟩ := highMap_boots
  have top : mapTop highMap = 1081344 := by decide
  have initial := pmmInit_initial highMap_limine (by rw [top]; decide) booted
  have start : Pmm.InOrder machineHhdm pmm pmm :=
    initial.inOrder (by rw [top]; decide) (by decide)
  have inside : Finset.Ico 289 32768 ⊆ pmm.freeSet := by
    intro page member
    rw [initial.free_eq]
    exact highMap_allocatable (.inl (Finset.mem_Ico.mp member))
  have enough := Finset.card_le_card inside
  rw [Nat.card_Ico] at enough
  have cost : machineLayout.bootFrames machineHhdm ≤ 12555 :=
    machineLayout.bootFrames_le (by decide) (by decide)
  obtain ⟨world, returned⟩ : ∃ world,
      vmmInit machineHhdm pmmSource machineLayout ⟨pmm, fun _ => 0#8⟩ = .ok world := by
    have valid : (pmmSpec machineHhdm).Valid (MmState.mk pmm fun _ => 0#8).frames := start.covered
    rcases vmmInit_spec valid machineLayout with ⟨reason, -, short, -⟩ |
      ⟨kernel, height, world, returned, -⟩
    · have short : pmm.freeSet.card < machineLayout.bootFrames machineHhdm := short
      omega
    · exact ⟨world, returned⟩
  obtain ⟨order, entryEq, count⟩ := vmmInit_in_order start returned
  have wasFree : 1081343 ∈ pmm.freeSet := by
    rw [initial.free_eq]
    exact highMap_allocatable (.inr ⟨by omega, by omega⟩)
  obtain ⟨other, isFree, lastLe⟩ := high_page_left order wasFree (Finset.card_pos.mp (by omega))
  have otherLt := (Pmm.mem_freeSet.mp (order.subset isFree)).1
  rw [initial.top_eq, top] at otherLt
  have isLast : other = 1081343 := by omega
  refine ⟨pmm, world, booted, returned, highMap_limine, by rwa [isLast] at isFree, ?_⟩
  have avoids : machineLayout.Avoids machineHhdm 1081344 := machineLayout_avoids (by decide)
  rw [entryEq, machineLayout_separate.direct_high avoids (by decide) (by decide) (by decide)]

/-- From boot on, in every run of the allocator, the usable pages outside the bitmap are
shared out: each of them is free or belongs to one of the blocks in use, and the blocks
have no other pages. -/
theorem booted_pages_shared_out {entries : List MemmapEntry} {hhdm : Word} {ram : Nat → BitVec 8}
    {fuel : Nat} {pmm : Pmm} {state : PmmHistory} (limine : LimineMap entries)
    (sized : mapTop entries ≤ 8 * (bitmapSize (mapTop entries)).toNat)
    (booted : pmmInit entries hhdm ram fuel = some (.ok pmm))
    (run : Relation.ReflTransGen PmmStep ⟨pmm, []⟩ state) :
    (state.live.Pairwise fun first second => Disjoint first.pages second.pages) ∧
    state.livePages ⊆ allocatable entries ∧
    ∀ page, page ∈ state.pmm.freeSet ↔ page ∈ allocatable entries ∧ page ∉ state.livePages := by
  have initial := pmmInit_initial limine sized booted
  have cursorLe : pmm.bitmapPrevIndex ≤ pmm.bitmapTopIndex := by
    rw [initial.prev_eq]
    exact Nat.zero_le _
  have owned := PmmHistory.Owned.reachable ⟨initial.zero_used, cursorLe⟩ run
  rw [← initial.free_eq]
  refine ⟨owned.disjoint, fun page isLive => ?_, fun page => ?_⟩
  · obtain ⟨block, member, inBlock⟩ := id isLive
    obtain ⟨start, addrEq, -, -, fits⟩ := owned.placed block member
    have topLt := pmm.topIndex_lt
    rw [PageBlock.pages, addrEq, pageAddress_toNat_div (by omega)] at inBlock
    exact Pmm.mem_freeSet.mpr ⟨Nat.lt_of_lt_of_le inBlock.2 fits, owned.origin page isLive⟩
  · rw [Pmm.mem_freeSet, Pmm.mem_freeSet, owned.top_eq, owned.free_iff, and_assoc]

/-- The bitmap of the machine takes page 256, so that page 257 is allocated first. -/
theorem booted_pages_shared_out_machine : ∃ pmm after,
    pmmInit machineMap machineHhdm (fun _ => 0#8) 4 = some (.ok pmm) ∧
    pmmAllocNozero pmm 1 = .ok (pageAddress 257, after) ∧
    257 ∈ pmm.freeSet ∧ 257 ∉ after.freeSet ∧ 258 ∈ after.freeSet := by
  obtain ⟨pmm, booted⟩ := machineMap_returns
  have initial := pmmInit_initial machineMap_limine (by decide) booted
  have freeIff : ∀ page, page ∈ pmm.freeSet ↔ page < 32768 ∧
      (∃ entry ∈ machineMap, entry.Contains page) ∧ ¬InBitmap machineMap page := by
    intro page
    rw [initial.free_eq, allocatable, Finset.mem_filter, Finset.mem_range]
    rfl
  have isFree : 257 ∈ pmm.freeSet := (freeIff 257).mpr (by decide)
  have nextFree : 258 ∈ pmm.freeSet := (freeIff 258).mpr (by decide)
  have valid : pmm.Valid := ⟨initial.zero_used, by rw [initial.prev_eq]; exact Nat.zero_le _⟩
  obtain ⟨pageLt, pageFree⟩ := Pmm.mem_freeSet.mp isFree
  obtain ⟨addr, after, allocated⟩ := pmmAllocNozero_one_ok valid pageLt pageFree
  have behind : ∀ page < pmm.bitmapPrevIndex, ¬pmm.Free page := by
    intro page below
    rw [initial.prev_eq] at below
    exact absurd below (Nat.not_lt_zero page)
  obtain ⟨start, rfl, took, lowest⟩ := pmmAllocNozero_lowest valid behind allocated
  have isFirst : start = 257 := by
    have startIn : start ∈ pmm.freeSet :=
      Pmm.mem_freeSet.mpr ⟨took.fits, took.free start le_rfl (by omega)⟩
    have noneBelow : ∀ page < 257, ¬((∃ entry ∈ machineMap, entry.Contains page) ∧
        ¬InBitmap machineMap page) := by decide +kernel
    by_contra different
    rcases Nat.lt_or_gt_of_ne different with below | above
    · exact noneBelow start below ((freeIff start).mp startIn).2
    · exact lowest 257 above pageFree
  subst isFirst
  have shared := (booted_pages_shared_out machineMap_limine (by decide) booted
    (.single (.alloc 1 le_rfl allocated))).2.2
  refine ⟨pmm, after, booted, allocated, isFree, ?_, ?_⟩
  · rw [shared]
    rintro ⟨-, notLive⟩
    exact notLive ⟨_, List.mem_cons_self,
      (PageBlock.mem_pages_pageAddress (by decide)).mpr ⟨le_rfl, by decide⟩⟩
  · rw [shared, ← initial.free_eq]
    refine ⟨nextFree, ?_⟩
    rintro ⟨block, member, inside⟩
    rw [List.mem_singleton.mp member, PageBlock.mem_pages_pageAddress (by decide)] at inside
    omega

end MmdOS
