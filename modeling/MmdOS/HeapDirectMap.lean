import MmdOS.BootedMemory
import MmdOS.HeapRuns

/-!
# The direct map and the heap

`pmm_alloc` clears the pages it returns through the direct map.  After boot all
free pages are mapped there, and `k_alloc` never unmaps anything.  `k_free`
unmaps exactly the pages that it gives back.
-/

namespace MmdOS

open ByteMemory

/-- From the start of the bitmap on, a free null page cannot be told from a
failure. -/
theorem pmmAllocNozero_null {pmm : Pmm} (prevEq : pmm.bitmapPrevIndex = 0) (free : pmm.Free 0) :
    pmmAllocNozero pmm 1 = .error .outOfMemory := by
  have single : pmm.FreeRun 0 1 := by
    intro page _ pageLt
    have isZero : page = 0 := by omega
    rwa [isZero]
  have firstNull : (physicalAlloc pmm 1 pmm.bitmapTopIndex).1 = 0#64 := by
    rcases physicalAlloc_eq pmm le_rfl pmm.bitmapTopIndex with
      ⟨start, -, -, -, least, result⟩ | ⟨-, result⟩
    · have isZero : start = 0 := by
        by_contra later
        exact least 0 (by omega) (by omega) single
      rw [result, isZero]
      rfl
    · rw [result]
  have secondNull : ∀ after : Pmm,
      (physicalAlloc { after with bitmapPrevIndex := 0 } 1 pmm.bitmapPrevIndex).1 = 0#64 := by
    intro after
    rcases physicalAlloc_eq { after with bitmapPrevIndex := 0 } le_rfl pmm.bitmapPrevIndex with
      ⟨start, -, fits, -⟩ | ⟨-, result⟩
    · omega
    · rw [result]
  simp only [pmmAllocNozero, firstNull, secondNull, if_true]

section Boot

variable {entries : List MemmapEntry} {hhdm : Word} {layout : KernelLayout} {pmm : Pmm}
variable {memory : Memory} {world : KernelState Pmm} {ram : Nat → BitVec 8} {fuel : Nat}

/-- `vmm_init` returns only if the null page is marked. -/
theorem vmmInit_zero_used (prevEq : pmm.bitmapPrevIndex = 0)
    (returned : vmmInit hhdm pmmSource layout ⟨pmm, memory⟩ = .ok world) : ¬ pmm.Free 0 := by
  intro free
  have failed : pmmSource (MmState.mk pmm memory).frames = .error .outOfMemory :=
    pmmAllocNozero_null prevEq free
  rw [vmmInit_eq, vmmAlloc, pmmAlloc_error failed] at returned
  cases returned

theorem pmmInit_in_order (low : LowMemory entries) (reach : hhdm.toNat + 2 ^ 32 ≤ 2 ^ 64)
    (booted : pmmInit entries hhdm ram fuel = some (.ok pmm))
    (returned : vmmInit hhdm pmmSource layout ⟨pmm, memory⟩ = .ok world) :
    Pmm.InOrder hhdm pmm pmm ∧ pmm.bitmapTopIndex ≤ 2 ^ 20 := by
  obtain ⟨highest, after, bitmap, highestEq, -, -, topEq, prevEq, -⟩ := pmmInit_eq_ok booted
  have highestLe := highestAddr_le low highestEq
  have topLe : pmm.bitmapTopIndex ≤ 2 ^ 20 := by
    rw [topEq, pageSize]
    omega
  refine ⟨Pmm.Covered.inOrder ⟨⟨vmmInit_zero_used prevEq returned, by omega⟩, by omega, ?_⟩ prevEq,
    topLe⟩
  rw [pageSize]
  omega

end Boot

def AllocStep (hhdm : Word) (history next : HeapHistory) : Prop :=
  ∃ fuel size ptr mm,
    kAlloc hhdm fuel history.kernel.mm history.kernel.vmmKernel size = some (.ok (ptr, mm)) ∧
      next = ⟨{ history.kernel with mm }, ⟨ptr, size⟩ :: history.live, history.spaces⟩

namespace HeapHistory

variable {hhdm : Word} {initial : Pmm} {height : Nat → Option Nat} {kernel : Space}
variable {others : List Space} {arenas : List Arena} {history final : HeapHistory}

/-- Nothing that is mapped is remapped by `k_alloc`. -/
theorem Owned.alloc_keeps
    (owned : Owned hhdm (fun _ => True) initial height kernel others arenas history)
    (step : AllocStep hhdm history final) : ∃ height' arenas',
      Owned hhdm (fun _ => True) initial height' kernel others arenas' final ∧
      ∀ virt, Present (leafPte history.kernel.mm.ram kernel.root virt) →
        leafPte final.kernel.mm.ram kernel.root virt =
          leafPte history.kernel.mm.ram kernel.root virt := by
  obtain ⟨fuel, size, ptr, mm, call, rfl⟩ := step
  obtain ⟨arena, height', blockEq, -, allocated, kept⟩ := owned.alloc_returned trivial call
  rw [blockEq] at allocated
  exact ⟨height', arena :: arenas, allocated, kept⟩

theorem Owned.allocs_keep
    (owned : Owned hhdm (fun _ => True) initial height kernel others arenas history)
    (run : Relation.ReflTransGen (AllocStep hhdm) history final) : ∃ height' arenas',
      Owned hhdm (fun _ => True) initial height' kernel others arenas' final ∧
      ∀ virt, Present (leafPte history.kernel.mm.ram kernel.root virt) →
        leafPte final.kernel.mm.ram kernel.root virt =
          leafPte history.kernel.mm.ram kernel.root virt := by
  induction run with
  | refl => exact ⟨height, arenas, owned, fun _ _ => rfl⟩
  | tail _ step ih =>
      obtain ⟨height₁, arenas₁, owned₁, kept₁⟩ := ih
      obtain ⟨height₂, arenas₂, owned₂, kept₂⟩ := owned₁.alloc_keeps step
      refine ⟨height₂, arenas₂, owned₂, ?_⟩
      intro virt present
      rw [kept₂ virt (by rwa [kept₁ virt present]), kept₁ virt present]

theorem Owned.vmmPte_eq {Sizes : Word → Prop}
    (owned : Owned hhdm Sizes initial height kernel others arenas history) (virt : Word) :
    vmmPte hhdm history.kernel.mm history.kernel.vmmKernel virt =
      leafPte history.kernel.mm.ram kernel.root virt := by
  have kernelEq : history.kernel.vmmKernel = kernel.vmm hhdm := owned.forked.kernel_eq
  rw [vmmPte, kernelEq, owned.forked.ready.space_at.vmmRoot_eq owned.forked.ready.tables]

/-- `k_free` leaves the pages that it gives back unmapped. -/
theorem Owned.free_unmaps {Sizes : Word → Prop}
    (owned : Owned hhdm Sizes initial height kernel others arenas history) {block : HeapBlock}
    (isLive : block ∈ history.live) :
    ∃ mm, kFree hhdm history.kernel.mm history.kernel.vmmKernel block.ptr = .ok mm ∧
      ∃ page ∈ mm.frames.freeSet,
        ¬ Present (vmmPte hhdm mm history.kernel.vmmKernel (directPtr hhdm page)) := by
  obtain ⟨arena, rest, mm, -, perm, freed, released, absent⟩ := owned.free_ok isLive
  have member : arena ∈ arenas := perm.mem_iff.mpr List.mem_cons_self
  have inside := Arena.start_mem (owned.arena_at arena member).positive
  refine ⟨mm, freed, arena.start, (released.free_iff _).mpr (.inr inside), ?_⟩
  have entry := (owned.free perm released).vmmPte_eq (directPtr hhdm arena.start)
  dsimp only at entry
  rw [entry]
  exact absent _ inside

end HeapHistory

/-- As long as `k_free` is not called, every free page can be cleared through
the direct map; the first call of `k_free` ends this. -/
theorem free_pages_stay_mapped {entries : List MemmapEntry} {hhdm : Word} {layout : KernelLayout}
    {pmm : Pmm} {memory : Memory} {world : KernelState Pmm} {ram : Nat → BitVec 8} {fuel : Nat}
    {history : HeapHistory} (low : LowMemory entries) (separate : layout.Separate hhdm)
    (booted : pmmInit entries hhdm ram fuel = some (.ok pmm))
    (returned : vmmInit hhdm pmmSource layout ⟨pmm, memory⟩ = .ok world)
    (run : Relation.ReflTransGen (AllocStep hhdm) ⟨world, [], []⟩ history) :
    (∀ page ∈ history.kernel.mm.frames.freeSet, DirectTranslation hhdm history.kernel page) ∧
    ∀ block ∈ history.live, ∃ mm,
      kFree hhdm history.kernel.mm history.kernel.vmmKernel block.ptr = .ok mm ∧
      ¬∀ page ∈ mm.frames.freeSet, DirectTranslation hhdm { history.kernel with mm } page := by
  obtain ⟨order, topLe⟩ := pmmInit_in_order low separate.reach booted returned
  obtain ⟨height, kernel, start⟩ :=
    @HeapHistory.Owned.booted hhdm (fun _ => True) layout ⟨pmm, memory⟩ world order.covered returned
  obtain ⟨height', arenas, owned, kept⟩ := start.allocs_keep run
  constructor
  · intro page free
    have wasFree := ((owned.free_iff page).mp free).1
    have atBoot := (vmmInit_in_order order returned).1
    have direct := (pmmSpec hhdm).free_direct atBoot.covered wasFree
    have pageLt := (Pmm.mem_freeSet.mp (atBoot.subset wasFree)).1
    obtain ⟨present, addrEq⟩ :=
      directTranslation_low separate order returned direct.1 (by omega)
    have before : vmmPte hhdm world.mm world.vmmKernel (directPtr hhdm page) = _ :=
      start.vmmPte_eq (directPtr hhdm page)
    rw [before] at present addrEq
    rw [DirectTranslation, owned.vmmPte_eq, kept _ present]
    exact ⟨present, addrEq⟩
  · intro block isLive
    obtain ⟨mm, freed, page, isFree, absent⟩ := owned.free_unmaps isLive
    refine ⟨mm, freed, ?_⟩
    intro mapped
    exact absent (mapped page isFree).1

theorem machine_first_block : ∃ pmm world ptr mm,
    pmmInit machineMap machineHhdm (fun _ => 0#8) 4 = some (.ok pmm) ∧
    vmmInit machineHhdm pmmSource machineLayout ⟨pmm, fun _ => 0#8⟩ = .ok world ∧
    kAlloc machineHhdm 1 world.mm world.vmmKernel 8#64 = some (.ok (ptr, mm)) ∧
    mm.frames.freeSet.Nonempty ∧
    ∃ height kernel arenas, HeapHistory.Owned machineHhdm (fun _ => True) world.mm.frames height
      kernel [] arenas ⟨{ world with mm }, [⟨ptr, 8#64⟩], []⟩ := by
  obtain ⟨pmm, world, height, kernel, booted, -, returned, start, enough⟩ :=
    machine_owned fun _ => True
  obtain ⟨arena, height', mm, call, -, owned, -, supplyLe⟩ :=
    @HeapHistory.Owned.alloc_ok _ _ _ _ _ _ _ _ start 8#64 trivial (by decide)
      (by dsimp only; omega) 0
  dsimp only at supplyLe
  have nonempty : mm.frames.freeSet.Nonempty := Finset.card_pos.mp (by omega)
  exact ⟨pmm, world, arena.ptr machineHhdm, mm, booted, returned, call, nonempty, height', kernel,
    [arena], owned⟩

theorem free_pages_stay_mapped_machine : ∃ history : HeapHistory,
    history.kernel.mm.frames.freeSet.Nonempty ∧ history.live ≠ [] ∧
    ∀ page ∈ history.kernel.mm.frames.freeSet,
      DirectTranslation machineHhdm history.kernel page := by
  obtain ⟨pmm, world, ptr, mm, booted, returned, call, nonempty, -⟩ := machine_first_block
  have run : Relation.ReflTransGen (AllocStep machineHhdm) ⟨world, [], []⟩
      ⟨{ world with mm }, [⟨ptr, 8#64⟩], []⟩ :=
    Relation.ReflTransGen.single ⟨1, 8#64, ptr, mm, call, rfl⟩
  obtain ⟨mapped, -⟩ :=
    free_pages_stay_mapped machineMap_low machineLayout_separate booted returned run
  exact ⟨⟨{ world with mm }, [⟨ptr, 8#64⟩], []⟩, nonempty, List.cons_ne_nil _ _, mapped⟩

/-- After `k_free(k_alloc(8))` some free page is not mapped. -/
theorem freed_page_unmapped : ∃ pmm world ptr mm after page,
    pmmInit machineMap machineHhdm (fun _ => 0#8) 4 = some (.ok pmm) ∧
    vmmInit machineHhdm pmmSource machineLayout ⟨pmm, fun _ => 0#8⟩ = .ok world ∧
    kAlloc machineHhdm 1 world.mm world.vmmKernel 8#64 = some (.ok (ptr, mm)) ∧
    kFree machineHhdm mm world.vmmKernel ptr = .ok after ∧
    page ∈ after.frames.freeSet ∧
    ¬ Present (vmmPte machineHhdm after world.vmmKernel (directPtr machineHhdm page)) := by
  obtain ⟨pmm, world, ptr, mm, booted, returned, call, -, height, kernel, arenas, owned⟩ :=
    machine_first_block
  obtain ⟨after, freed, page, isFree, absent⟩ := owned.free_unmaps List.mem_cons_self
  exact ⟨pmm, world, ptr, mm, after, page, booted, returned, call, freed, isFree, absent⟩

end MmdOS
