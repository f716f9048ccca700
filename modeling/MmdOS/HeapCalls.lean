import MmdOS.SpaceLifecycle

/-!
# Single calls of the heap

What one call of `k_alloc` or `k_free` does in any state that the kernel can
reach: where its block lies, which pages it takes, and which of its own accesses
to the heap's bookkeeping are still mapped.
-/

namespace MmdOS

open ByteMemory
open WordStack (slot)

section Mapped

variable (hhdm : Word)

def MappedAt (state : MmState Pmm) (vmmKernel address : Word) : Prop :=
  Present (vmmPte hhdm state vmmKernel address)

instance (state : MmState Pmm) (vmmKernel address : Word) :
    Decidable (MappedAt hhdm state vmmKernel address) :=
  inferInstanceAs (Decidable (Present _))

def loadMapped (state : MmState Pmm) (vmmKernel address : Word) : Except Trap Word :=
  if MappedAt hhdm state vmmKernel address then .ok (state.load hhdm address)
  else .error (.pageFault address)

def storeMapped (state : MmState Pmm) (vmmKernel address value : Word) :
    Except Trap (MmState Pmm) :=
  if MappedAt hhdm state vmmKernel address then .ok (state.store hhdm address value)
  else .error (.pageFault address)

theorem rounds_decrease {size : Word} {i : Nat} (more : i < size.toNat / pageSize) :
    2 ^ 64 - (i + 1) < 2 ^ 64 - i := by
  have sizeLt := size.isLt
  have roundsLe := Nat.div_le_self size.toNat pageSize
  omega

/-- The loop of `k_free`, with every read of the header translated. -/
def unmapArenaMapped (state : MmState Pmm) (vmmKernel arena : Word) (i : Nat) :
    Except Trap (MmState Pmm) := do
  let size ← loadMapped hhdm state vmmKernel (arenaSize arena)
  if i < size.toNat / pageSize then
    let (_, unmapped) ← (vmmUnmapPage hhdm pmmSource state vmmKernel
      (arena + BitVec.ofNat 64 i * 4096#64)).mapError Trap.panic
    unmapArenaMapped unmapped vmmKernel arena (i + 1)
  else .ok state
termination_by 2 ^ 64 - i
decreasing_by exact rounds_decrease ‹_›

/-- `k_free`, with every access to the header and to the metadata translated. -/
def kFreeMapped (state : MmState Pmm) (vmmKernel addr : Word) : Except Trap (MmState Pmm) := do
  let arena ← loadMapped hhdm state vmmKernel (addr - sizeofMetadata)
  let allocated ← loadMapped hhdm state vmmKernel (arenaAllocated arena)
  let state ← storeMapped hhdm state vmmKernel (arenaAllocated arena) (allocated - 1#64)
  let allocated ← loadMapped hhdm state vmmKernel (arenaAllocated arena)
  if allocated ≤ 0#64 then
    let base ← loadMapped hhdm state vmmKernel (arenaBase arena)
    let size ← loadMapped hhdm state vmmKernel (arenaSize arena)
    let frames ← (pmmFree state.frames (base - hhdm)
      (divRoundup size 4096#64).toNat).mapError Trap.panic
    unmapArenaMapped hhdm { state with frames } vmmKernel arena 0
  else .ok state

end Mapped

def Faults {α : Type} (call : Except Trap α) : Prop :=
  ∃ address, call = .error (.pageFault address)

section Faulting

variable {hhdm : Word} {state after : MmState Pmm} {vmmKernel arena : Word} {α : Type}

theorem loadMapped_cases (state : MmState Pmm) (vmmKernel address : Word)
    (rest : Word → Except Trap α) :
    Faults (loadMapped hhdm state vmmKernel address >>= rest) ∨
      MappedAt hhdm state vmmKernel address ∧
        (loadMapped hhdm state vmmKernel address >>= rest) = rest (state.load hhdm address) := by
  by_cases mapped : MappedAt hhdm state vmmKernel address
  · refine Or.inr ⟨mapped, ?_⟩
    rw [loadMapped, if_pos mapped]
    rfl
  · refine Or.inl ⟨address, ?_⟩
    rw [loadMapped, if_neg mapped]
    rfl

theorem storeMapped_cases (state : MmState Pmm) (vmmKernel address value : Word)
    (rest : MmState Pmm → Except Trap α) :
    Faults (storeMapped hhdm state vmmKernel address value >>= rest) ∨
      (storeMapped hhdm state vmmKernel address value >>= rest) =
        rest (state.store hhdm address value) := by
  by_cases mapped : MappedAt hhdm state vmmKernel address
  · right
    rw [storeMapped, if_pos mapped]
    rfl
  · refine Or.inl ⟨address, ?_⟩
    rw [storeMapped, if_neg mapped]
    rfl

theorem mapError_ok_bind {β : Type} (value : α) (rest : α → Except Trap β) :
    ((Except.ok value : Except Panic α).mapError Trap.panic >>= rest) = rest value :=
  rfl

/-- The loop with translated accesses faults, or it is the plain one and has read
the size of the arena last. -/
theorem unmapArenaMapped_cases {i : Nat}
    (plain : unmapArena hhdm state vmmKernel arena i = .ok after) :
    Faults (unmapArenaMapped hhdm state vmmKernel arena i) ∨
      unmapArenaMapped hhdm state vmmKernel arena i = .ok after ∧
        MappedAt hhdm after vmmKernel (arenaSize arena) := by
  -- the rounds that are left go down, though the bound is read anew in each
  induction rounds : 2 ^ 64 - i using Nat.strong_induction_on generalizing state i with
  | _ rounds ih =>
      rw [unmapArenaMapped]
      rcases loadMapped_cases state vmmKernel (arenaSize arena) _ with faults | ⟨mapped, loaded⟩
      · exact .inl faults
      rw [loaded]
      rw [unmapArena] at plain
      by_cases more : i < (state.load hhdm (arenaSize arena)).toNat / pageSize
      · rw [if_pos more] at plain ⊢
        cases call : vmmUnmapPage hhdm pmmSource state vmmKernel
            (arena + BitVec.ofNat 64 i * 4096#64) with
        | error reason =>
            rw [call, panic_bind] at plain
            cases plain
        | ok pair =>
            rw [call, ok_bind] at plain
            rw [mapError_ok_bind]
            have decreases := rounds_decrease more
            exact ih _ (by omega) plain rfl
      · rw [if_neg more] at plain ⊢
        cases plain
        exact .inr ⟨rfl, mapped⟩

/-- `k_free` with translated accesses faults, or it is the plain one and has read
a field of the arena last. -/
theorem kFreeMapped_cases {addr : Word} (plain : kFree hhdm state vmmKernel addr = .ok after) :
    Faults (kFreeMapped hhdm state vmmKernel addr) ∨
      kFreeMapped hhdm state vmmKernel addr = .ok after ∧
        ∃ i < 512, MappedAt hhdm after vmmKernel
          (slot (state.load hhdm (addr - sizeofMetadata)) i) := by
  rw [kFreeMapped]
  rcases loadMapped_cases state vmmKernel (addr - sizeofMetadata) _ with faults | ⟨-, loaded⟩
  · exact .inl faults
  rw [loaded]
  obtain ⟨arena, arenaEq⟩ : ∃ arena, state.load hhdm (addr - sizeofMetadata) = arena := ⟨_, rfl⟩
  rw [arenaEq]
  rcases loadMapped_cases state vmmKernel (arenaAllocated arena) _ with faults | ⟨-, loaded⟩
  · exact .inl faults
  rw [loaded]
  rcases storeMapped_cases state vmmKernel (arenaAllocated arena)
    (state.load hhdm (arenaAllocated arena) - 1#64) _ with faults | stored
  · exact .inl faults
  rw [stored]
  obtain ⟨counted, countedEq⟩ : ∃ counted, state.store hhdm (arenaAllocated arena)
      (state.load hhdm (arenaAllocated arena) - 1#64) = counted := ⟨_, rfl⟩
  rw [countedEq]
  rcases loadMapped_cases counted vmmKernel (arenaAllocated arena) _ with
    faults | ⟨mapped, loaded⟩
  · exact .inl faults
  rw [loaded]
  rw [kFree, arenaEq, countedEq] at plain
  by_cases last : counted.load hhdm (arenaAllocated arena) ≤ 0#64
  · rw [if_pos last] at plain ⊢
    rcases loadMapped_cases counted vmmKernel (arenaBase arena) _ with faults | ⟨-, loaded⟩
    · exact .inl faults
    rw [loaded]
    rcases loadMapped_cases counted vmmKernel (arenaSize arena) _ with faults | ⟨-, loaded⟩
    · exact .inl faults
    rw [loaded]
    cases freed : pmmFree counted.frames (counted.load hhdm (arenaBase arena) - hhdm)
        (divRoundup (counted.load hhdm (arenaSize arena)) 4096#64).toNat with
    | error reason =>
        rw [freed, panic_bind] at plain
        cases plain
    | ok frames =>
        rw [freed, ok_bind] at plain
        rw [mapError_ok_bind]
        rcases unmapArenaMapped_cases plain with faults | ⟨returned, stillMapped⟩
        · exact .inl faults
        · exact .inr ⟨returned, 2, by decide, stillMapped⟩
  · rw [if_neg last] at plain ⊢
    cases plain
    exact .inr ⟨rfl, 4, by decide, mapped⟩

end Faulting

/-- The words of a page have one page key. -/
theorem pageKey_slot {hhdm : Word} {page i : Nat} (aligned : hhdm.toNat % pageSize = 0)
    (reach : (page + 1) * pageSize + hhdm.toNat ≤ 2 ^ 64) (iLt : i < 512) :
    pageKey (slot (directPtr hhdm page) i) = pageKey (directPtr hhdm page) := by
  have offsetLt : 8 * i < pageSize := by
    rw [pageSize]
    omega
  rw [pageKey_eq, pageKey_eq, slot, directPtr_add_toNat reach offsetLt, directPtr_toNat reach]
  rw [pageSize] at *
  omega

section Reachable

variable {hhdm : Word} {top : Nat} {height : Nat → Option Nat} {kernel : Space}
variable {others : List Space} {arenas : List Arena} {history : HeapHistory}

theorem HeapHistory.Standing.free_faults
    (standing : Standing hhdm top height kernel others arenas history)
    (aligned : hhdm.toNat % pageSize = 0) {block : HeapBlock} (isLive : block ∈ history.live) :
    Faults (kFreeMapped hhdm history.kernel.mm history.kernel.vmmKernel block.ptr) := by
  obtain ⟨arena, member, rfl⟩ := List.mem_map.mp (standing.live_perm.mem_iff.mp isLive)
  have arenaAt := standing.arena_at arena member
  obtain ⟨after, plain, released, absent⟩ := standing.free_arena member
  rcases kFreeMapped_cases plain with faults | ⟨-, i, iLt, mapped⟩
  · exact faults
  exfalso
  have freed := standing.free (List.perm_cons_erase member) released
  have kernelEq : history.kernel.vmmKernel = kernel.vmm hhdm := standing.forked.kernel_eq
  rw [MappedAt, vmmPte, kernelEq, freed.forked.ready.space_at.vmmRoot_eq freed.forked.ready.tables,
    Arena.ptr_sub_metadata, arenaAt.metadata_eq] at mapped
  obtain ⟨-, -, -, reach⟩ := arenaAt.addresses standing.forked.ready.tables.valid
  have positive := arenaAt.positive
  have firstPage : (arena.start + 1) * pageSize ≤ (arena.start + arena.count) * pageSize :=
    Nat.mul_le_mul_right _ (by omega)
  have keyEq := pageKey_slot aligned (by omega : (arena.start + 1) * pageSize + _ ≤ _) iLt
  rw [Arena.header, leafPte_congr keyEq rfl] at mapped
  exact absent arena.start (Arena.start_mem positive) mapped

/-- A call of `k_alloc` panics, or takes the pages of an arena and returns the
address behind its header and its metadata. -/
theorem HeapHistory.Standing.alloc_cases
    (standing : Standing hhdm top height kernel others arenas history) (fuel : Nat) (size : Word) :
    (∃ reason, kAlloc hhdm (fuel + 1) history.kernel.mm history.kernel.vmmKernel size =
      some (.error reason)) ∨
    ∃ (arena : Arena) (mm : MmState Pmm),
      kAlloc hhdm (fuel + 1) history.kernel.mm history.kernel.vmmKernel size =
        some (.ok (arena.ptr hhdm, mm)) ∧
      1 ≤ arena.count ∧ arena.count = (heapPages size).toNat ∧ 1 ≤ arena.start ∧
      (arena.header hhdm).toNat = arena.start * pageSize + hhdm.toNat ∧
      (arena.ptr hhdm).toNat = arena.start * pageSize + hhdm.toNat + 48 ∧
      (arena.start + arena.count) * pageSize + hhdm.toNat ≤ 2 ^ 64 ∧
      arena.start ∈ history.kernel.mm.frames.freeSet ∧ arena.start ∉ mm.frames.freeSet ∧
      ∃ frames, pmmAllocNozero history.kernel.mm.frames (heapPages size).toNat =
        .ok (pageAddress arena.start, frames) := by
  have kernelEq : history.kernel.vmmKernel = kernel.vmm hhdm := standing.forked.kernel_eq
  rw [kernelEq]
  rcases kAlloc_spec standing.forked.ready fuel size with ⟨reason, -, stopped⟩ |
    ⟨arena, height', mm, returned, -, countEq, ext, arenaAt, -, -, -, -, taken, -⟩
  · exact .inl ⟨reason, stopped⟩
  · have inside := Arena.start_mem arenaAt.positive
    obtain ⟨headerEq, -, ptrEq, reach⟩ := arenaAt.addresses ext.tables.valid
    exact .inr ⟨arena, mm, returned, arenaAt.positive, countEq, arenaAt.start_pos, headerEq, ptrEq,
      reach, ext.taken_free inside, arenaAt.used _ inside, taken⟩

end Reachable

theorem machine_block {size : Word} (onePage : heapPages size = 1#64) :
    ∃ pmm start height kernel arena mm,
      (MmState.mk pmm fun _ => 0#8).frames.Covered machineHhdm ∧
      vmmInit machineHhdm pmmSource machineLayout ⟨pmm, fun _ => 0#8⟩ = .ok start ∧
      kAlloc machineHhdm 1 start.mm start.vmmKernel size =
        some (.ok (Arena.ptr machineHhdm arena, mm)) ∧
      HeapHistory.Standing machineHhdm start.mm.frames.bitmapTopIndex height kernel [] [arena]
        ⟨{ start with mm }, [⟨arena.ptr machineHhdm, size⟩], []⟩ ∧
      Relation.ReflTransGen (MemoryStep machineHhdm) ⟨start, [], []⟩
        ⟨{ start with mm }, [⟨arena.ptr machineHhdm, size⟩], []⟩ ∧
      MappedAt machineHhdm mm start.vmmKernel (arena.header machineHhdm) ∧
      mm.load machineHhdm (arenaSize (arena.header machineHhdm)) = 4096#64 ∧
      mm.load machineHhdm (arenaOffset (arena.header machineHhdm)) =
        sizeofArena + size + sizeofMetadata ∧
      90 ≤ mm.frames.freeSet.card := by
  obtain ⟨pmm, start, height, kernel, -, covered, booted, owned, enough⟩ :=
    machine_owned fun _ => True
  have kernelEq : start.vmmKernel = kernel.vmm machineHhdm := owned.forked.kernel_eq
  rcases kAlloc_spec owned.forked.ready 0 size with ⟨reason, short, -⟩ |
    ⟨arena, height', mm, returned, rfl, countEq, ext, arenaAt, -, -, supplyLe, offsetEq, -, mapped⟩
  · have few := short onePage
    dsimp only at few
    omega
  have standing := owned.toStanding.alloc ext arenaAt
  have call : kAlloc machineHhdm 1 start.mm start.vmmKernel arena.size =
      some (.ok (arena.ptr machineHhdm, mm)) := by
    rw [kernelEq]
    exact returned
  have step : MemoryStep machineHhdm ⟨start, [], []⟩
      ⟨{ start with mm }, [⟨arena.ptr machineHhdm, arena.size⟩], []⟩ :=
    .heap (.alloc 1 arena.size trivial call)
  refine ⟨pmm, start, height', kernel, arena, mm, covered, booted, call, standing, .single step,
    ?_, ?_, offsetEq, ?_⟩
  · rw [MappedAt, vmmPte, kernelEq, standing.forked.ready.space_at.vmmRoot_eq
      standing.forked.ready.tables]
    exact mapped arena.start (Arena.start_mem arenaAt.positive)
  · rw [arenaAt.size_eq, countEq, onePage]
    rfl
  · have fewer := supplyLe onePage
    dsimp only at fewer
    omega

/-- Freeing any block that is live faults: the loop that unmaps the arena goes on
reading the size from the page that it has unmapped first. -/
theorem k_free_always_faults {hhdm : Word} {layout : KernelLayout} {state : MmState Pmm}
    {start : KernelState Pmm} {history : HeapHistory} (covered : state.frames.Covered hhdm)
    (aligned : hhdm.toNat % pageSize = 0)
    (booted : vmmInit hhdm pmmSource layout state = .ok start)
    (run : Relation.ReflTransGen (MemoryStep hhdm) ⟨start, [], []⟩ history)
    {block : HeapBlock} (isLive : block ∈ history.live) :
    Faults (kFreeMapped hhdm history.kernel.mm history.kernel.vmmKernel block.ptr) := by
  obtain ⟨height, kernel, others, arenas, standing⟩ :=
    HeapHistory.standing_of_run covered booted run
  exact standing.free_faults aligned isLive

theorem k_free_always_faults_machine : ∃ pmm start ptr mm,
    vmmInit machineHhdm pmmSource machineLayout ⟨pmm, fun _ => 0#8⟩ = .ok start ∧
    kAlloc machineHhdm 1 start.mm start.vmmKernel 8#64 = some (.ok (ptr, mm)) ∧
    Faults (kFreeMapped machineHhdm mm start.vmmKernel ptr) := by
  obtain ⟨pmm, start, -, -, arena, mm, covered, booted, call, -, run, -⟩ :=
    @machine_block 8#64 (by decide)
  have faults := k_free_always_faults covered (by decide) booted run List.mem_cons_self
  dsimp only at faults
  exact ⟨pmm, start, arena.ptr machineHhdm, mm, booted, call, faults⟩

/-- The page of the header is mapped when `k_free` is called, and a read of it
faults nevertheless. -/
theorem k_free_faults_on_header : ∃ pmm start ptr mm,
    vmmInit machineHhdm pmmSource machineLayout ⟨pmm, fun _ => 0#8⟩ = .ok start ∧
    kAlloc machineHhdm 1 start.mm start.vmmKernel 8#64 = some (.ok (ptr, mm)) ∧
    MappedAt machineHhdm mm start.vmmKernel (mm.load machineHhdm (ptr - sizeofMetadata)) ∧
    Faults (kFreeMapped machineHhdm mm start.vmmKernel ptr) := by
  obtain ⟨pmm, start, height, kernel, arena, mm, -, booted, call, standing, -, mapped, -⟩ :=
    @machine_block 8#64 (by decide)
  have faults := standing.free_faults (by decide) List.mem_cons_self
  dsimp only at faults
  refine ⟨pmm, start, arena.ptr machineHhdm, mm, booted, call, ?_, faults⟩
  rw [Arena.ptr_sub_metadata]
  have metadata := (standing.arena_at arena List.mem_cons_self).metadata_eq
  dsimp only at metadata
  rwa [metadata]

/-- The arena of the block has room for another block of the given size, by the
test that `k_alloc` makes. -/
def HeapBlock.HasRoom (hhdm : Word) (mm : MmState Pmm) (block : HeapBlock) (size : Word) : Prop :=
  size + sizeofMetadata ≤ mm.load hhdm (arenaSize (block.arena hhdm mm)) -
    mm.load hhdm (arenaOffset (block.arena hhdm mm))

def HeapBlock.Encloses (hhdm : Word) (mm : MmState Pmm) (block : HeapBlock) (ptr : Word) : Prop :=
  (block.arena hhdm mm).toNat ≤ ptr.toNat ∧
    ptr.toNat < (block.arena hhdm mm).toNat + (mm.load hhdm (arenaSize (block.arena hhdm mm))).toNat

/-- `k_alloc` returns a block in an arena that has room for it, and takes no
page. -/
def HeapHistory.Reuses (hhdm : Word) (history : HeapHistory) (size : Word) : Prop :=
  ∃ fuel ptr mm, kAlloc hhdm fuel history.kernel.mm history.kernel.vmmKernel size =
      some (.ok (ptr, mm)) ∧
    mm.frames.freeSet = history.kernel.mm.frames.freeSet ∧
    ∃ block ∈ history.live, block.HasRoom hhdm history.kernel.mm size ∧
      block.Encloses hhdm history.kernel.mm ptr

/-- Whatever arenas are live, `k_alloc` opens a new one; so arenas with room are
reused exactly when there are none. -/
theorem k_alloc_reuses_iff {hhdm : Word} {layout : KernelLayout} {state : MmState Pmm}
    {start : KernelState Pmm} {history : HeapHistory} (covered : state.frames.Covered hhdm)
    (booted : vmmInit hhdm pmmSource layout state = .ok start)
    (run : Relation.ReflTransGen (MemoryStep hhdm) ⟨start, [], []⟩ history) (size : Word) :
    ((∃ block ∈ history.live, block.HasRoom hhdm history.kernel.mm size) →
        history.Reuses hhdm size) ↔
      ∀ block ∈ history.live, ¬ block.HasRoom hhdm history.kernel.mm size := by
  obtain ⟨height, kernel, others, arenas, standing⟩ :=
    HeapHistory.standing_of_run covered booted run
  have opens : ¬ history.Reuses hhdm size := by
    rintro ⟨fuel, ptr, mm, returned, same, -⟩
    rw [standing.forked.kernel_eq] at returned
    obtain ⟨arena, height', -, -, -, ext, arenaAt, -⟩ :=
      kAlloc_returned standing.forked.ready returned
    have inside := Arena.start_mem arenaAt.positive
    have isUsed := arenaAt.used _ inside
    rw [same] at isUsed
    exact isUsed (ext.taken_free inside)
  constructor
  · intro reuses block isLive hasRoom
    exact opens (reuses ⟨block, isLive, hasRoom⟩)
  · rintro none ⟨block, isLive, hasRoom⟩
    exact absurd hasRoom (none block isLive)

theorem hasRoom_iff {height : Nat → Option Nat} {top : Nat} {mm : MmState Pmm} {hhdm : Word}
    {arena : Arena} (arenaAt : ArenaAt hhdm top height mm arena) (size asked : Word) :
    HeapBlock.HasRoom hhdm mm ⟨arena.ptr hhdm, size⟩ asked ↔
      asked + sizeofMetadata ≤ mm.load hhdm (arenaSize (arena.header hhdm)) -
        mm.load hhdm (arenaOffset (arena.header hhdm)) := by
  rw [HeapBlock.HasRoom, HeapBlock.arena, Arena.ptr_sub_metadata, arenaAt.metadata_eq]

theorem k_alloc_reuses_iff_machine : ∃ pmm start history block,
    vmmInit machineHhdm pmmSource machineLayout ⟨pmm, fun _ => 0#8⟩ = .ok start ∧
    Relation.ReflTransGen (MemoryStep machineHhdm) ⟨start, [], []⟩ history ∧
    history.live = [block] ∧
    ((∃ block ∈ history.live, HeapBlock.HasRoom machineHhdm history.kernel.mm block 100#64) →
      history.Reuses machineHhdm 100#64) := by
  obtain ⟨pmm, start, height, kernel, arena, mm, covered, booted, -, standing, run, -, sizeEq,
    offsetEq, -⟩ := @machine_block 4000#64 (by decide)
  refine ⟨pmm, start, _, _, booted, run, rfl,
    (k_alloc_reuses_iff covered booted run 100#64).mpr ?_⟩
  intro block isLive
  rw [List.mem_singleton.mp isLive,
    hasRoom_iff (standing.arena_at arena List.mem_cons_self)]
  dsimp only
  rw [sizeEq, offsetEq]
  decide

/-- Two blocks of eight bytes fit into one page, and the second call takes a page
of its own. -/
theorem k_alloc_opens_arena : ∃ pmm start ptr mm ptr' mm',
    vmmInit machineHhdm pmmSource machineLayout ⟨pmm, fun _ => 0#8⟩ = .ok start ∧
    kAlloc machineHhdm 1 start.mm start.vmmKernel 8#64 = some (.ok (ptr, mm)) ∧
    HeapBlock.HasRoom machineHhdm mm ⟨ptr, 8#64⟩ 8#64 ∧
    kAlloc machineHhdm 1 mm start.vmmKernel 8#64 = some (.ok (ptr', mm')) ∧
    mm'.frames.freeSet ≠ mm.frames.freeSet := by
  obtain ⟨pmm, start, height, kernel, arena, mm, -, booted, call, standing, -, -, sizeEq,
    offsetEq, enough⟩ := @machine_block 8#64 (by decide)
  have kernelEq : start.vmmKernel = kernel.vmm machineHhdm := standing.forked.kernel_eq
  rcases kAlloc_spec standing.forked.ready 0 8#64 with ⟨reason, short, -⟩ |
    ⟨second, height', mm', returned, -, -, ext, arenaAt, -⟩
  · have few := short (by decide)
    dsimp only at few
    omega
  refine ⟨pmm, start, _, mm, _, mm', booted, call, ?_, by rw [kernelEq]; exact returned, ?_⟩
  · have isArena := standing.arena_at arena List.mem_cons_self
    dsimp only at isArena
    rw [hasRoom_iff isArena, sizeEq, offsetEq]
    decide
  · intro same
    have inside := Arena.start_mem arenaAt.positive
    have isUsed := arenaAt.used _ inside
    rw [same] at isUsed
    exact isUsed (ext.taken_free inside)

def BlockInside (base ptr size : Word) (pages : Nat) : Prop :=
  ptr.toNat + size.toNat ≤ 2 ^ 64 ∧ base.toNat ≤ ptr.toNat ∧
    ptr.toNat + size.toNat ≤ base.toNat + pages * pageSize

/-- How many pages `k_alloc` asks for: the sum and then the rounding may wrap. -/
theorem heapPages_toNat (size : Word) :
    (heapPages size).toNat = ((size.toNat + 48) % 2 ^ 64 + 4095) % 2 ^ 64 / pageSize := by
  have bytes : (heapBytes size).toNat = (size.toNat + 48) % 2 ^ 64 := by
    rw [heapBytes, BitVec.toNat_add, BitVec.toNat_add]
    change ((size.toNat + 40) % 2 ^ 64 + 8) % 2 ^ 64 = _
    omega
  rw [heapPages, divRoundup, BitVec.toNat_udiv, BitVec.toNat_add, bytes]
  rfl

/-- `k_alloc` comes back or panics, and the block that it returns lies in the
pages that it got exactly when the size together with the header does not wrap
around. -/
theorem k_alloc_inside_iff {hhdm : Word} {layout : KernelLayout} {state : MmState Pmm}
    {start : KernelState Pmm} {history : HeapHistory} (covered : state.frames.Covered hhdm)
    (booted : vmmInit hhdm pmmSource layout state = .ok start)
    (run : Relation.ReflTransGen (MemoryStep hhdm) ⟨start, [], []⟩ history) (fuel : Nat)
    (size : Word) :
    (∃ reason, kAlloc hhdm (fuel + 1) history.kernel.mm history.kernel.vmmKernel size =
      some (.error reason)) ∨
    ∃ ptr mm addr frames,
      kAlloc hhdm (fuel + 1) history.kernel.mm history.kernel.vmmKernel size =
        some (.ok (ptr, mm)) ∧
      pmmAllocNozero history.kernel.mm.frames (heapPages size).toNat = .ok (addr, frames) ∧
      (BlockInside (addr + hhdm) ptr size (heapPages size).toNat ↔ size.toNat + 48 ≤ 2 ^ 64) := by
  obtain ⟨height, kernel, others, arenas, standing⟩ :=
    HeapHistory.standing_of_run covered booted run
  rcases standing.alloc_cases fuel size with stopped |
    ⟨arena, mm, call, positive, countEq, startPos, headerEq, ptrEq, reach, -, -, frames, taken⟩
  · exact .inl stopped
  refine .inr ⟨_, mm, _, frames, call, taken, ?_⟩
  have headerEq' : (pageAddress arena.start + hhdm).toNat =
      arena.start * pageSize + hhdm.toNat := headerEq
  have sizeLt := size.isLt
  rw [Nat.add_mul, countEq, heapPages_toNat] at reach
  rw [countEq, heapPages_toNat] at positive
  rw [BlockInside, headerEq', ptrEq, heapPages_toNat]
  rw [pageSize] at *
  omega

theorem k_alloc_inside_iff_machine : ∃ pmm start ptr mm addr frames,
    vmmInit machineHhdm pmmSource machineLayout ⟨pmm, fun _ => 0#8⟩ = .ok start ∧
    kAlloc machineHhdm 1 start.mm start.vmmKernel 8#64 = some (.ok (ptr, mm)) ∧
    pmmAllocNozero start.mm.frames (heapPages 8#64).toNat = .ok (addr, frames) ∧
    BlockInside (addr + machineHhdm) ptr 8#64 (heapPages 8#64).toNat := by
  obtain ⟨pmm, start, -, -, arena, mm, covered, booted, call, -⟩ := @machine_block 8#64 (by decide)
  rcases k_alloc_inside_iff covered booted .refl 0 8#64 with ⟨reason, stopped⟩ |
    ⟨ptr, mm, addr, frames, returned, taken, inside⟩
  · rw [call] at stopped
    cases stopped
  · exact ⟨pmm, start, ptr, mm, addr, frames, booted, returned, taken, inside.mpr (by decide)⟩

/-- A request for `2 ^ 64 - 47` bytes is met with one page. -/
theorem k_alloc_huge_block : ∃ pmm start ptr mm addr frames,
    vmmInit machineHhdm pmmSource machineLayout ⟨pmm, fun _ => 0#8⟩ = .ok start ∧
    kAlloc machineHhdm 1 start.mm start.vmmKernel 0xffffffffffffffd1#64 = some (.ok (ptr, mm)) ∧
    pmmAllocNozero start.mm.frames 1 = .ok (addr, frames) ∧
    ¬ BlockInside (addr + machineHhdm) ptr 0xffffffffffffffd1#64 1 := by
  have onePage : heapPages 0xffffffffffffffd1#64 = 1#64 := by decide
  obtain ⟨pmm, start, -, -, first, mm, covered, booted, call, -⟩ := machine_block onePage
  obtain ⟨height, kernel, others, arenas, standing⟩ :=
    HeapHistory.standing_of_run covered booted .refl
  rcases standing.alloc_cases 0 0xffffffffffffffd1#64 with ⟨reason, stopped⟩ |
    ⟨arena, mm, returned, -, -, -, -, ptrEq, -, -, -, frames, taken⟩
  · rw [call] at stopped
    cases stopped
  rw [onePage] at taken
  refine ⟨pmm, start, _, mm, _, frames, booted, returned, taken, ?_⟩
  rintro ⟨noWrap, -⟩
  rw [ptrEq] at noWrap
  change _ + 0xffffffffffffffd1 ≤ 2 ^ 64 at noWrap
  omega

end MmdOS
