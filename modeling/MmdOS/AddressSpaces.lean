import MmdOS.PageOperations
import Mathlib.Data.Set.Insert

/-!
# Address spaces

An address space is a `vmm_t` in a page of its own together with the page of
its top-level table.  This file says how `vmm_new` adds one to the forest of
page tables: its top-level table becomes a second root over the tables of the
kernel.
-/

namespace MmdOS

open ByteMemory
open Function (update update_self update_of_ne)

/-- The pages that `vmm_new` takes for an address space. -/
structure Space where
  vmmPage : Nat
  root : Nat
  deriving DecidableEq

def Space.vmm (hhdm : Word) (space : Space) : Word :=
  directPtr hhdm space.vmmPage

section Spaces

variable {σ : Type} {hhdm : Word} {source : FrameSource σ} (spec : FrameSpec hhdm source)
variable {page offset : Nat}

structure SpaceAt (height : Nat → Option Nat) (state : MmState σ) (space : Space) : Prop where
  root_height : height space.root = some 3
  direct : DirectMapped hhdm space.vmmPage
  used : ¬ spec.Free state.frames space.vmmPage
  blank : height space.vmmPage = none
  pml_eq : state.load hhdm (pmlField (space.vmm hhdm)) = directPtr hhdm space.root

variable {spec} {taken : Set Nat} {height height' : Nat → Option Nat} {state state' : MmState σ}

theorem SamePage.load_eq (same : SamePage state.ram state'.ram page) (pageLt : page < 2 ^ 40)
    (inside : offset + 8 ≤ pageSize) :
    state'.load hhdm (directPtr hhdm page + BitVec.ofNat 64 offset) =
      state.load hhdm (directPtr hhdm page + BitVec.ofNat 64 offset) := by
  have offsetLt : offset < pageSize := by
    rw [pageSize] at *
    omega
  rw [MmState.load, MmState.load, directPtr_sub pageLt offsetLt]
  exact same.readWord_eq inside

theorem SamePage.pml_eq (same : SamePage state.ram state'.ram page) (pageLt : page < 2 ^ 40) :
    state'.load hhdm (pmlField (directPtr hhdm page)) =
      state.load hhdm (pmlField (directPtr hhdm page)) :=
  same.load_eq pageLt (by decide)

variable {space kernel : Space}

theorem SpaceAt.extends (spaceAt : SpaceAt spec height state space)
    (ext : Extends spec taken height state height' state') :
    SpaceAt spec height' state' space := by
  obtain ⟨used, blank⟩ := ext.used_blank spaceAt.used spaceAt.blank
  have same := ext.frame spaceAt.used spaceAt.blank
  exact
    { root_height := ext.keeps spaceAt.root_height
      direct := spaceAt.direct
      used := used
      blank := blank
      pml_eq := (same.pml_eq spaceAt.direct.2.1).trans spaceAt.pml_eq }

theorem Tables.take (tables : Tables spec height state) {after : σ} {ram : Memory}
    (validAfter : spec.Valid after)
    (wasFree : ∀ {page}, page ∈ taken → spec.Free state.frames page)
    (freeAfter : ∀ page, spec.Free after page ↔ spec.Free state.frames page ∧ page ∉ taken)
    (same : ∀ {page}, page ∉ taken → SamePage state.ram ram page) :
    Extends spec taken height state height ⟨after, ram⟩ := by
  have tableRow : ∀ page h (index : Fin 512), height page = some h →
      tableStore ram page index = tableStore state.ram page index := by
    intro page h index heightEq
    exact (same fun inTaken => tables.used heightEq (wasFree inTaken)).tableStore_eq index
  refine ⟨⟨validAfter, tables.forest.congr tableRow, ?_, tables.direct⟩, id, Or.inl,
    wasFree, ?_, ?_, ?_, ?_, ?_⟩
  · intro page h heightEq free
    exact tables.used heightEq ((freeAfter page).mp free).1
  · intro page h inTaken heightEq
    exact absurd (wasFree inTaken) (tables.used heightEq)
  · intro page
    change spec.Free after page ↔ _
    rw [freeAfter]
    constructor
    · rintro ⟨free, outside⟩
      exact ⟨free, tables.not_free free, outside⟩
    · rintro ⟨free, -, outside⟩
      exact ⟨free, outside⟩
  · intro page h index heightEq _
    exact tableRow page _ index heightEq
  · intro page h index next heightEq absent points
    rw [tableRow page _ index heightEq, absent] at points
    cases points
  · intro page used _
    exact same fun inTaken => used (wasFree inTaken)

theorem pmmAlloc_one (tables : Tables spec height state) :
    (∃ reason, (∃ frames, source frames = .error reason) ∧ spec.supply state.frames = 0 ∧
      pmmAlloc hhdm source 1 state = .error reason) ∨
    ∃ page state', pmmAlloc hhdm source 1 state = .ok (pageAddress page, state') ∧
      DirectMapped hhdm page ∧ Extends spec {page} height state height state' ∧
      (∀ index, tableStore state'.ram page index = 0#64) ∧
      (∀ {other}, other ≠ page → SamePage state.ram state'.ram other) ∧
      spec.supply state.frames ≤ spec.supply state'.frames + 1 ∧
      source state.frames = .ok (pageAddress page, state'.frames) := by
  cases allocated : source state.frames with
  | error reason =>
      left
      exact ⟨reason, ⟨_, allocated⟩, spec.supply_error tables.valid allocated,
        pmmAlloc_error allocated⟩
  | ok pair =>
      obtain ⟨addr, after⟩ := pair
      obtain ⟨validAfter, supplyLe, page, rfl, wasFree, freeAfter⟩ :=
        spec.alloc_spec tables.valid allocated
      have direct := spec.free_direct tables.valid wasFree
      have same : ∀ {other}, other ≠ page →
          SamePage state.ram (clearPages state.ram page 1) other :=
        fun different => samePage_clearPages state.ram (by omega)
      right
      refine ⟨page, ⟨after, clearPages state.ram page 1⟩,
        pmmAlloc_eq direct.1 direct.2.1 allocated, direct, ?_,
        tableStore_clearPages state.ram page, same, supplyLe, rfl⟩
      refine tables.take validAfter ?_ freeAfter same
      rintro other rfl
      exact wasFree

/-- The call that `vmm_new`, `vmm_init` and `k_alloc` make. -/
theorem vmmMapPage_spec (tables : Tables spec height state)
    (spaceAt : SpaceAt spec height state space) (virt physical flags : Word) :
    (∃ reason, (∃ frames, source frames = .error reason) ∧
      spec.supply state.frames < missingTables state.ram space.root (tablePath virt) ∧
      vmmMapPage hhdm source state (space.vmm hhdm) virt physical flags = .error reason) ∨
    ∃ height' state',
      vmmMapPage hhdm source state (space.vmm hhdm) virt physical flags = .ok (true, state') ∧
      leafTable state'.ram space.root virt ≠ none ∧
      spec.supply state.frames ≤
        spec.supply state'.frames + missingTables state.ram space.root (tablePath virt) ∧
      Updated spec space.root virt
        ((PageOp.map virt physical flags).onEntry (leafPte state.ram space.root virt)).2
        height state height' state' := by
  rcases walk_to_entry virt tables spaceAt.root_height spaceAt.pml_eq with
    ⟨reason, failed, short, walked⟩ |
    ⟨height', state', leaf, walked, supplyLe, leafNe, -, entryEq, leafEq, kept, written⟩
  · left
    refine ⟨reason, failed, short, ?_⟩
    simp only [vmmMapPage, walked, panic_bind]
  · right
    by_cases present : Present (leafPte state.ram space.root virt)
    · refine ⟨height', state', ?_, by simp [leafEq], supplyLe, ?_⟩
      · simp only [vmmMapPage, walked, ok_bind, if_neg leafNe, entryEq, if_pos present]
      · rw [PageOp.onEntry_map_present present]
        exact kept
    · have rootHeight' := kept.keeps spaceAt.root_height
      have stored := (Grows.refl kept.tables space.root _).write rootHeight' leafEq
        (physical ||| flags) (by omega) (fun _ => rfl)
      refine ⟨height', state'.store hhdm (directPtr hhdm leaf + 8#64 * lvl1Offset virt)
        (physical ||| flags), ?_, ?_, supplyLe, ?_⟩
      · simp only [vmmMapPage, walked, ok_bind, if_neg leafNe, entryEq, if_neg present]
      · rw [stored.leafTable_eq kept.tables rootHeight' leafEq]
        exact Option.some_ne_none leaf
      · rw [PageOp.onEntry_map_absent present]
        exact written (physical ||| flags)

/-- The loop at the end of `vmm_new` copies rows of the kernel's top-level
table into the new one, and reads both pointers again in every round. -/
theorem copyEntries_spec {state final : MmState σ} {index count : Nat}
    (vmmLt : space.vmmPage < 2 ^ 40) (kernelLt : kernel.vmmPage < 2 ^ 40)
    (rootLt : space.root < 2 ^ 40) (kernelRootLt : kernel.root < 2 ^ 40)
    (vmmNe : space.vmmPage ≠ space.root) (kernelNe : kernel.vmmPage ≠ space.root)
    (rootNe : kernel.root ≠ space.root)
    (pml : state.load hhdm (pmlField (space.vmm hhdm)) = directPtr hhdm space.root)
    (kernelPml : state.load hhdm (pmlField (kernel.vmm hhdm)) = directPtr hhdm kernel.root)
    (fits : index + count ≤ 512)
    (copyEq : copyEntries hhdm state (space.vmm hhdm) (kernel.vmm hhdm) index count = final) :
    final.frames = state.frames ∧
    (∀ {page}, page ≠ space.root → SamePage state.ram final.ram page) ∧
    ∀ position : Fin 512, tableStore final.ram space.root position =
      if index ≤ position.val ∧ position.val < index + count
        then tableStore state.ram kernel.root position
        else tableStore state.ram space.root position := by
  induction count generalizing state index with
  | zero =>
      rw [copyEntries] at copyEq
      subst copyEq
      refine ⟨rfl, fun _ => SamePage.refl _ _, ?_⟩
      intro position
      rw [if_neg (by omega)]
  | succ count ih =>
      have offsetLt : (BitVec.ofNat 64 index).toNat < 512 := by
        rw [BitVec.toNat_ofNat]
        omega
      have indexEq : (tableIndex (BitVec.ofNat 64 index)).val = index := by
        rw [tableIndex_val offsetLt, BitVec.toNat_ofNat]
        omega
      let entry := tableStore state.ram kernel.root (tableIndex (BitVec.ofNat 64 index))
      let next := state.store hhdm
        (directPtr hhdm space.root + 8#64 * BitVec.ofNat 64 index) entry
      have unfolded : copyEntries hhdm state (space.vmm hhdm) (kernel.vmm hhdm) index
          (count + 1) =
            copyEntries hhdm next (space.vmm hhdm) (kernel.vmm hhdm) (index + 1) count := by
        simp only [copyEntries, pml, kernelPml, load_slot state kernelRootLt offsetLt]
        rfl
      have same : ∀ {page}, page ≠ space.root → SamePage state.ram next.ram page :=
        fun different => samePage_store_slot state rootLt offsetLt different entry
      have row : tableStore next.ram =
          Radix.setEntry (tableStore state.ram) space.root
            (tableIndex (BitVec.ofNat 64 index)) entry :=
        tableStore_store_slot state rootLt offsetLt entry
      rw [unfolded] at copyEq
      obtain ⟨framesEq, kept, copied⟩ := ih
        (((same vmmNe).pml_eq vmmLt).trans pml)
        (((same kernelNe).pml_eq kernelLt).trans kernelPml) (by omega : index + 1 + count ≤ 512)
        copyEq
      refine ⟨framesEq, fun different => (same different).trans (kept different), ?_⟩
      intro position
      rw [copied position, (same rootNe).tableStore_eq, row]
      by_cases here : position = tableIndex (BitVec.ofNat 64 index)
      · have positionEq : position.val = index := by rw [here, indexEq]
        rw [if_neg (by omega), if_pos (by omega), here, Radix.setEntry_self]
      · have positionNe : position.val ≠ index := by
          intro equal
          exact here (Fin.ext (equal.trans indexEq.symm))
        rw [Radix.setEntry_of_ne (fun both => here both.2)]
        congr 1
        rw [eq_iff_iff]
        omega

theorem Extends.addRoot (ext : Extends spec taken height state height' state')
    {fresh : Nat} (inTaken : fresh ∈ taken) (blank : height' fresh = none)
    (direct : DirectMapped hhdm fresh)
    (forest : Radix.Forest entryTable (tableStore state'.ram) 3
      (update height' fresh (some 3))) :
    Extends spec taken height state (update height' fresh (some 3)) state' := by
  have kept : ∀ {page h}, height' page = some h →
      update height' fresh (some 3) page = some h := by
    intro page h heightEq
    rw [update_of_ne _, heightEq]
    rintro rfl
    simp [blank] at heightEq
  have old : ∀ {page h}, update height' fresh (some 3) page = some h →
      (page = fresh ∧ h = 3) ∨ height' page = some h := by
    intro page h heightEq
    by_cases isFresh : page = fresh
    · rw [isFresh, update_self, Option.some.injEq] at heightEq
      exact Or.inl ⟨isFresh, heightEq.symm⟩
    · rw [update_of_ne isFresh] at heightEq
      exact Or.inr heightEq
  refine ⟨⟨ext.tables.valid, forest, ?_, ?_⟩, fun heightEq => kept (ext.keeps heightEq), ?_,
    ext.taken_free, ?_, ?_, ext.present, ext.child_fresh, ext.frame⟩
  · intro page h heightEq
    rcases old heightEq with ⟨rfl, -⟩ | heightEq'
    · exact ext.taken_used inTaken
    · exact ext.tables.used heightEq'
  · intro page h heightEq
    rcases old heightEq with ⟨rfl, -⟩ | heightEq'
    · exact direct
    · exact ext.tables.direct heightEq'
  · intro page h heightEq
    rcases old heightEq with ⟨rfl, -⟩ | heightEq'
    · exact Or.inr ⟨ext.taken_free inTaken, Or.inl inTaken⟩
    · rcases ext.fresh heightEq' with before | ⟨free, inRest | ⟨node, index, nodeHeight, points⟩⟩
      · exact Or.inl before
      · exact Or.inr ⟨free, Or.inl inRest⟩
      · exact Or.inr ⟨free, Or.inr ⟨node, index, kept nodeHeight, points⟩⟩
  · intro page h inRest heightEq
    rcases old heightEq with ⟨-, isTop⟩ | heightEq'
    · exact isTop
    · exact ext.taken_height inRest heightEq'
  · intro page
    rw [ext.free_iff]
    by_cases isFresh : page = fresh
    · subst isFresh
      simp [inTaken]
    · rw [update_of_ne isFresh]

variable (spec) in
structure Opened (kernel space : Space) (height : Nat → Option Nat) (state : MmState σ)
    (height' : Nat → Option Nat) (state' : MmState σ) : Prop
    extends Extends spec {space.vmmPage, space.root} height state height' state' where
  space_at : SpaceAt spec height' state' space
  copied : ∀ index,
    tableStore state'.ram space.root index = tableStore state'.ram kernel.root index
  roots : ∀ {page index}, height page = some 3 → page ≠ kernel.root →
    tableStore state'.ram page index = tableStore state.ram page index
  kernel_row : ∀ {index},
    index ≠ tableIndex (lvl4Offset (directPtr hhdm space.vmmPage + hhdm)) →
    index ≠ tableIndex (lvl4Offset (directPtr hhdm space.root + hhdm)) →
    tableStore state'.ram kernel.root index = tableStore state.ram kernel.root index
  mapped : ∀ {virt}, Present (leafPte state.ram kernel.root virt) →
    leafPte state'.ram kernel.root virt = leafPte state.ram kernel.root virt

variable (hhdm source) in
/-- What `vmm_new` maps in the address space of the kernel: the two pages that it
got, each at an address that is the page's plus twice the offset of the direct
map, unless something is mapped there. -/
structure MapsPages (kernel space : Space) (state state' : MmState σ) : Prop where
  frames : ∃ frames after, source state.frames = .ok (pageAddress space.vmmPage, frames) ∧
    source frames = .ok (pageAddress space.root, after)
  leafPte_eq : ∀ virt, leafPte state'.ram kernel.root virt =
    if Present (leafPte state.ram kernel.root virt) then leafPte state.ram kernel.root virt
    else if pageKey virt = pageKey (directPtr hhdm space.vmmPage + hhdm) then
      directPtr hhdm space.vmmPage ||| (ptePresent ||| pteWritable)
    else if pageKey virt = pageKey (directPtr hhdm space.root + hhdm) then
      directPtr hhdm space.root ||| (ptePresent ||| pteWritable)
    else leafPte state.ram kernel.root virt

theorem present_writable (pointer : Word) : Present (pointer ||| (ptePresent ||| pteWritable)) := by
  intro isZero
  have lowBit := congrArg (fun word => word.getLsbD 0) isZero
  simp [ptePresent, pteWritable] at lowBit

theorem load_store (state : MmState σ) (pageLt : page < 2 ^ 40) (inside : offset + 8 ≤ pageSize)
    (value : Word) :
    (state.store hhdm (directPtr hhdm page + BitVec.ofNat 64 offset) value).load hhdm
      (directPtr hhdm page + BitVec.ofNat 64 offset) = value := by
  have offsetLt : offset < pageSize := by
    rw [pageSize] at *
    omega
  rw [MmState.load, MmState.store, directPtr_sub pageLt offsetLt]
  exact readWord_writeWord_self _ _ _

theorem load_store_of_disjoint (state : MmState σ) {other : Nat} (pageLt : page < 2 ^ 40)
    (inside : offset + 8 ≤ pageSize) (otherInside : other + 8 ≤ pageSize)
    (disjoint : offset + 8 ≤ other ∨ other + 8 ≤ offset) (value : Word) :
    (state.store hhdm (directPtr hhdm page + BitVec.ofNat 64 offset) value).load hhdm
      (directPtr hhdm page + BitVec.ofNat 64 other) =
        state.load hhdm (directPtr hhdm page + BitVec.ofNat 64 other) := by
  have offsetLt : offset < pageSize := by
    rw [pageSize] at *
    omega
  have otherLt : other < pageSize := by
    rw [pageSize] at *
    omega
  rw [MmState.load, MmState.load, MmState.store, directPtr_sub pageLt offsetLt,
    directPtr_sub pageLt otherLt]
  apply readWord_writeWord_of_disjoint
  omega

theorem Extends.store_taken (ext : Extends spec taken height state height' state') (offset : Nat)
    (inTaken : page ∈ taken) (blank : height' page = none) (pageLt : page < 2 ^ 40)
    (inside : offset + 8 ≤ pageSize) (value : Word) :
    Extends spec taken height state height'
      (state'.store hhdm (directPtr hhdm page + BitVec.ofNat 64 offset) value) := by
  refine ext.write_taken rfl fun outside => samePage_store state' pageLt inside ?_ value
  rintro rfl
  exact outside ⟨inTaken, blank⟩

theorem vmmAlloc_spec (tables : Tables spec height state) :
    (∃ reason, (∃ frames, source frames = .error reason) ∧ spec.supply state.frames ≤ 1 ∧
      vmmAlloc hhdm source state = .error reason) ∨
    ∃ space state', vmmAlloc hhdm source state = .ok (Space.vmm hhdm space, state') ∧
      space.vmmPage ≠ space.root ∧
      Extends spec {space.vmmPage, space.root} height state height state' ∧
      state'.load hhdm (pmlField (space.vmm hhdm)) = directPtr hhdm space.root ∧
      state'.load hhdm (arenaField (space.vmm hhdm)) = 0#64 ∧
      (∀ index, tableStore state'.ram space.root index = 0#64) ∧
      (∀ {page}, page ≠ space.vmmPage → page ≠ space.root →
        SamePage state.ram state'.ram page) ∧
      spec.supply state.frames ≤ spec.supply state'.frames + 2 ∧
      ∃ frames, source state.frames = .ok (pageAddress space.vmmPage, frames) ∧
        source frames = .ok (pageAddress space.root, state'.frames) := by
  rcases pmmAlloc_one tables with ⟨reason, failed, short, stopped⟩ |
    ⟨vmmPage, cleared, allocated, vmmDirect, firstExt, -, firstSame, firstSupply, firstFrame⟩
  · left
    refine ⟨reason, failed, by omega, ?_⟩
    simp only [vmmAlloc, stopped, panic_bind]
  have vmmBlank := tables.not_free (firstExt.taken_free (Set.mem_singleton vmmPage))
  let withArena := cleared.store hhdm (arenaField (directPtr hhdm vmmPage)) 0#64
  have arenaExt : Extends spec {vmmPage} height state height withArena :=
    firstExt.store_taken 16 (Set.mem_singleton vmmPage) vmmBlank vmmDirect.2.1 (by decide) 0#64
  rcases pmmAlloc_one arenaExt.tables with ⟨reason, failed, short, stopped⟩ |
    ⟨root, withTable, allocatedTable, -, secondExt, blankRow, same, secondSupply,
      secondFrame⟩
  · left
    have sameSupply : spec.supply withArena.frames = spec.supply cleared.frames := rfl
    refine ⟨reason, failed, by omega, ?_⟩
    simp only [vmmAlloc, allocated, ok_bind]
    rw [show cleared.store hhdm (arenaField (pageAddress vmmPage + hhdm)) 0#64 =
      withArena from rfl, stopped]
    rfl
  have different : vmmPage ≠ root := by
    rintro rfl
    exact arenaExt.taken_used (Set.mem_singleton vmmPage)
      (secondExt.taken_free (Set.mem_singleton vmmPage))
  have bothExt := arenaExt.trans secondExt
  rw [Set.singleton_union] at bothExt
  have vmmTaken : vmmPage ∈ ({vmmPage, root} : Set Nat) := Set.mem_insert _ _
  -- the table pointer is stored twice, first as a physical address
  let half := withTable.store hhdm (pmlField (directPtr hhdm vmmPage)) (pageAddress root)
  let final := half.store hhdm (pmlField (directPtr hhdm vmmPage)) (directPtr hhdm root)
  have halfLoad : half.load hhdm (pmlField (directPtr hhdm vmmPage)) = pageAddress root :=
    load_store withTable vmmDirect.2.1 (by decide) _
  have finalSame : ∀ {page}, page ≠ vmmPage → SamePage withTable.ram final.ram page :=
    fun pageNe => (samePage_store withTable vmmDirect.2.1 (by decide) pageNe _).trans
      (samePage_store half vmmDirect.2.1 (by decide) pageNe _)
  right
  refine ⟨⟨vmmPage, root⟩, final, ?_, different, ?_, ?_, ?_, ?_, ?_, ?_,
    cleared.frames, firstFrame, secondFrame⟩
  · simp only [vmmAlloc, allocated, ok_bind]
    rw [show cleared.store hhdm (arenaField (pageAddress vmmPage + hhdm)) 0#64 =
      withArena from rfl, allocatedTable]
    simp only [ok_bind]
    rw [show withTable.store hhdm (pmlField (pageAddress vmmPage + hhdm)) (pageAddress root) =
      half from rfl]
    rw [show half.load hhdm (pmlField (pageAddress vmmPage + hhdm)) = pageAddress root from
      halfLoad]
    rfl
  · exact (bothExt.store_taken 8 vmmTaken vmmBlank vmmDirect.2.1 (by decide) _).store_taken 8
      vmmTaken vmmBlank vmmDirect.2.1 (by decide) _
  · exact load_store half vmmDirect.2.1 (by decide) _
  · calc final.load hhdm (arenaField (directPtr hhdm vmmPage))
        = half.load hhdm (arenaField (directPtr hhdm vmmPage)) :=
          load_store_of_disjoint half vmmDirect.2.1 (by decide) (by decide) (by decide) _
      _ = withTable.load hhdm (arenaField (directPtr hhdm vmmPage)) :=
          load_store_of_disjoint withTable vmmDirect.2.1 (by decide) (by decide) (by decide) _
      _ = withArena.load hhdm (arenaField (directPtr hhdm vmmPage)) :=
          (same different).load_eq vmmDirect.2.1 (by decide)
      _ = 0#64 := load_store cleared vmmDirect.2.1 (by decide) _
  · intro index
    rw [(finalSame different.symm).tableStore_eq, blankRow]
  · intro page vmmNe rootNe
    exact (((firstSame vmmNe).trans
      (samePage_store cleared vmmDirect.2.1 (by decide) vmmNe _)).trans (same rootNe)).trans
        (finalSame vmmNe)
  · have sameSupply : spec.supply withArena.frames = spec.supply cleared.frames := rfl
    have finalSupply : spec.supply final.frames = spec.supply withTable.frames := rfl
    omega

theorem Tables.leafPte_eq (tables : Tables spec height state) {root : Nat}
    (rootHeight : height root = some 3) {ram : Memory}
    (same : ∀ {page h}, height page = some h → SamePage state.ram ram page) (virt : Word) :
    leafPte ram root virt = leafPte state.ram root virt :=
  tables.forest.lookup_congr 0#64 (leafIndex virt) rootHeight
    fun _ _ index heightEq => (same heightEq).tableStore_eq index

variable (spec) in
/-- Until `vmm_new` copies the table of the kernel, its two pages are taken and
neither is a table. -/
structure Reserved (space : Space) (height : Nat → Option Nat) (state : MmState σ)
    (height' : Nat → Option Nat) (state' : MmState σ) : Prop
    extends Extends spec {space.vmmPage, space.root} height state height' state' where
  vmm_blank : height' space.vmmPage = none
  root_blank : height' space.root = none
  pml_eq : state'.load hhdm (pmlField (space.vmm hhdm)) = directPtr hhdm space.root

section Reserved

variable {space kernel : Space}

theorem Reserved.vmm_taken : space.vmmPage ∈ ({space.vmmPage, space.root} : Set Nat) :=
  Set.mem_insert _ _

theorem Reserved.root_taken : space.root ∈ ({space.vmmPage, space.root} : Set Nat) :=
  Set.mem_insert_of_mem _ (Set.mem_singleton _)

theorem Reserved.map (reserved : Reserved spec space height state height' state')
    (tables : Tables spec height state) (kernelAt : SpaceAt spec height state kernel)
    (virt physical flags : Word) :
    (∃ reason, (∃ frames, source frames = .error reason) ∧ spec.supply state'.frames < 3 ∧
      vmmMapPage hhdm source state' (kernel.vmm hhdm) virt physical flags = .error reason) ∨
    ∃ height'' state'',
      vmmMapPage hhdm source state' (kernel.vmm hhdm) virt physical flags = .ok (true, state'') ∧
      Reserved spec space height state height'' state'' ∧
      Updated spec kernel.root virt
        ((PageOp.map virt physical flags).onEntry (leafPte state'.ram kernel.root virt)).2
        height' state' height'' state'' := by
  rcases vmmMapPage_spec reserved.tables (kernelAt.extends reserved.toExtends) virt physical flags
    with ⟨reason, failed, short, stopped⟩ | ⟨height'', state'', call, -, -, updated⟩
  · left
    have missingLe := short.trans_le (missingTables_le _ _ _)
    rw [length_tablePath] at missingLe
    exact ⟨reason, failed, missingLe, stopped⟩
  · right
    have vmmUsed := reserved.taken_used vmm_taken
    have rootUsed := reserved.taken_used root_taken
    have vmmDirect := spec.free_direct tables.valid (reserved.taken_free vmm_taken)
    have ext := reserved.toExtends.trans updated.toExtends
    rw [Set.union_empty] at ext
    exact ⟨height'', state'', call,
      { toExtends := ext
        vmm_blank := (updated.used_blank vmmUsed reserved.vmm_blank).2
        root_blank := (updated.used_blank rootUsed reserved.root_blank).2
        pml_eq := ((updated.frame vmmUsed reserved.vmm_blank).pml_eq vmmDirect.2.1).trans
          reserved.pml_eq }, updated⟩

end Reserved

theorem Updated.map_two {root : Nat} {virt virt' physical physical' : Word}
    {height'' : Nat → Option Nat} {state'' : MmState σ} (rootHeight : height root = some 3)
    (first : Updated spec root virt ((PageOp.map virt physical (ptePresent ||| pteWritable)).onEntry
      (leafPte state.ram root virt)).2 height state height' state')
    (second : Updated spec root virt'
      ((PageOp.map virt' physical' (ptePresent ||| pteWritable)).onEntry
        (leafPte state'.ram root virt')).2 height' state' height'' state'') (other : Word) :
    leafPte state''.ram root other =
      if Present (leafPte state.ram root other) then leafPte state.ram root other
      else if pageKey other = pageKey virt then physical ||| (ptePresent ||| pteWritable)
      else if pageKey other = pageKey virt' then physical' ||| (ptePresent ||| pteWritable)
      else leafPte state.ram root other := by
  rw [second.map_leafPte (first.keeps rootHeight), first.map_leafPte rootHeight]
  by_cases present : Present (leafPte state.ram root other)
  · simp only [if_pos present]
  · simp only [if_neg present]
    by_cases firstKey : pageKey other = pageKey virt
    · simp only [if_pos firstKey, if_pos (present_writable _)]
    · simp only [if_neg firstKey, if_neg present]

/-- `vmm_new` needs at most eight frames: two for the address space and three
for each of the two mappings. -/
theorem vmmNew_spec (tables : Tables spec height state)
    (kernelAt : SpaceAt spec height state kernel) :
    (∃ reason, (∃ frames, source frames = .error reason) ∧ spec.supply state.frames ≤ 7 ∧
      vmmNew hhdm source state (kernel.vmm hhdm) = .error reason) ∨
    ∃ space height' state',
      vmmNew hhdm source state (kernel.vmm hhdm) = .ok (Space.vmm hhdm space, state') ∧
      Opened spec kernel space height state height' state' ∧
      spec.supply state.frames ≤ spec.supply state'.frames + 8 ∧
      MapsPages hhdm source kernel space state state' := by
  rcases vmmAlloc_spec tables with ⟨reason, failed, short, stopped⟩ |
    ⟨space, allocated, allocEq, vmmNe, allocExt, pml, -, -, allocSame, allocSupply, middle,
      vmmFrame, rootFrame⟩
  · left
    refine ⟨reason, failed, by omega, ?_⟩
    simp only [vmmNew, stopped, panic_bind]
  have vmmFree := allocExt.taken_free Reserved.vmm_taken
  have rootFree := allocExt.taken_free Reserved.root_taken
  have vmmDirect := spec.free_direct tables.valid vmmFree
  have rootDirect := spec.free_direct tables.valid rootFree
  have reserved : Reserved spec space height state height allocated :=
    ⟨allocExt, tables.not_free vmmFree, tables.not_free rootFree, pml⟩
  rcases reserved.map tables kernelAt (space.vmm hhdm + hhdm) (space.vmm hhdm)
    (ptePresent ||| pteWritable) with
      ⟨reason, failed, short, stopped⟩ | ⟨height₁, mapped₁, call₁, reserved₁, updated₁⟩
  · left
    refine ⟨reason, failed, by omega, ?_⟩
    rw [vmmNew, allocEq, ok_bind]
    dsimp only
    rw [stopped, panic_bind]
  have supply₁ := updated₁.supply_le
  rcases reserved₁.map tables kernelAt (directPtr hhdm space.root + hhdm)
    (directPtr hhdm space.root) (ptePresent ||| pteWritable) with
      ⟨reason, failed, short, stopped⟩ | ⟨height₂, mapped₂, call₂, reserved₂, updated₂⟩
  · left
    refine ⟨reason, failed, by omega, ?_⟩
    rw [vmmNew, allocEq, ok_bind]
    dsimp only
    rw [call₁, ok_bind]
    dsimp only
    rw [reserved₁.pml_eq, stopped, panic_bind]
  have supply₂ := updated₂.supply_le
  have ext₂ := reserved₂.toExtends
  have kernelAt₂ := kernelAt.extends ext₂
  have tableNe : ∀ {page h}, height page = some h → page ≠ space.vmmPage ∧ page ≠ space.root := by
    intro page h heightEq
    have used := tables.used heightEq
    exact ⟨fun equal => used (equal ▸ vmmFree), fun equal => used (equal ▸ rootFree)⟩
  have kernelRootNe : kernel.root ≠ space.root := (tableNe kernelAt.root_height).2
  have kernelVmmNe : kernel.vmmPage ≠ space.root := by
    intro equal
    exact kernelAt.used (equal ▸ rootFree)
  obtain ⟨final, copyEq⟩ : ∃ final,
      copyEntries hhdm mapped₂ (space.vmm hhdm) (kernel.vmm hhdm) 0 512 = final := ⟨_, rfl⟩
  obtain ⟨framesEq, copySame, copied⟩ := copyEntries_spec vmmDirect.2.1
    kernelAt.direct.2.1 rootDirect.2.1 (ext₂.tables.direct kernelAt₂.root_height).2.1 vmmNe
    kernelVmmNe kernelRootNe reserved₂.pml_eq kernelAt₂.pml_eq (by omega : 0 + 512 ≤ 512) copyEq
  have copiedRow : ∀ index,
      tableStore final.ram space.root index = tableStore final.ram kernel.root index := by
    intro index
    have indexLt := index.isLt
    rw [copied index, if_pos (by omega), (copySame kernelRootNe).tableStore_eq]
  have copyExt : Extends spec {space.vmmPage, space.root} height state height₂ final := by
    refine ext₂.write_taken framesEq fun outside => copySame ?_
    rintro rfl
    exact outside ⟨Reserved.root_taken, reserved₂.root_blank⟩
  have rooted := copyExt.addRoot Reserved.root_taken reserved₂.root_blank rootDirect
    (copyExt.tables.forest.addRoot kernelAt₂.root_height reserved₂.root_blank copiedRow)
  have leaves : ∀ virt, leafPte final.ram kernel.root virt =
      if Present (leafPte state.ram kernel.root virt) then leafPte state.ram kernel.root virt
      else if pageKey virt = pageKey (space.vmm hhdm + hhdm) then
        space.vmm hhdm ||| (ptePresent ||| pteWritable)
      else if pageKey virt = pageKey (directPtr hhdm space.root + hhdm) then
        directPtr hhdm space.root ||| (ptePresent ||| pteWritable)
      else leafPte state.ram kernel.root virt := by
    intro virt
    have allocLeaf : leafPte allocated.ram kernel.root virt = leafPte state.ram kernel.root virt := by
      refine tables.leafPte_eq kernelAt.root_height (fun heightEq => ?_) virt
      exact allocSame (tableNe heightEq).1 (tableNe heightEq).2
    have copyLeaf : leafPte final.ram kernel.root virt = leafPte mapped₂.ram kernel.root virt := by
      refine ext₂.tables.leafPte_eq kernelAt₂.root_height (fun heightEq => copySame ?_) virt
      rintro rfl
      simp [reserved₂.root_blank] at heightEq
    rw [copyLeaf, updated₁.map_two (allocExt.keeps kernelAt.root_height) updated₂, allocLeaf]
  right
  refine ⟨space, _, final, ?_, ⟨rooted, ?_, copiedRow, ?_, ?_, ?_⟩, ?_,
    ⟨middle, _, vmmFrame, rootFrame⟩, leaves⟩
  · rw [vmmNew, allocEq, ok_bind]
    dsimp only
    rw [call₁, ok_bind]
    dsimp only
    rw [reserved₁.pml_eq, call₂, ok_bind]
    dsimp only
    rw [copyEq]
  · exact
      { root_height := update_self _ _ _
        direct := vmmDirect
        used := rooted.taken_used Reserved.vmm_taken
        blank := by rw [update_of_ne vmmNe, reserved₂.vmm_blank]
        pml_eq := ((copySame vmmNe).pml_eq vmmDirect.2.1).trans reserved₂.pml_eq }
  · intro page index rootHeight otherRoot
    obtain ⟨pageNeVmm, pageNeRoot⟩ := tableNe rootHeight
    rw [(copySame pageNeRoot).tableStore_eq,
      updated₂.roots (reserved₁.keeps rootHeight) (fun both => otherRoot both.1),
      updated₁.roots (allocExt.keeps rootHeight) (fun both => otherRoot both.1),
      (allocSame pageNeVmm pageNeRoot).tableStore_eq]
  · intro index firstNe secondNe
    obtain ⟨rootNeVmm, rootNeRoot⟩ := tableNe kernelAt.root_height
    rw [(copySame rootNeRoot).tableStore_eq,
      updated₂.roots (reserved₁.keeps kernelAt.root_height) (fun both => secondNe both.2),
      updated₁.roots (allocExt.keeps kernelAt.root_height) (fun both => firstNe both.2),
      (allocSame rootNeVmm rootNeRoot).tableStore_eq]
  · intro virt present
    rw [leaves, if_pos present]
  · rw [framesEq]
    omega

theorem vmmNew_returned (tables : Tables spec height state)
    (kernelAt : SpaceAt spec height state kernel) {newVmm : Word} {after : MmState σ}
    (returned : vmmNew hhdm source state (kernel.vmm hhdm) = .ok (newVmm, after)) :
    ∃ space height', newVmm = Space.vmm hhdm space ∧
      Opened spec kernel space height state height' after ∧
      MapsPages hhdm source kernel space state after := by
  rcases vmmNew_spec tables kernelAt with ⟨reason, -, -, stopped⟩ |
    ⟨space, height', state', call, opened, -, maps⟩
  · rw [stopped] at returned
    cases returned
  · rw [call] at returned
    cases returned
    exact ⟨space, height', rfl, opened, maps⟩

end Spaces

end MmdOS
