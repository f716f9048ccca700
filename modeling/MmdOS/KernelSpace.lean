import MmdOS.FlatTranslation
import Mathlib.Order.Interval.Finset.Fin

/-!
# Building the kernel's address space

`vmm_init` allocates every table of the second level for the higher half,
maps the kernel's own sections, and maps the first four gigabytes of physical
memory twice: at their own addresses and through the direct map.
-/

namespace MmdOS

open ByteMemory

/-- The section bounds of the linker script, and where the boot loader put the
kernel. -/
structure KernelLayout where
  textStart : Word
  textEnd : Word
  rodataStart : Word
  rodataEnd : Word
  dataStart : Word
  dataEnd : Word
  virtualBase : Word
  physicalBase : Word

/-- A call of `vmm_map_page` with the panic that its failure leads to. -/
structure MapRequest where
  virt : Word
  physical : Word
  flags : Word
  onFailure : Panic

def MapRequest.op (request : MapRequest) : PageOp :=
  .map request.virt request.physical request.flags

/-- The values of `i` in `for (i = start; i < stop; i += PAGE_SIZE)`, for
bounds that are page aligned. -/
def pageRange (start stop : Word) : List Word :=
  (List.range ((stop.toNat - start.toNat) / pageSize)).map fun k =>
    start + BitVec.ofNat 64 (k * pageSize)

namespace KernelLayout

variable (layout : KernelLayout)

def sectionRequests (first last flags : Word) (onFailure : Panic) : List MapRequest :=
  (pageRange (alignDown first 4096#64) (alignUp last 4096#64)).map fun i =>
    ⟨i, i - layout.virtualBase + layout.physicalBase, flags, onFailure⟩

def textRequests : List MapRequest :=
  layout.sectionRequests layout.textStart layout.textEnd ptePresent .kernelText

def rodataRequests : List MapRequest :=
  layout.sectionRequests layout.rodataStart layout.rodataEnd (ptePresent ||| pteNoExecute)
    .kernelRodata

def dataRequests : List MapRequest :=
  layout.sectionRequests layout.dataStart layout.dataEnd
    (ptePresent ||| pteWritable ||| pteNoExecute) .kernelData

end KernelLayout

/-- The last loop of `vmm_init`. -/
def lowRequests (hhdm : Word) : List MapRequest :=
  (pageRange 0x1000#64 0x100000000#64).flatMap fun i =>
    [⟨i, i, ptePresent ||| pteWritable, .identityMap⟩,
      ⟨i + hhdm, i, ptePresent ||| pteWritable ||| pteNoExecute, .directMap⟩]

/-- The kernel's memory with the global `vmm_kernel` and the register `CR3`. -/
structure KernelState (σ : Type) where
  mm : MmState σ
  vmmKernel : Word
  cr3 : Word

section Init

variable {σ : Type} (hhdm : Word) (source : FrameSource σ)

/-- The loop over the top-level entries of the higher half. -/
def kernelTables (state : MmState σ) (vmmKernel : Word) :
    List Nat → Except Panic (MmState σ)
  | [] => .ok state
  | i :: rest => do
      let (table, state) ← walkPte hhdm source state
        (state.load hhdm (pmlField vmmKernel)) (BitVec.ofNat 64 i) true
      if table = 0#64 then .error .kernelPageTable
      else kernelTables state vmmKernel rest

def mapPages (state : MmState σ) (vmmKernel : Word) :
    List MapRequest → Except Panic (MmState σ)
  | [] => .ok state
  | request :: rest => do
      let (res, state) ← vmmMapPage hhdm source state vmmKernel request.virt
        request.physical request.flags
      if res = false then .error request.onFailure
      else mapPages state vmmKernel rest

def vmmSwitchPml (state : MmState σ) (vmm : Word) : Word :=
  state.load hhdm (pmlField vmm) - hhdm

def vmmInit (layout : KernelLayout) (state : MmState σ) : Except Panic (KernelState σ) := do
  let (vmmKernel, state) ← vmmAlloc hhdm source state
  let state ← kernelTables hhdm source state vmmKernel (List.range' 256 256)
  let state ← mapPages hhdm source state vmmKernel layout.textRequests
  let state ← mapPages hhdm source state vmmKernel layout.rodataRequests
  let state ← mapPages hhdm source state vmmKernel layout.dataRequests
  let state ← mapPages hhdm source state vmmKernel (lowRequests hhdm)
  .ok { mm := state, vmmKernel, cr3 := vmmSwitchPml hhdm state vmmKernel }

end Init

section Spec

variable {σ : Type} {hhdm : Word} {source : FrameSource σ} {spec : FrameSpec hhdm source}
variable {height : Nat → Option Nat} {state : MmState σ} {kernel : Space}
variable {ram : Memory} {root : Nat} {path : List (Fin 512)} {taken : Set Nat}
variable {height' : Nat → Option Nat}

theorem mapPages_append (state : MmState σ) (vmm : Word) (first second : List MapRequest) :
    mapPages hhdm source state vmm (first ++ second) =
      mapPages hhdm source state vmm first >>= fun state =>
        mapPages hhdm source state vmm second := by
  induction first generalizing state with
  | nil => rfl
  | cons request first ih =>
      cases mapped : vmmMapPage hhdm source state vmm request.virt request.physical
          request.flags with
      | error reason => simp only [List.cons_append, mapPages, mapped, panic_bind]
      | ok pair =>
          simp only [List.cons_append, mapPages, mapped, ok_bind]
          split
          · rfl
          · exact ih pair.2

theorem kernelTables_spec (tables : Tables spec height state)
    (kernelAt : SpaceAt spec height state kernel) (indices : List Nat)
    (inTable : ∀ i ∈ indices, i < 512) :
    (∃ reason, (∃ frames, source frames = .error reason) ∧
      spec.supply state.frames < indices.length ∧
      kernelTables hhdm source state (kernel.vmm hhdm) indices = .error reason) ∨
    ∃ height' final,
      kernelTables hhdm source state (kernel.vmm hhdm) indices = .ok final ∧
      Extends spec ∅ height state height' final ∧
      (∀ virt, leafPte final.ram kernel.root virt = leafPte state.ram kernel.root virt) ∧
      (∀ index : Fin 512, index.val ∈ indices → Present (tableStore final.ram kernel.root index)) ∧
      (∀ index : Fin 512, index.val ∉ indices →
        tableStore final.ram kernel.root index = tableStore state.ram kernel.root index) ∧
      spec.supply state.frames ≤ spec.supply final.frames + indices.length := by
  induction indices generalizing state height with
  | nil =>
      right
      exact ⟨height, state, rfl, Extends.refl tables, fun _ => rfl, by simp, fun _ _ => rfl,
        by simp⟩
  | cons i indices ih =>
      have offsetLt : (BitVec.ofNat 64 i).toNat < 512 := by
        have := inTable i List.mem_cons_self
        rw [BitVec.toNat_ofNat]
        omega
      rcases walkPte_alloc tables kernel.root (tableIndex (BitVec.ofNat 64 i))
        kernelAt.root_height offsetLt (fun _ => ⟨rfl, rfl⟩) with ⟨reason, failed, walked⟩ |
          ⟨height', state', next, walked, grows, points, supplyLe⟩
      · left
        refine ⟨reason, ⟨_, failed⟩, ?_, ?_⟩
        · rw [spec.supply_error tables.valid failed]
          simp
        · simp only [kernelTables, kernelAt.pml_eq, walked, panic_bind]
      have nextHeight := grows.tables.forest.closed (grows.keeps kernelAt.root_height) points
      have nextDirect := grows.tables.direct nextHeight
      have unfolded : kernelTables hhdm source state (kernel.vmm hhdm) (i :: indices) =
          kernelTables hhdm source state' (kernel.vmm hhdm) indices := by
        simp only [kernelTables, kernelAt.pml_eq, walked, ok_bind,
          if_neg (directPtr_ne_zero nextDirect.1 nextDirect.2.2)]
      rw [unfolded]
      rcases ih grows.tables (kernelAt.extends grows.toExtends)
        (fun j inRest => inTable j (List.mem_cons_of_mem i inRest)) with
          ⟨reason, failed, short, rest⟩ |
          ⟨height'', final, rest, ext, sameLeaves, present, untouched, supplyRest⟩
      · left
        exact ⟨reason, failed, by rw [List.length_cons]; omega, rest⟩
      · right
        have whole := grows.toExtends.trans ext
        rw [Set.union_empty] at whole
        have indexEq : ∀ index : Fin 512, index.val = i ↔
            index = tableIndex (BitVec.ofNat 64 i) := by
          intro index
          have := inTable i List.mem_cons_self
          rw [Fin.ext_iff, tableIndex_val offsetLt, BitVec.toNat_ofNat]
          omega
        refine ⟨height'', final, rest, whole, ?_, ?_, ?_, by rw [List.length_cons]; omega⟩
        · intro virt
          rw [sameLeaves virt]
          exact grows.lookup_eq (leafIndex virt) kernelAt.root_height
        · intro index member
          rcases List.mem_cons.mp member with here | inRest
          · rw [(indexEq index).mp here, ext.present (grows.keeps kernelAt.root_height)
              (entryTable_eq_some points).1]
            exact (entryTable_eq_some points).1
          · exact present index inRest
        · intro index notAsked
          rw [List.mem_cons, not_or] at notAsked
          rw [untouched index notAsked.2, grows.roots kernelAt.root_height
            fun both => notAsked.1 ((indexEq index).mpr both.2)]

def requestPaths (requests : List MapRequest) : Finset (List (Fin 512)) :=
  (requests.map fun request => tablePath request.virt).toFinset

/-- The paths of all tables that the requests lead through, the top-level one
among them. -/
def requestPrefixes (requests : List MapRequest) : Finset (List (Fin 512)) :=
  (requests.flatMap fun request => (tablePath request.virt).inits).toFinset

theorem requestPrefixes_cons (request : MapRequest) (requests : List MapRequest) :
    requestPrefixes (request :: requests) =
      (tablePath request.virt).inits.toFinset ∪ requestPrefixes requests := by
  simp [requestPrefixes]

theorem card_sdiff_union (paths first reached : Finset (List (Fin 512))) :
    ((first ∪ paths) \ reached).card =
      (first \ reached).card + (paths \ (first ∪ reached)).card := by
  rw [← Finset.card_union_of_disjoint]
  · congr 1
    ext path
    simp only [Finset.mem_sdiff, Finset.mem_union]
    tauto
  · rw [Finset.disjoint_left]
    intro path inFirst inRest
    simp only [Finset.mem_sdiff, Finset.mem_union] at inFirst inRest
    exact inRest.2 (.inl inFirst.1)

theorem descend_of_leafTable {virt : Word} (reached : leafTable ram root virt ≠ none)
    (isInit : path ∈ (tablePath virt).inits) :
    Radix.descend entryTable (tableStore ram) root path ≠ none := by
  obtain ⟨rest, whole⟩ := List.mem_inits _ _ |>.mp isInit
  rw [leafTable, ← whole, Radix.descend_append] at reached
  intro missing
  rw [missing, Option.bind_none] at reached
  exact reached rfl

theorem Extends.descend_ne_none {state' : MmState σ}
    (ext : Extends spec taken height state height' state') (tables : Tables spec height state)
    {node h : Nat} (nodeHeight : height node = some (path.length + h))
    (reached : Radix.descend entryTable (tableStore state.ram) node path ≠ none) :
    Radix.descend entryTable (tableStore state'.ram) node path ≠ none := by
  induction path generalizing node with
  | nil => exact Option.some_ne_none _
  | cons index path ih =>
      obtain ⟨last, lastEq⟩ := Option.ne_none_iff_exists'.mp reached
      obtain ⟨next, points, rest⟩ := Radix.descend_cons_some.mp lastEq
      have nodeHeight' : height node = some (path.length + h + 1) := by
        rw [nodeHeight, List.length_cons]
        congr 1
        omega
      have nextReached := ih (tables.forest.closed nodeHeight' points)
        (by rw [rest]; exact Option.some_ne_none last)
      rwa [Radix.descend, ext.child_eq nodeHeight' points]

theorem mapPages_spec (tables : Tables spec height state)
    (kernelAt : SpaceAt spec height state kernel) (f : Nat → Word)
    (flat : ∀ virt, leafPte state.ram kernel.root virt = f (pageKey virt))
    (reached : Finset (List (Fin 512)))
    (isReached : ∀ path ∈ reached, path.length ≤ 3 ∧
      Radix.descend entryTable (tableStore state.ram) kernel.root path ≠ none)
    (requests : List MapRequest) :
    (∃ reason, (∃ frames, source frames = .error reason) ∧
      spec.supply state.frames < (requestPrefixes requests \ reached).card ∧
      mapPages hhdm source state (kernel.vmm hhdm) requests = .error reason) ∨
    ∃ height' final,
      mapPages hhdm source state (kernel.vmm hhdm) requests = .ok final ∧
      Extends spec ∅ height state height' final ∧
      (∀ virt, leafPte final.ram kernel.root virt =
        (flatRun f (requests.map MapRequest.op)).2 (pageKey virt)) ∧
      (∀ path ∈ reached ∪ requestPrefixes requests, path.length ≤ 3 ∧
        Radix.descend entryTable (tableStore final.ram) kernel.root path ≠ none) ∧
      (∀ {page index}, height page = some 3 →
        (page = kernel.root →
          ∀ request ∈ requests, index ≠ tableIndex (lvl4Offset request.virt)) →
        tableStore final.ram page index = tableStore state.ram page index) ∧
      spec.supply state.frames ≤
        spec.supply final.frames + (requestPrefixes requests \ reached).card := by
  induction requests generalizing state height f reached with
  | nil =>
      refine Or.inr ⟨height, state, rfl, Extends.refl tables, flat, ?_, fun _ _ => rfl, by omega⟩
      intro path member
      exact isReached path (by simpa [requestPrefixes] using member)
  | cons request requests ih =>
      have missingLe := Radix.missing_le_card (fun path old => (isReached path old).2)
        (tablePath request.virt)
      have split := card_sdiff_union (requestPrefixes requests)
        (tablePath request.virt).inits.toFinset reached
      rw [← requestPrefixes_cons] at split
      rcases vmmMapPage_spec tables kernelAt request.virt request.physical request.flags with
        ⟨reason, failed, short, call⟩ | ⟨height', state', call, arrived, supplyLe, updated⟩
      · left
        rw [missingTables] at short
        exact ⟨reason, failed, by omega, by simp only [mapPages, call, panic_bind]⟩
      rw [missingTables] at supplyLe
      have kernelAt' := kernelAt.extends updated.toExtends
      have isReached' : ∀ path ∈ (tablePath request.virt).inits.toFinset ∪ reached,
          path.length ≤ 3 ∧
            Radix.descend entryTable (tableStore state'.ram) kernel.root path ≠ none := by
        intro path member
        rcases Finset.mem_union.mp member with here | old
        · have isInit := List.mem_toFinset.mp here
          have lengthLe := (List.mem_inits _ _ |>.mp isInit).length_le
          rw [length_tablePath] at lengthLe
          exact ⟨lengthLe, descend_of_leafTable arrived isInit⟩
        · obtain ⟨lengthLe, oldReached⟩ := isReached path old
          refine ⟨lengthLe, updated.toExtends.descend_ne_none tables (h := 3 - path.length) ?_
            oldReached⟩
          rw [kernelAt.root_height]
          congr 1
          omega
      have unfolded : mapPages hhdm source state (kernel.vmm hhdm) (request :: requests) =
          mapPages hhdm source state' (kernel.vmm hhdm) requests := by
        simp only [mapPages, call, ok_bind]
        rfl
      rw [unfolded]
      rcases ih updated.tables kernelAt' _ (updated.own_flat kernelAt.root_height flat) _
        isReached' with
          ⟨reason, failed, short, rest⟩ |
          ⟨height'', final, rest, ext, finalFlat, finalReached, finalRoots, supplyRest⟩
      · exact Or.inl ⟨reason, failed, by omega, rest⟩
      · right
        have whole := updated.toExtends.trans ext
        rw [Set.union_empty] at whole
        refine ⟨height'', final, rest, whole, ?_, ?_, ?_, by omega⟩
        · intro virt
          rw [finalFlat, List.map_cons, flatRun, flat]
          rfl
        · intro path member
          rw [requestPrefixes_cons, Finset.union_left_comm, ← Finset.union_assoc] at member
          exact finalReached path member
        · intro page index rootHeight untouched
          rw [finalRoots (updated.keeps rootHeight)
              fun isRoot other inRest => untouched isRoot other (List.mem_cons_of_mem _ inRest),
            updated.roots rootHeight
              fun both => untouched both.1 request List.mem_cons_self both.2]

/-- The calls of `vmm_map_page` that `vmm_init` makes, in order. -/
def KernelLayout.requests (layout : KernelLayout) (hhdm : Word) : List MapRequest :=
  layout.textRequests ++ (layout.rodataRequests ++ (layout.dataRequests ++ lowRequests hhdm))

variable (spec) in
/-- What holds of the kernel's address space from `vmm_init` on. -/
structure KernelReady (kernel : Space) (height : Nat → Option Nat) (state : MmState σ) :
    Prop where
  tables : Tables spec height state
  space_at : SpaceAt spec height state kernel
  arena_eq : state.load hhdm (arenaField (kernel.vmm hhdm)) = 0#64
  upper : ∀ index : Fin 512, 256 ≤ index.val →
    Present (tableStore state.ram kernel.root index)

theorem KernelReady.extends {state' : MmState σ} (ready : KernelReady spec kernel height state)
    (ext : Extends spec taken height state height' state') :
    KernelReady spec kernel height' state' where
  tables := ext.tables
  space_at := ready.space_at.extends ext
  arena_eq := by
    have same := ext.frame ready.space_at.used ready.space_at.blank
    exact (same.load_eq ready.space_at.direct.2.1 (by decide)).trans ready.arena_eq
  upper := by
    intro index upperHalf
    have isPresent := ready.upper index upperHalf
    rw [ext.present ready.space_at.root_height isPresent]
    exact isPresent

theorem vmmInit_eq (layout : KernelLayout) (state : MmState σ) :
    vmmInit hhdm source layout state =
      vmmAlloc hhdm source state >>= fun allocated =>
        kernelTables hhdm source allocated.2 allocated.1 (List.range' 256 256) >>= fun tabled =>
          mapPages hhdm source tabled allocated.1 (layout.requests hhdm) >>= fun mapped =>
            .ok ⟨mapped, allocated.1, vmmSwitchPml hhdm mapped allocated.1⟩ := by
  simp only [vmmInit, KernelLayout.requests, mapPages_append, bind_assoc]

section UpperPaths

local instance tableSize_neZero : NeZero 512 := ⟨by decide⟩

/-- The paths of the top-level table and of the second-level tables of the
higher half. -/
def upperPaths : Finset (List (Fin 512)) :=
  insert [] ((Finset.Ici (256 : Fin 512)).image fun index => [index])

end UpperPaths

theorem card_upperPaths : upperPaths.card = 257 := by
  rw [upperPaths, Finset.card_insert_of_notMem (by simp),
    Finset.card_image_of_injective _ fun first second same => by simpa using same, Fin.card_Ici]
  rfl

theorem upperPaths_reached
    (upper : ∀ index : Fin 512, 256 ≤ index.val → Present (tableStore ram root index))
    (member : path ∈ upperPaths) :
    path.length ≤ 3 ∧ Radix.descend entryTable (tableStore ram) root path ≠ none := by
  rcases Finset.mem_insert.mp member with rfl | inUpper
  · exact ⟨by simp, Option.some_ne_none root⟩
  · obtain ⟨index, inHalf, rfl⟩ := Finset.mem_image.mp inUpper
    have isPresent := upper index (Fin.le_def.mp (Finset.mem_Ici.mp inHalf))
    have linked : entryTable (tableStore ram root index) ≠ none :=
      fun absent => entryTable_eq_none_iff.mp absent isPresent
    obtain ⟨next, points⟩ := Option.ne_none_iff_exists'.mp linked
    refine ⟨by simp, ?_⟩
    rw [Radix.descend, points]
    exact Option.some_ne_none next

/-- The number of frames that `vmm_init` takes: one for `vmm_kernel` and one for
every page table. -/
def KernelLayout.bootFrames (layout : KernelLayout) (hhdm : Word) : Nat :=
  1 + (upperPaths ∪ requestPrefixes (layout.requests hhdm)).card

theorem KernelLayout.bootFrames_eq (layout : KernelLayout) (hhdm : Word) :
    layout.bootFrames hhdm = 258 + (requestPrefixes (layout.requests hhdm) \ upperPaths).card := by
  have card := Finset.card_union_of_disjoint
    (Finset.disjoint_sdiff : Disjoint upperPaths
      (requestPrefixes (layout.requests hhdm) \ upperPaths))
  rw [Finset.union_sdiff_self_eq_union, card_upperPaths] at card
  rw [bootFrames, card]
  omega

/-- `vmm_init` returns when there are `bootFrames` free frames, and takes no
more than these. -/
theorem vmmInit_spec (valid : spec.Valid state.frames) (layout : KernelLayout) :
    (∃ reason, (∃ frames, source frames = .error reason) ∧
      spec.supply state.frames < layout.bootFrames hhdm ∧
      vmmInit hhdm source layout state = .error reason) ∨
    ∃ kernel height world, vmmInit hhdm source layout state = .ok world ∧
      world.vmmKernel = Space.vmm hhdm kernel ∧ world.cr3 = pageAddress kernel.root ∧
      KernelReady spec kernel height world.mm ∧
      Extends spec {kernel.vmmPage, kernel.root} (fun _ => none) state height world.mm ∧
      (∀ virt, leafPte world.mm.ram kernel.root virt =
        (flatRun (fun _ => 0#64) ((layout.requests hhdm).map MapRequest.op)).2 (pageKey virt)) ∧
      (∀ path ∈ upperPaths ∪ requestPrefixes (layout.requests hhdm), path.length ≤ 3 ∧
        Radix.descend entryTable (tableStore world.mm.ram) kernel.root path ≠ none) ∧
      (∀ index : Fin 512, index.val < 256 →
        (∀ request ∈ layout.requests hhdm, index ≠ tableIndex (lvl4Offset request.virt)) →
        tableStore world.mm.ram kernel.root index = 0#64) ∧
      spec.supply state.frames ≤ spec.supply world.mm.frames + layout.bootFrames hhdm := by
  have boot := layout.bootFrames_eq hhdm
  rw [vmmInit_eq]
  rcases vmmAlloc_spec (Tables.empty valid) with ⟨reason, failed, short, stopped⟩ |
    ⟨kernel, allocated, allocEq, vmmNe, allocExt, pml, arena, blankRow, -, allocSupply, -⟩
  · left
    exact ⟨reason, failed, by omega, by rw [stopped, panic_bind]⟩
  have vmmTaken : kernel.vmmPage ∈ ({kernel.vmmPage, kernel.root} : Set Nat) :=
    Set.mem_insert _ _
  have rootTaken : kernel.root ∈ ({kernel.vmmPage, kernel.root} : Set Nat) :=
    Set.mem_insert_of_mem _ (Set.mem_singleton _)
  have vmmDirect := spec.free_direct valid (allocExt.taken_free vmmTaken)
  have rootDirect := spec.free_direct valid (allocExt.taken_free rootTaken)
  have rooted := allocExt.addRoot rootTaken rfl rootDirect (Tables.single allocExt.tables.valid
    (allocExt.taken_used rootTaken) rootDirect blankRow).forest
  have kernelAt : SpaceAt spec (Function.update (fun _ => none) kernel.root (some 3)) allocated
      kernel :=
    { root_height := Function.update_self _ _ _
      direct := vmmDirect
      used := rooted.taken_used vmmTaken
      blank := Function.update_of_ne vmmNe _ _
      pml_eq := pml }
  have blankSpace : ∀ virt, leafPte allocated.ram kernel.root virt = 0#64 := by
    intro virt
    apply leafPte_of_missing
    rw [leafTable_eq_bind, blankRow, entryTable_zero, Option.bind_none]
  rw [allocEq, ok_bind]
  dsimp only
  rcases kernelTables_spec rooted.tables kernelAt (List.range' 256 256)
    (fun i member => by rw [List.mem_range'_1] at member; omega) with
      ⟨reason, failed, short, stopped⟩ |
      ⟨height₁, tabled, tabledEq, tabledExt, sameLeaves, present, untouched, tabledSupply⟩
  · left
    rw [List.length_range'] at short
    exact ⟨reason, failed, by omega, by rw [stopped, panic_bind]⟩
  rw [List.length_range'] at tabledSupply
  have kernelAt₁ := kernelAt.extends tabledExt
  have upper : ∀ index : Fin 512, 256 ≤ index.val →
      Present (tableStore tabled.ram kernel.root index) := by
    intro index upperHalf
    have := index.isLt
    apply present
    rw [List.mem_range'_1]
    omega
  rw [tabledEq, ok_bind]
  rcases mapPages_spec tabledExt.tables kernelAt₁ (fun _ => 0#64)
    (fun virt => (sameLeaves virt).trans (blankSpace virt)) upperPaths
    (fun path member => upperPaths_reached upper member) (layout.requests hhdm) with
      ⟨reason, failed, short, stopped⟩ |
      ⟨height₂, final, mapEq, mapExt, flat, reached, rows, mapSupply⟩
  · left
    exact ⟨reason, failed, by omega, by rw [stopped, panic_bind]⟩
  right
  have tail := tabledExt.trans mapExt
  have whole := rooted.trans tail
  rw [Set.union_empty, Set.union_empty] at whole
  have finalAt := kernelAt.extends tail
  refine ⟨kernel, height₂, ⟨final, kernel.vmm hhdm, vmmSwitchPml hhdm final (kernel.vmm hhdm)⟩,
    by rw [mapEq, ok_bind], rfl, ?_, ?_, whole, flat, reached, ?_, by dsimp only; omega⟩
  · rw [vmmSwitchPml, finalAt.pml_eq, directPtr, BitVec.add_sub_cancel]
  · refine ⟨mapExt.tables, finalAt, ?_, ?_⟩
    · have same := tail.frame kernelAt.used kernelAt.blank
      exact (same.load_eq vmmDirect.2.1 (by decide)).trans arena
    · intro index upperHalf
      have isPresent := upper index upperHalf
      rw [mapExt.present kernelAt₁.root_height isPresent]
      exact isPresent
  · intro index lowerHalf notAsked
    rw [rows kernelAt₁.root_height fun _ => notAsked, untouched, blankRow]
    rw [List.mem_range'_1]
    omega

end Spec

end MmdOS
