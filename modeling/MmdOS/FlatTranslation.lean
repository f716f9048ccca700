import MmdOS.AddressSpaces
import MmdOS.PhysicalFrames

/-!
# The four-level tables refine a flat map

Seen from outside, an address space is a function from 36-bit page keys to
page-table entries.  Any sequence of operations on the tables gives the same
results as on that function.
-/

namespace MmdOS

open ByteMemory
open Function (update update_self update_of_ne update_apply)

section Runs

variable {σ : Type} (hhdm : Word) (source : FrameSource σ)

def runOps (state : MmState σ) (vmm : Word) :
    List PageOp → Except Panic (List OpResult × MmState σ)
  | [] => .ok ([], state)
  | op :: ops => do
      let (result, state) ← op.run hhdm source state vmm
      let (results, state) ← runOps state vmm ops
      .ok (result :: results, state)

end Runs

/-- The same sequence on a flat map from page keys to entries. -/
def flatRun (f : Nat → Word) : List PageOp → List OpResult × (Nat → Word)
  | [] => ([], f)
  | op :: ops =>
      let call := op.onEntry (f (pageKey op.virt))
      let rest := flatRun (update f (pageKey op.virt) call.2) ops
      (call.1 :: rest.1, rest.2)

section Refinement

variable {σ : Type} {hhdm : Word} {source : FrameSource σ} {spec : FrameSpec hhdm source}
variable {height height' : Nat → Option Nat} {state state' : MmState σ} {root : Nat}

theorem Updated.own_flat {virt value : Word}
    (updated : Updated spec root virt value height state height' state')
    (rootHeight : height root = some 3) {f : Nat → Word}
    (flat : ∀ virt, leafPte state.ram root virt = f (pageKey virt)) (virt' : Word) :
    leafPte state'.ram root virt' = update f (pageKey virt) value (pageKey virt') := by
  rw [updated.own_leafPte rootHeight, update_apply, flat]

theorem runOps_flat (tables : Tables spec height state) {space : Space}
    (spaceAt : SpaceAt spec height state space) (f : Nat → Word)
    (flat : ∀ virt, leafPte state.ram space.root virt = f (pageKey virt)) (ops : List PageOp) :
    (∃ reason, (∃ frames, source frames = .error reason) ∧
      spec.supply state.frames < 3 * ops.length ∧
      runOps hhdm source state (space.vmm hhdm) ops = .error reason) ∨
    ∃ height' final, runOps hhdm source state (space.vmm hhdm) ops = .ok ((flatRun f ops).1, final) ∧
      (∀ virt, leafPte final.ram space.root virt = (flatRun f ops).2 (pageKey virt)) ∧
      Tables spec height' final ∧ SpaceAt spec height' final space := by
  induction ops generalizing state height f with
  | nil => exact Or.inr ⟨height, state, rfl, flat, tables, spaceAt⟩
  | cons op ops ih =>
      rcases pageOp_spec tables op spaceAt.root_height spaceAt.pml_eq with
        ⟨reason, failed, short, call⟩ |
        ⟨result, value, height', state', entry, call, updated⟩
      · left
        refine ⟨reason, failed, by rw [List.length_cons]; omega, ?_⟩
        simp only [runOps, call, panic_bind]
      · rw [flat] at entry
        rcases ih updated.tables (spaceAt.extends updated.toExtends) _
          (updated.own_flat spaceAt.root_height flat) with
            ⟨reason, failed, short, rest⟩ | ⟨height'', final, rest, finalFlat, finalTables⟩
        · left
          have supplyLe := updated.supply_le
          refine ⟨reason, failed, by rw [List.length_cons]; omega, ?_⟩
          simp only [runOps, call, rest, ok_bind, panic_bind]
        · right
          refine ⟨height'', final, ?_, ?_, finalTables⟩
          · simp only [runOps, call, rest, ok_bind, flatRun, entry]
          · intro virt
            rw [finalFlat, flatRun, entry]

theorem Tables.empty (valid : spec.Valid state.frames) : Tables spec (fun _ => none) state where
  valid := valid
  forest :=
    { height_le := fun heightEq => by simp at heightEq
      closed := fun heightEq => by simp at heightEq
      unique := fun heightEq => by simp at heightEq }
  used := fun heightEq => by simp at heightEq
  direct := fun heightEq => by simp at heightEq

theorem Tables.single (valid : spec.Valid state.frames)
    (rootUsed : ¬ spec.Free state.frames root) (direct : DirectMapped hhdm root)
    (zeroed : ∀ index, tableStore state.ram root index = 0#64) :
    Tables spec (update (fun _ => none) root (some 3)) state := by
  have only : ∀ {page h},
      update (fun _ : Nat => (none : Option Nat)) root (some 3) page = some h →
        page = root ∧ h = 3 := by
    intro page h heightEq
    by_cases isRoot : page = root
    · rw [isRoot, update_self, Option.some.injEq] at heightEq
      exact ⟨isRoot, heightEq.symm⟩
    · simp [update_of_ne isRoot] at heightEq
  have noChild : ∀ {page h} (index : Fin 512),
      update (fun _ : Nat => (none : Option Nat)) root (some 3) page = some h →
        entryTable (tableStore state.ram page index) = none := by
    intro page h index heightEq
    rw [(only heightEq).1, zeroed, entryTable_zero]
  refine ⟨valid, ⟨?_, ?_, ?_⟩, ?_, ?_⟩
  · intro page h heightEq
    have := (only heightEq).2
    omega
  · intro page index next h heightEq points
    simp [noChild index heightEq] at points
  · intro page page' index index' next h heightEq heightEq' points points'
    simp [noChild index heightEq] at points
  · intro page h heightEq
    rw [(only heightEq).1]
    exact rootUsed
  · intro page h heightEq
    rw [(only heightEq).1]
    exact direct

theorem SpaceAt.single {vmmPage : Nat} (vmmDirect : DirectMapped hhdm vmmPage)
    (vmmUsed : ¬ spec.Free state.frames vmmPage) (apart : vmmPage ≠ root)
    (rootPtr : state.load hhdm (pmlField (directPtr hhdm vmmPage)) = directPtr hhdm root) :
    SpaceAt spec (update (fun _ => none) root (some 3)) state ⟨vmmPage, root⟩ where
  root_height := update_self _ _ _
  direct := vmmDirect
  used := vmmUsed
  blank := update_of_ne apart _ _
  pml_eq := rootPtr

end Refinement

section MapPage

variable {σ : Type} {hhdm : Word} {source : FrameSource σ} {spec : FrameSpec hhdm source}
variable {height : Nat → Option Nat} {state : MmState σ} {space : Space}

/-- `vmm_map_page` on an address whose entry is present returns true and does
nothing. -/
theorem vmmMapPage_of_present (tables : Tables spec height state)
    (spaceAt : SpaceAt spec height state space) {virt : Word} (physical flags : Word)
    (present : Present (leafPte state.ram space.root virt)) :
    vmmMapPage hhdm source state (space.vmm hhdm) virt physical flags = .ok (true, state) := by
  cases leafEq : leafTable state.ram space.root virt with
  | none =>
      rw [leafPte_of_missing leafEq] at present
      exact absurd present (by decide)
  | some leaf =>
      have walked := walkTables_of_leafTable tables true spaceAt.root_height spaceAt.pml_eq leafEq
      have direct := tables.direct (leafTable_height tables spaceAt.root_height leafEq)
      have leafNe := directPtr_ne_zero direct.1 direct.2.2
      have entryEq := load_leaf tables spaceAt.root_height leafEq
      simp only [vmmMapPage, walked, ok_bind, if_neg leafNe, entryEq, if_pos present]

/-- A call of `vmm_map_page` that returns true has put the requested entry into
the tables exactly when the entry was not present before, or was the requested
one already. -/
theorem map_page_true_iff (tables : Tables spec height state)
    (spaceAt : SpaceAt spec height state space) (virt physical flags : Word) :
    (∀ after, vmmMapPage hhdm source state (space.vmm hhdm) virt physical flags =
        .ok (true, after) →
      leafPte after.ram space.root virt = physical ||| flags) ↔
    (Present (leafPte state.ram space.root virt) →
      leafPte state.ram space.root virt = physical ||| flags) := by
  by_cases present : Present (leafPte state.ram space.root virt)
  · rw [vmmMapPage_of_present tables spaceAt physical flags present, imp_iff_right present]
    constructor
    · intro mapped
      exact mapped state rfl
    · intro same after returned
      rw [Except.ok.injEq, Prod.mk.injEq] at returned
      rwa [← returned.2]
  · refine iff_of_true ?_ (fun isPresent => absurd isPresent present)
    intro after returned
    rcases vmmMapPage_spec tables spaceAt virt physical flags with
      ⟨reason, -, -, stopped⟩ | ⟨height', state', call, -, -, updated⟩
    · rw [stopped] at returned
      cases returned
    · rw [call, Except.ok.injEq, Prod.mk.injEq] at returned
      rw [← returned.2, updated.own_leafPte spaceAt.root_height, if_pos rfl,
        PageOp.onEntry_map_absent present]

end MapPage

section Queries

variable {σ : Type} {hhdm : Word} {source : FrameSource σ} {spec : FrameSpec hhdm source}
variable {height : Nat → Option Nat} {state : MmState σ} {space : Space}

/-- What is expected of a query that may not allocate: no frame is taken, no
table changes, the result is null when a table on the walk is missing and
otherwise the one that the allocating query gives. -/
def EffectFree (spec : FrameSpec hhdm source) (height : Nat → Option Nat) (state : MmState σ)
    (root : Nat) (virt : Word) (query : Bool → Except Panic (Word × MmState σ)) : Prop :=
  ∃ result after, query false = .ok (result, after) ∧
    (∀ page, spec.Free after.frames page ↔ spec.Free state.frames page) ∧
    (∀ page h index, height page = some h →
      tableStore after.ram page index = tableStore state.ram page index) ∧
    (leafTable state.ram root virt = none → result = 0#64) ∧
    (leafTable state.ram root virt ≠ none → ∃ after', query true = .ok (result, after'))

def WalksAllocating (state : MmState σ) (root : Nat) (virt : Word)
    (query : Bool → Except Panic (Word × MmState σ)) : Prop :=
  (leafTable state.ram root virt = none ∧ ∃ reason, ∀ alloc, query alloc = .error reason) ∨
  ∃ result after, (∀ alloc, query alloc = .ok (result, after)) ∧
    leafTable after.ram root virt ≠ none ∧
    (leafTable state.ram root virt ≠ none → after = state)

/-- Such a query has no effect exactly when no table on the walk is missing. -/
theorem WalksAllocating.effectFree_iff (tables : Tables spec height state) {root : Nat}
    {virt : Word} (rootHeight : height root = some 3)
    {query : Bool → Except Panic (Word × MmState σ)}
    (walks : WalksAllocating state root virt query) :
    EffectFree spec height state root virt query ↔ leafTable state.ram root virt ≠ none := by
  rcases walks with ⟨missing, reason, stopped⟩ | ⟨result, after, returned, reached, same⟩
  · refine iff_of_false ?_ (fun present => present missing)
    rintro ⟨result, after, returned, -⟩
    rw [stopped] at returned
    cases returned
  · constructor
    · rintro ⟨result', after', returned', -, sameRows, -, -⟩
      rw [returned, Except.ok.injEq, Prod.mk.injEq] at returned'
      rw [← returned'.2] at sameRows
      have sameTable : leafTable after.ram root virt = leafTable state.ram root virt :=
        tables.forest.descend_congr (h := 0) rootHeight fun node k index nodeHeight _ =>
          sameRows node k index nodeHeight
      rwa [← sameTable]
    · intro present
      have unchanged := same present
      subst unchanged
      exact ⟨result, after, returned false, fun _ => Iff.rfl, fun _ _ _ _ => rfl,
        fun missing => absurd missing present, fun _ => ⟨after, returned true⟩⟩

section

variable (tables : Tables spec height state) (spaceAt : SpaceAt spec height state space)
include tables spaceAt

theorem vmmVirt2pte_walks (virt : Word) :
    WalksAllocating state space.root virt
      (vmmVirt2pte hhdm source state (space.vmm hhdm) virt) := by
  rcases walkTables_alloc tables virt spaceAt.root_height spaceAt.pml_eq with
    ⟨reason, -, -, walked⟩ | ⟨height', after, leaf, walked, grows, leafEq, -, same⟩
  · refine Or.inl ⟨?_, reason, fun alloc => ?_⟩
    · by_contra present
      obtain ⟨leaf, leafEq⟩ := Option.ne_none_iff_exists'.mp present
      rw [walkTables_of_leafTable tables true spaceAt.root_height spaceAt.pml_eq leafEq] at walked
      cases walked
    · simp only [vmmVirt2pte, walked, panic_bind]
  · have leafDirect := grows.tables.direct
      (leafTable_height grows.tables (grows.keeps spaceAt.root_height) leafEq)
    have leafNe := directPtr_ne_zero leafDirect.1 leafDirect.2.2
    refine Or.inr ⟨directPtr hhdm leaf + 8#64 * lvl1Offset virt, after, fun alloc => ?_, ?_, same⟩
    · simp only [vmmVirt2pte, walked, ok_bind, if_neg leafNe]
    · rw [leafEq]
      exact Option.some_ne_none leaf

theorem vmmVirt2pte_returns {virt : Word}
    (enough : ¬ spec.supply state.frames < missingTables state.ram space.root (tablePath virt)) :
    ∃ slot after, slot ≠ 0#64 ∧
      (∀ alloc, vmmVirt2pte hhdm source state (space.vmm hhdm) virt alloc = .ok (slot, after)) ∧
      leafTable after.ram space.root virt ≠ none := by
  rcases walk_to_entry virt tables spaceAt.root_height spaceAt.pml_eq with
    ⟨reason, -, short, -⟩ | ⟨height', after, leaf, walked, -, leafNe, slotNe, -, leafEq, -⟩
  · exact absurd short enough
  · refine ⟨_, after, slotNe, fun alloc => ?_, ?_⟩
    · simp only [vmmVirt2pte, walked, ok_bind, if_neg leafNe]
    · rw [leafEq]
      exact Option.some_ne_none leaf

theorem vmmVirt2phys_walks (virt : Word) :
    WalksAllocating state space.root virt
      (vmmVirt2phys hhdm source state (space.vmm hhdm) virt) := by
  rcases vmmVirt2pte_walks tables spaceAt virt with
    ⟨missing, reason, stopped⟩ | ⟨slot, after, returned, reached, same⟩
  · refine Or.inl ⟨missing, reason, fun alloc => ?_⟩
    simp only [vmmVirt2phys, stopped, panic_bind]
  · refine Or.inr ⟨if slot = 0#64 then 0#64 else pteGetAddr (after.load hhdm slot), after,
      fun alloc => ?_, reached, same⟩
    simp only [vmmVirt2phys, returned, ok_bind]
    split <;> rfl

end

/-- A query without allocation, for the entry or for the frame of an address,
has no effect exactly when no table on the walk is missing. -/
theorem query_effect_free_iff (tables : Tables spec height state)
    (spaceAt : SpaceAt spec height state space) (virt : Word) :
    (EffectFree spec height state space.root virt
        (vmmVirt2pte hhdm source state (space.vmm hhdm) virt) ↔
      leafTable state.ram space.root virt ≠ none) ∧
    (EffectFree spec height state space.root virt
        (vmmVirt2phys hhdm source state (space.vmm hhdm) virt) ↔
      leafTable state.ram space.root virt ≠ none) :=
  ⟨(vmmVirt2pte_walks tables spaceAt virt).effectFree_iff tables spaceAt.root_height,
    (vmmVirt2phys_walks tables spaceAt virt).effectFree_iff tables spaceAt.root_height⟩

end Queries

/-- Starting from a zeroed top-level table, every sequence of operations gives
the results of the flat map and leaves its entries in the tables, unless the
frame allocator panics, which three frames for each operation prevent; and no
operation touches the entry of another page key. -/
theorem page_tables_refine_flat_map {σ : Type} {hhdm : Word} {source : FrameSource σ}
    (spec : FrameSpec hhdm source) (state : MmState σ) (vmmPage root : Nat)
    (valid : spec.Valid state.frames)
    (vmmDirect : DirectMapped hhdm vmmPage) (rootDirect : DirectMapped hhdm root)
    (apart : vmmPage ≠ root)
    (vmmUsed : ¬ spec.Free state.frames vmmPage) (rootUsed : ¬ spec.Free state.frames root)
    (rootPtr : state.load hhdm (pmlField (directPtr hhdm vmmPage)) = directPtr hhdm root)
    (zeroed : ∀ index, tableStore state.ram root index = 0#64) (ops : List PageOp) :
    (∃ reason, (∃ frames, source frames = .error reason) ∧
      spec.supply state.frames < 3 * ops.length ∧
      runOps hhdm source state (directPtr hhdm vmmPage) ops = .error reason) ∨
    ∃ final,
      runOps hhdm source state (directPtr hhdm vmmPage) ops =
        .ok ((flatRun (fun _ => 0#64) ops).1, final) ∧
      (∀ virt, leafPte final.ram root virt =
        (flatRun (fun _ => 0#64) ops).2 (pageKey virt)) ∧
      ∀ (op : PageOp) (result : OpResult) (after : MmState σ),
        op.run hhdm source final (directPtr hhdm vmmPage) = .ok (result, after) →
        ∀ virt, pageKey virt ≠ pageKey op.virt →
          leafPte after.ram root virt = leafPte final.ram root virt := by
  have tables := Tables.single valid rootUsed rootDirect zeroed
  have spaceAt := SpaceAt.single vmmDirect vmmUsed apart rootPtr
  have flat : ∀ virt, leafPte state.ram root virt = 0#64 := by
    intro virt
    apply leafPte_of_missing
    rw [leafTable_eq_bind, zeroed, entryTable_zero, Option.bind_none]
  rcases runOps_flat tables spaceAt (fun _ => 0#64) flat ops with
    failed | ⟨height', final, run, finalFlat, finalTables, finalAt⟩
  · exact Or.inl failed
  · right
    refine ⟨final, run, finalFlat, ?_⟩
    intro op result after call virt different
    rcases pageOp_spec finalTables op finalAt.root_height finalAt.pml_eq with
      ⟨reason, -, -, panicked⟩ | ⟨_, value, _, next, -, returned, updated⟩
    · rw [Space.vmm, call] at panicked
      cases panicked
    · rw [Space.vmm, call, Except.ok.injEq, Prod.mk.injEq] at returned
      rw [returned.2, updated.own_leafPte finalAt.root_height, if_neg different]

def smallSpace : MmState Pmm where
  frames :=
    { bitmap := fun byte => if byte = 0 then 7#8 else 0#8
      bitmapTopIndex := 16
      bitmapPrevIndex := 3
      topIndex_lt := by decide }
  ram := writeWord (fun _ => 0#8) 4104 (directPtr 0xffff800000000000#64 2)

theorem smallSpace_covered : smallSpace.frames.Covered 0xffff800000000000#64 :=
  ⟨⟨by decide, by decide⟩, by decide, by decide⟩

theorem smallSpace_zeroed (index : Fin 512) : tableStore smallSpace.ram 2 index = 0#64 := by
  rw [tableStore, smallSpace, readWord_writeWord_of_disjoint (by rw [pageSize]; omega)]
  simp [readWord]

theorem smallSpace_pml :
    smallSpace.load 0xffff800000000000#64
      (pmlField (directPtr 0xffff800000000000#64 1)) = directPtr 0xffff800000000000#64 2 := by
  have slot : (pmlField (directPtr 0xffff800000000000#64 1) -
      0xffff800000000000#64).toNat = 4104 := by decide
  rw [MmState.load, slot, smallSpace, readWord_writeWord_self]

theorem smallSpace_tables : Tables (pmmSpec 0xffff800000000000#64)
    (update (fun _ => none) 2 (some 3)) smallSpace :=
  Tables.single smallSpace_covered (show 2 ∉ smallSpace.frames.freeSet by decide)
    ⟨by decide, by decide, by decide⟩ smallSpace_zeroed

theorem smallSpace_at : SpaceAt (pmmSpec 0xffff800000000000#64)
    (update (fun _ => none) 2 (some 3)) smallSpace ⟨1, 2⟩ :=
  SpaceAt.single ⟨by decide, by decide, by decide⟩
    (show 1 ∉ smallSpace.frames.freeSet by decide) (by decide) smallSpace_pml

theorem smallSpace_absent (virt : Word) : leafPte smallSpace.ram 2 virt = 0#64 := by
  apply leafPte_of_missing
  rw [leafTable_eq_bind, smallSpace_zeroed, entryTable_zero, Option.bind_none]

theorem smallSpace_supply (virt : Word) :
    ¬ (pmmSpec 0xffff800000000000#64).supply smallSpace.frames <
      missingTables smallSpace.ram 2 (tablePath virt) := by
  have missingLe := missingTables_le smallSpace.ram 2 (tablePath virt)
  rw [length_tablePath] at missingLe
  have enough : 3 ≤ (pmmSpec 0xffff800000000000#64).supply smallSpace.frames :=
    show 3 ≤ smallSpace.frames.freeSet.card by decide
  omega

theorem smallSpace_map : ∃ height first,
    vmmMapPage 0xffff800000000000#64 pmmSource smallSpace (directPtr 0xffff800000000000#64 1)
        0x400000#64 0x5000#64 3#64 = .ok (true, first) ∧
    Tables (pmmSpec 0xffff800000000000#64) height first ∧
    SpaceAt (pmmSpec 0xffff800000000000#64) height first ⟨1, 2⟩ ∧
    leafPte first.ram 2 0x400000#64 = 0x5003#64 := by
  rcases vmmMapPage_spec smallSpace_tables smallSpace_at 0x400000#64 0x5000#64 3#64 with
    ⟨reason, -, short, -⟩ | ⟨height, first, call, -, -, updated⟩
  · exact absurd short (smallSpace_supply 0x400000#64)
  · refine ⟨height, first, call, updated.tables, smallSpace_at.extends updated.toExtends, ?_⟩
    rw [updated.own_leafPte smallSpace_at.root_height, if_pos rfl, smallSpace_absent]
    decide

theorem map_page_true_iff_small : ∃ after,
    vmmMapPage 0xffff800000000000#64 pmmSource smallSpace (directPtr 0xffff800000000000#64 1)
        0x400000#64 0x5000#64 3#64 = .ok (true, after) ∧
      leafPte after.ram 2 0x400000#64 = 0x5003#64 := by
  obtain ⟨-, after, call, -⟩ := smallSpace_map
  have absent : Present (leafPte smallSpace.ram 2 0x400000#64) →
      leafPte smallSpace.ram 2 0x400000#64 = 0x5000#64 ||| 3#64 := by
    rw [smallSpace_absent]
    intro present
    exact absurd present (by decide)
  exact ⟨after, call, (map_page_true_iff smallSpace_tables smallSpace_at 0x400000#64 0x5000#64
    3#64).mpr absent after call⟩

/-- Mapping another frame at the same address returns true and leaves the first
one mapped. -/
theorem map_page_true_stale : ∃ first,
    vmmMapPage 0xffff800000000000#64 pmmSource smallSpace (directPtr 0xffff800000000000#64 1)
        0x400000#64 0x5000#64 3#64 = .ok (true, first) ∧
    vmmMapPage 0xffff800000000000#64 pmmSource first (directPtr 0xffff800000000000#64 1)
        0x400000#64 0x6000#64 3#64 = .ok (true, first) ∧
    leafPte first.ram 2 0x400000#64 = 0x5003#64 := by
  obtain ⟨height, first, call, tables, spaceAt, entry⟩ := smallSpace_map
  have present : Present (leafPte first.ram 2 0x400000#64) := by
    rw [entry]
    decide
  exact ⟨first, call, vmmMapPage_of_present tables spaceAt 0x6000#64 3#64 present, entry⟩

theorem query_effect_free_iff_small : ∃ height first,
    leafPte first.ram 2 0x400000#64 = 0x5003#64 ∧
    EffectFree (pmmSpec 0xffff800000000000#64) height first 2 0x400000#64
      (vmmVirt2pte 0xffff800000000000#64 pmmSource first (directPtr 0xffff800000000000#64 1)
        0x400000#64) ∧
    EffectFree (pmmSpec 0xffff800000000000#64) height first 2 0x400000#64
      (vmmVirt2phys 0xffff800000000000#64 pmmSource first (directPtr 0xffff800000000000#64 1)
        0x400000#64) := by
  obtain ⟨height, first, -, tables, spaceAt, entry⟩ := smallSpace_map
  have reached : leafTable first.ram 2 0x400000#64 ≠ none := by
    intro missing
    rw [leafPte_of_missing missing] at entry
    cases entry
  have both := query_effect_free_iff tables spaceAt 0x400000#64
  exact ⟨height, first, entry, both.1.mpr reached, both.2.mpr reached⟩

/-- Asking an empty address space for an entry, without allocation, returns a
slot in a table that did not exist. -/
theorem query_allocates_small : ∃ slot after,
    vmmVirt2pte 0xffff800000000000#64 pmmSource smallSpace (directPtr 0xffff800000000000#64 1)
        0x400000#64 false = .ok (slot, after) ∧
      leafTable smallSpace.ram 2 0x400000#64 = none ∧ slot ≠ 0#64 ∧
      leafTable after.ram 2 0x400000#64 ≠ none := by
  have missing : leafTable smallSpace.ram 2 0x400000#64 = none := by
    rw [leafTable_eq_bind, smallSpace_zeroed, entryTable_zero, Option.bind_none]
  obtain ⟨slot, after, slotNe, returned, reached⟩ :=
    vmmVirt2pte_returns smallSpace_tables smallSpace_at (smallSpace_supply 0x400000#64)
  exact ⟨slot, after, returned false, missing, slotNe, reached⟩

theorem page_tables_refine_flat_map_small :
    ∃ final,
      runOps 0xffff800000000000#64 pmmSource smallSpace (directPtr 0xffff800000000000#64 1)
          [.map 0x400000#64 0x5000#64 3#64, .virt2phys 0x400123#64 false, .unmap 0x400000#64,
            .virt2phys 0x401000#64 true] =
        .ok ([.flag true, .phys 0x5000#64, .flag true, .phys 0#64], final) := by
  rcases page_tables_refine_flat_map (pmmSpec 0xffff800000000000#64) smallSpace 1 2
    smallSpace_covered ⟨by decide, by decide, by decide⟩ ⟨by decide, by decide, by decide⟩
    (by decide) (show 1 ∉ smallSpace.frames.freeSet by decide)
    (show 2 ∉ smallSpace.frames.freeSet by decide) smallSpace_pml smallSpace_zeroed
    [.map 0x400000#64 0x5000#64 3#64, .virt2phys 0x400123#64 false, .unmap 0x400000#64,
      .virt2phys 0x401000#64 true] with ⟨reason, -, short, -⟩ | ⟨final, run, -⟩
  · exact absurd short (by decide)
  · exact ⟨final, run⟩

end MmdOS
