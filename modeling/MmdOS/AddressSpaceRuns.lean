import MmdOS.KernelMap
import Mathlib.Data.List.Nodup
import Mathlib.Logic.Relation

/-!
# Runs over several address spaces

After `vmm_init`, address spaces are created by `vmm_new` and changed by calls
on any of them.  Their top-level tables are the roots of one forest.  The
entries of the higher half are present from the start and therefore never
replaced, so all roots keep the same ones; below the lower half two spaces
share a table exactly when both top-level entries point to it.
-/

namespace MmdOS

open ByteMemory

section Translation

variable {σ : Type} (hhdm : Word) (state : MmState σ)

def vmmTopEntry (vmm virt : Word) : Word :=
  topEntry state.ram (vmmRoot hhdm state vmm) virt

def SharesTable (vmm vmm' virt : Word) : Prop :=
  Present (vmmTopEntry hhdm state vmm virt) ∧ Present (vmmTopEntry hhdm state vmm' virt) ∧
    pteGetAddr (vmmTopEntry hhdm state vmm virt) = pteGetAddr (vmmTopEntry hhdm state vmm' virt)

end Translation

def PageOp.Changes : PageOp → Word → Prop
  | .map _ physical flags, pte => ¬ Present pte ∧ physical ||| flags ≠ pte
  | .unmap _, pte => Present pte
  | .changeFlag _ flags, pte => Present pte ∧ pteGetAddr pte ||| flags ≠ pte
  | .virt2phys _ _, _ => False

structure SpaceHistory (σ : Type) where
  kernel : KernelState σ
  spaces : List Word

inductive SpaceStep {σ : Type} (hhdm : Word) (source : FrameSource σ) :
    SpaceHistory σ → SpaceHistory σ → Prop
  | new {history : SpaceHistory σ} {newVmm : Word} {mm : MmState σ}
      (created : vmmNew hhdm source history.kernel.mm history.kernel.vmmKernel =
        .ok (newVmm, mm)) :
      SpaceStep hhdm source history ⟨{ history.kernel with mm }, newVmm :: history.spaces⟩
  | op {history : SpaceHistory σ} {vmm : Word} {mm : MmState σ} (op : PageOp)
      (result : OpResult)
      (isSpace : vmm = history.kernel.vmmKernel ∨ vmm ∈ history.spaces)
      (call : op.run hhdm source history.kernel.mm vmm = .ok (result, mm)) :
      SpaceStep hhdm source history ⟨{ history.kernel with mm }, history.spaces⟩

theorem PageOp.onEntry_ne_iff (op : PageOp) (pte : Word) :
    (op.onEntry pte).2 ≠ pte ↔ op.Changes pte := by
  cases op with
  | map virt physical flags =>
      by_cases present : Present pte
      · simp [onEntry, Changes, present]
      · simp [onEntry, Changes, present]
  | unmap virt =>
      by_cases present : Present pte
      · have nonzero : (0#64 : Word) ≠ pte := by
          rintro rfl
          exact absurd present (by decide)
        simp [onEntry, Changes, present, nonzero]
      · simp [onEntry, Changes, present]
  | changeFlag virt flags =>
      by_cases present : Present pte
      · simp [onEntry, Changes, present]
      · simp [onEntry, Changes, present]
  | virt2phys virt alloc => simp [onEntry, Changes]

section Sharing

variable {σ : Type} {hhdm : Word} {source : FrameSource σ} {spec : FrameSpec hhdm source}
variable {height height' : Nat → Option Nat} {state state' : MmState σ}
variable {second root root' : Nat} {value : Word}

theorem entryTable_eq_iff {first second : Word} (present : Present first) :
    entryTable second = entryTable first ↔
      Present second ∧ pteGetAddr first = pteGetAddr second := by
  constructor
  · intro equal
    cases points : entryTable first with
    | none => exact absurd present (entryTable_eq_none_iff.mp points)
    | some page =>
        rw [points] at equal
        obtain ⟨secondPresent, secondAddr, -⟩ := entryTable_eq_some equal
        obtain ⟨-, firstAddr, -⟩ := entryTable_eq_some points
        exact ⟨secondPresent, firstAddr.trans secondAddr.symm⟩
  · rintro ⟨secondPresent, addrEq⟩
    rw [entryTable, entryTable, if_pos present, if_pos secondPresent, addrEq]

theorem SpaceAt.sharesTable_iff {own other : Space} (ownAt : SpaceAt spec height state own)
    (tables : Tables spec height state) (otherAt : SpaceAt spec height state other)
    {virt : Word} :
    (Present (topEntry state.ram own.root virt) ∧
      entryTable (topEntry state.ram other.root virt) =
        entryTable (topEntry state.ram own.root virt)) ↔
      SharesTable hhdm state (own.vmm hhdm) (other.vmm hhdm) virt := by
  rw [SharesTable, vmmTopEntry, vmmTopEntry, ownAt.vmmRoot_eq tables, otherAt.vmmRoot_eq tables]
  constructor
  · rintro ⟨present, shared⟩
    exact ⟨present, (entryTable_eq_iff present).mp shared⟩
  · rintro ⟨present, shared⟩
    exact ⟨present, (entryTable_eq_iff present).mpr shared⟩

theorem Updated.apart {virt : Word}
    (updated : Updated spec root virt value height state height' state')
    (tables : Tables spec height state) (rootHeight : height root = some 3)
    (rootHeight' : height root' = some 3) (rootNe : root' ≠ root)
    (notShared : ¬(Present (topEntry state.ram root virt) ∧
      entryTable (topEntry state.ram root' virt) = entryTable (topEntry state.ram root virt)))
    (virt' : Word) :
    leafPte state'.ram root' virt' = leafPte state.ram root' virt' := by
  have otherTop : topEntry state'.ram root' virt = topEntry state.ram root' virt :=
    updated.roots rootHeight' (fun both => rootNe both.1)
  rw [updated.leafPte_eq virt' rootHeight']
  split
  · next both =>
    obtain ⟨keyEq, shared⟩ := both
    rw [otherTop] at shared
    have absent : entryTable (topEntry state.ram root virt) = none := by
      rw [entryTable_eq_none_iff]
      intro present
      have kept : topEntry state'.ram root virt = topEntry state.ram root virt :=
        updated.present rootHeight present
      rw [kept] at shared
      exact notShared ⟨present, shared⟩
    cases points : entryTable (topEntry state'.ram root virt) with
    | none =>
        -- nothing was allocated, so both spaces still have no entry there
        have ownMissing : leafPte state'.ram root virt = 0#64 := by
          apply leafPte_of_missing
          rw [leafTable_eq_bind]
          rw [topEntry] at points
          rw [points, Option.bind_none]
        have otherMissing : leafPte state.ram root' virt' = 0#64 := by
          rw [points] at shared
          rw [leafPte_congr keyEq rfl]
          apply leafPte_of_missing
          rw [leafTable_eq_bind]
          rw [topEntry] at shared
          rw [shared, Option.bind_none]
        rw [updated.own_leafPte rootHeight, if_pos rfl] at ownMissing
        rw [ownMissing, otherMissing]
    | some next =>
        have fresh := updated.child_fresh rootHeight absent points
        rw [points] at shared
        have known := tables.forest.closed rootHeight' shared
        simp [fresh] at known
  · rfl

theorem Updated.shared {virt : Word}
    (updated : Updated spec root virt value height state height' state')
    (rootHeight : height root = some 3) (rootHeight' : height root' = some 3)
    (present : Present (topEntry state.ram root virt))
    (shared : entryTable (topEntry state.ram root' virt) =
      entryTable (topEntry state.ram root virt)) :
    leafPte state'.ram root' virt = value ∧
      leafPte state.ram root' virt = leafPte state.ram root virt := by
  have present' : Present (topEntry state.ram root' virt) :=
    ((entryTable_eq_iff present).mp shared).1
  have kept : topEntry state'.ram root virt = topEntry state.ram root virt :=
    updated.present rootHeight present
  have kept' : topEntry state'.ram root' virt = topEntry state.ram root' virt :=
    updated.present rootHeight' present'
  refine ⟨?_, leafPte_congr rfl shared⟩
  rw [updated.leafPte_eq virt rootHeight', kept, kept', if_pos ⟨rfl, shared⟩]

/-- An operation leaves another space alone unless it changes an entry of a
table that the other space shares. -/
theorem Updated.unchanged_iff {virt : Word}
    (updated : Updated spec root virt value height state height' state')
    (tables : Tables spec height state) (rootHeight : height root = some 3)
    (rootHeight' : height root' = some 3) (rootNe : root' ≠ root) (half : Word → Prop)
    (inHalf : half virt) :
    (∀ virt', half virt' → leafPte state'.ram root' virt' = leafPte state.ram root' virt') ↔
      ¬(value ≠ leafPte state.ram root virt ∧ Present (topEntry state.ram root virt) ∧
        entryTable (topEntry state.ram root' virt) =
          entryTable (topEntry state.ram root virt)) := by
  constructor
  · rintro unchanged ⟨changes, present, shared⟩
    obtain ⟨after, before⟩ := updated.shared rootHeight rootHeight' present shared
    have same := unchanged virt inHalf
    rw [after, before] at same
    exact changes same
  · intro harmless virt' _
    by_cases shares : Present (topEntry state.ram root virt) ∧
        entryTable (topEntry state.ram root' virt) = entryTable (topEntry state.ram root virt)
    · have valueEq : value = leafPte state.ram root virt := by
        by_contra changes
        exact harmless ⟨changes, shares⟩
      obtain ⟨after, before⟩ := updated.shared rootHeight rootHeight' shares.1 shares.2
      by_cases keyEq : pageKey virt' = pageKey virt
      · rw [leafPte_congr keyEq rfl, leafPte_congr keyEq rfl, after, before, valueEq]
      · rw [updated.leafPte_eq virt' rootHeight', if_neg (fun both => keyEq both.1)]
    · exact updated.apart tables rootHeight rootHeight' rootNe shares virt'

theorem nodup_cons_cons {first : Nat} {rest : List Nat} (nodup : (first :: rest).Nodup)
    (fresh : second ∉ first :: rest) : (first :: second :: rest).Nodup := by
  simp only [List.nodup_cons, List.mem_cons, not_or] at nodup fresh ⊢
  exact ⟨⟨fun same => fresh.1 same.symm, nodup.1⟩, fresh.2, nodup.2⟩

theorem directPtr_inj {first : Nat} (firstDirect : DirectMapped hhdm first)
    (secondDirect : DirectMapped hhdm second) (same : directPtr hhdm first = directPtr hhdm second) :
    first = second := by
  have values := congrArg BitVec.toNat same
  rw [directPtr_toNat firstDirect.2.2, directPtr_toNat secondDirect.2.2, pageSize] at values
  omega

variable (spec) in
/-- The invariant of a run: `kernel` and `others` are the address spaces of the
history, their top-level tables are different pages, and these agree on the
higher half. -/
structure SpaceHistory.Forked (height : Nat → Option Nat) (kernel : Space)
    (others : List Space) (history : SpaceHistory σ) : Prop where
  ready : KernelReady spec kernel height history.kernel.mm
  kernel_eq : history.kernel.vmmKernel = kernel.vmm hhdm
  spaces_eq : history.spaces = others.map (Space.vmm hhdm)
  each : ∀ space ∈ others, SpaceAt spec height history.kernel.mm space
  roots_nodup : ((kernel :: others).map Space.root).Nodup
  vmmPages_nodup : ((kernel :: others).map Space.vmmPage).Nodup
  upper_eq : ∀ space ∈ others, ∀ index : Fin 512, 256 ≤ index.val →
    tableStore history.kernel.mm.ram space.root index =
      tableStore history.kernel.mm.ram kernel.root index

namespace SpaceHistory

variable {kernel : Space} {others : List Space} {history : SpaceHistory σ}

section

variable (forked : history.Forked spec height kernel others)
variable {space : Space}
include forked

theorem Forked.space_at (inSpaces : space ∈ kernel :: others) :
    SpaceAt spec height history.kernel.mm space := by
  rcases List.mem_cons.mp inSpaces with rfl | inOthers
  · exact forked.ready.space_at
  · exact forked.each space inOthers

theorem Forked.space_of_mem {vmm : Word}
    (isSpace : vmm = history.kernel.vmmKernel ∨ vmm ∈ history.spaces) :
    ∃ space ∈ kernel :: others, vmm = space.vmm hhdm ∧
      SpaceAt spec height history.kernel.mm space := by
  rcases isSpace with rfl | member
  · exact ⟨kernel, List.mem_cons_self, forked.kernel_eq, forked.ready.space_at⟩
  · rw [forked.spaces_eq] at member
    obtain ⟨space, inOthers, rfl⟩ := List.mem_map.mp member
    exact ⟨space, List.mem_cons_of_mem kernel inOthers, rfl, forked.each space inOthers⟩

theorem Forked.root_ne_kernel (inOthers : space ∈ others) :
    space.root ≠ kernel.root := by
  intro same
  have outside := (List.nodup_cons.mp forked.roots_nodup).1
  exact outside (List.mem_map.mpr ⟨space, inOthers, same⟩)

theorem Forked.extends {mm : MmState σ} {taken : Set Nat}
    (ext : Extends spec taken height history.kernel.mm height' mm) :
    Forked spec height' kernel others ⟨{ history.kernel with mm }, history.spaces⟩ where
  ready := forked.ready.extends ext
  kernel_eq := forked.kernel_eq
  spaces_eq := forked.spaces_eq
  each := fun space inOthers => (forked.each space inOthers).extends ext
  roots_nodup := forked.roots_nodup
  vmmPages_nodup := forked.vmmPages_nodup
  upper_eq := by
    intro space inOthers index upperHalf
    have agree := forked.upper_eq space inOthers index upperHalf
    have kernelPresent := forked.ready.upper index upperHalf
    have spacePresent := kernelPresent
    rw [← agree] at spacePresent
    rw [ext.present (forked.each space inOthers).root_height spacePresent,
      ext.present forked.ready.space_at.root_height kernelPresent, agree]

theorem Forked.new {mm : MmState σ}
    (opened : Opened spec kernel space height history.kernel.mm height' mm) :
    Forked spec height' kernel (space :: others)
      ⟨{ history.kernel with mm }, space.vmm hhdm :: history.spaces⟩ where
  ready := forked.ready.extends opened.toExtends
  kernel_eq := forked.kernel_eq
  spaces_eq := by rw [forked.spaces_eq, List.map_cons]
  each := by
    intro other member
    rcases List.mem_cons.mp member with rfl | inOthers
    · exact opened.space_at
    · exact (forked.each other inOthers).extends opened.toExtends
  roots_nodup := by
    refine nodup_cons_cons forked.roots_nodup fun member => ?_
    rw [← List.map_cons] at member
    obtain ⟨other, inSpaces, same⟩ := List.mem_map.mp member
    have rootHeight := (forked.space_at inSpaces).root_height
    rw [same] at rootHeight
    exact forked.ready.tables.used rootHeight (opened.taken_free (by simp))
  vmmPages_nodup := by
    refine nodup_cons_cons forked.vmmPages_nodup fun member => ?_
    rw [← List.map_cons] at member
    obtain ⟨other, inSpaces, same⟩ := List.mem_map.mp member
    have used := (forked.space_at inSpaces).used
    rw [same] at used
    exact used (opened.taken_free (by simp))
  upper_eq := by
    intro other member index upperHalf
    rcases List.mem_cons.mp member with rfl | inOthers
    · exact opened.copied index
    · rw [opened.roots (forked.each other inOthers).root_height
          (forked.root_ne_kernel inOthers),
        opened.present forked.ready.space_at.root_height (forked.ready.upper index upperHalf)]
      exact forked.upper_eq other inOthers index upperHalf

end

theorem Forked.step {next : SpaceHistory σ} (forked : history.Forked spec height kernel others)
    (step : SpaceStep hhdm source history next) :
    ∃ height' others', next.Forked spec height' kernel others' := by
  cases step with
  | new created =>
      rw [forked.kernel_eq] at created
      obtain ⟨space, height', rfl, opened, -⟩ :=
        vmmNew_returned forked.ready.tables forked.ready.space_at created
      exact ⟨height', space :: others, forked.new opened⟩
  | op op result isSpace call =>
      obtain ⟨space, -, rfl, spaceAt⟩ := forked.space_of_mem isSpace
      obtain ⟨value, height', -, updated⟩ :=
        pageOp_returned forked.ready.tables spaceAt.root_height spaceAt.pml_eq call
      exact ⟨height', others, forked.extends updated.toExtends⟩

theorem forked_of_run {layout : KernelLayout} {start : KernelState σ} {final : SpaceHistory σ}
    (valid : spec.Valid state.frames) (booted : vmmInit hhdm source layout state = .ok start)
    (run : Relation.ReflTransGen (SpaceStep hhdm source) ⟨start, []⟩ final) :
    ∃ height kernel others, final.Forked spec height kernel others := by
  induction run with
  | refl =>
      rcases vmmInit_spec valid layout with ⟨reason, -, -, stopped⟩ |
        ⟨kernel, height, world, returned, kernelEq, -, ready, -, -, -⟩
      · rw [stopped] at booted
        cases booted
      · rw [returned] at booted
        cases booted
        exact ⟨height, kernel, [], ready, kernelEq, rfl, by simp, by simp, by simp, by simp⟩
  | tail _ step ih =>
      obtain ⟨height, kernel, others, forked⟩ := ih
      obtain ⟨height', others', next⟩ := forked.step step
      exact ⟨height', kernel, others', next⟩

end SpaceHistory

end Sharing

/-- Twice the offset of the direct map is zero but for the highest bits. -/
theorem machine_row_ne {page : Nat} (pageLt : page < 32768) :
    tableIndex (lvl4Offset 0x400000000000#64) ≠
      tableIndex (lvl4Offset (directPtr machineHhdm page + machineHhdm)) := by
  have value : (directPtr machineHhdm page + machineHhdm).toNat =
      page * 4096 + 0xffff000000000000 := by
    rw [BitVec.toNat_add, directPtr_value (by decide) (by omega), pageSize]
    change (page * 4096 + 0xffff800000000000 + 0xffff800000000000) % 2 ^ 64 = _
    omega
  rw [Ne, Fin.ext_iff, tableIndex_val (lvl4Offset_lt _), tableIndex_val (lvl4Offset_lt _),
    lvl4Offset, lvl4Offset, lvlOffset_toNat (by decide) (directPtr machineHhdm page + machineHhdm),
    value]
  change ¬128 = _
  omega

/-- The machine with two address spaces.  All three top-level tables share the
table of the identity map, and none has an entry for the address 2^46. -/
theorem machine_two_spaces : ∃ pmm start history kernel first second height,
    pmmInit machineMap machineHhdm (fun _ => 0#8) 4 = some (.ok pmm) ∧
    (MmState.mk pmm fun _ => 0#8).frames.Covered machineHhdm ∧
    vmmInit machineHhdm pmmSource machineLayout ⟨pmm, fun _ => 0#8⟩ = .ok start ∧
    Relation.ReflTransGen (SpaceStep machineHhdm pmmSource) ⟨start, []⟩ history ∧
    SpaceHistory.Forked (pmmSpec machineHhdm) height kernel [second, first] history ∧
    Space.vmm machineHhdm first ≠ Space.vmm machineHhdm second ∧
    leafPte history.kernel.mm.ram kernel.root 0x1000#64 = 0x1003#64 ∧
    Present (topEntry history.kernel.mm.ram kernel.root 0x1000#64) ∧
    topEntry history.kernel.mm.ram first.root 0x1000#64 =
      topEntry history.kernel.mm.ram kernel.root 0x1000#64 ∧
    topEntry history.kernel.mm.ram second.root 0x1000#64 =
      topEntry history.kernel.mm.ram kernel.root 0x1000#64 ∧
    (∀ space ∈ [kernel, second, first],
      topEntry history.kernel.mm.ram space.root 0x400000000000#64 = 0#64) ∧
    3 ≤ (pmmSpec machineHhdm).supply history.kernel.mm.frames := by
  obtain ⟨pmm, kernel, height, start, booted, -, covered, vmmBooted, kernelEq, ready, flat, rows,
    below, supply⟩ := machine_boots
  have forked₀ : SpaceHistory.Forked (pmmSpec machineHhdm) height kernel [] ⟨start, []⟩ :=
    ⟨ready, kernelEq, rfl, by simp, by simp, by simp, by simp⟩
  have entry : leafPte start.mm.ram kernel.root 0x1000#64 = 0x1003#64 := by
    have identity := machineLayout_separate.identity_entry (le_refl 1) (by decide)
    rw [show pageAddress 1 = 0x1000#64 from by decide] at identity
    rw [flat, identity]
    decide
  have present : Present (leafPte start.mm.ram kernel.root 0x1000#64) := by
    rw [entry]
    decide
  have topPresent : Present (topEntry start.mm.ram kernel.root 0x1000#64) := by
    by_contra absent
    rw [leafPte_of_missing] at present
    · exact absurd present (by decide)
    · rw [leafTable_eq_bind]
      rw [topEntry, ← entryTable_eq_none_iff] at absent
      rw [absent, Option.bind_none]
  rcases vmmNew_spec ready.tables ready.space_at with ⟨reason, -, short, -⟩ |
    ⟨first, height₁, mm₁, created₁, opened₁, supply₁, -⟩
  · omega
  have forked₁ := forked₀.new opened₁
  rcases vmmNew_spec forked₁.ready.tables forked₁.ready.space_at with ⟨reason, -, short, -⟩ |
    ⟨second, height₂, mm₂, created₂, opened₂, supply₂, -⟩
  · dsimp only at short
    omega
  have forked₂ := forked₁.new opened₂
  have kernelTop₁ : topEntry mm₁.ram kernel.root 0x1000#64 =
      topEntry start.mm.ram kernel.root 0x1000#64 :=
    opened₁.present ready.space_at.root_height topPresent
  have topPresent₁ : Present (topEntry mm₁.ram kernel.root 0x1000#64) := by rwa [kernelTop₁]
  have kernelTop₂ : topEntry mm₂.ram kernel.root 0x1000#64 =
      topEntry mm₁.ram kernel.root 0x1000#64 :=
    opened₂.present forked₁.ready.space_at.root_height topPresent₁
  have firstTop₂ : topEntry mm₂.ram first.root 0x1000#64 =
      topEntry mm₁.ram first.root 0x1000#64 :=
    opened₂.roots opened₁.space_at.root_height (forked₁.root_ne_kernel List.mem_cons_self)
  have entry₁ := opened₁.mapped present
  have present₁ : Present (leafPte mm₁.ram kernel.root 0x1000#64) := by rwa [entry₁]
  -- `vmm_new` changes only the first top-level entry of the kernel.
  have kernelRow₁ : topEntry mm₁.ram kernel.root 0x400000000000#64 = 0#64 := by
    rw [topEntry, opened₁.kernel_row
      (machine_row_ne (below _ (opened₁.taken_free (by simp))))
      (machine_row_ne (below _ (opened₁.taken_free (by simp))))]
    exact rows _ (by decide) (by decide)
  have free₁ : ∀ page ∈ mm₁.frames.freeSet, page < 32768 :=
    fun page free => below page ((opened₁.free_iff page).mp free).1
  have kernelRow₂ : topEntry mm₂.ram kernel.root 0x400000000000#64 = 0#64 := by
    rw [topEntry, opened₂.kernel_row
      (machine_row_ne (free₁ _ (opened₂.taken_free (by simp))))
      (machine_row_ne (free₁ _ (opened₂.taken_free (by simp))))]
    exact kernelRow₁
  refine ⟨pmm, start, _, kernel, first, second, height₂, booted, covered, vmmBooted, ?_, forked₂,
    ?_, ?_, ?_, ?_, ?_, ?_, ?_⟩
  · refine (Relation.ReflTransGen.single (SpaceStep.new ?_)).tail (SpaceStep.new ?_)
    · rw [kernelEq]
      exact created₁
    · rw [kernelEq]
      exact created₂
  · intro same
    have samePage := directPtr_inj opened₁.space_at.direct opened₂.space_at.direct same
    have nodup := forked₂.vmmPages_nodup
    simp [samePage] at nodup
  · rw [opened₂.mapped present₁, entry₁, entry]
  · rwa [kernelTop₂]
  · rw [firstTop₂, kernelTop₂]
    exact opened₁.copied _
  · exact opened₂.copied _
  · intro space member
    simp only [List.mem_cons, List.not_mem_nil, or_false] at member
    rcases member with rfl | rfl | rfl
    · exact kernelRow₂
    · exact (opened₂.copied _).trans kernelRow₂
    · rw [topEntry, opened₂.roots opened₁.space_at.root_height
        (forked₁.root_ne_kernel List.mem_cons_self)]
      exact (opened₁.copied _).trans kernelRow₁
  · dsimp only at supply₂ ⊢
    omega

/-- The page-table entries of the higher half are the same in every address
space, at every point of every run. -/
theorem kernel_half_agreement {hhdm : Word} {layout : KernelLayout} {state : MmState Pmm}
    {start : KernelState Pmm} {history : SpaceHistory Pmm}
    (covered : state.frames.Covered hhdm)
    (booted : vmmInit hhdm pmmSource layout state = .ok start)
    (run : Relation.ReflTransGen (SpaceStep hhdm pmmSource) ⟨start, []⟩ history)
    (virt : Word) (upper : 256 ≤ (lvl4Offset virt).toNat) :
    Present (vmmTopEntry hhdm history.kernel.mm history.kernel.vmmKernel virt) ∧
      ∀ vmm ∈ history.spaces, vmmPte hhdm history.kernel.mm vmm virt =
        vmmPte hhdm history.kernel.mm history.kernel.vmmKernel virt := by
  have valid : (pmmSpec hhdm).Valid state.frames := covered
  obtain ⟨height, kernel, others, forked⟩ := SpaceHistory.forked_of_run valid booted run
  have kernelRoot := forked.ready.space_at.vmmRoot_eq forked.ready.tables
  have upperIndex : 256 ≤ (tableIndex (lvl4Offset virt)).val := by
    rwa [tableIndex_val (lvl4Offset_lt virt)]
  rw [forked.kernel_eq, vmmTopEntry, vmmPte, kernelRoot]
  refine ⟨forked.ready.upper _ upperIndex, ?_⟩
  intro vmm isSpace
  rw [forked.spaces_eq] at isSpace
  obtain ⟨space, inOthers, rfl⟩ := List.mem_map.mp isSpace
  rw [vmmPte, (forked.each space inOthers).vmmRoot_eq forked.ready.tables]
  apply leafPte_congr rfl
  rw [topEntry, topEntry, forked.upper_eq space inOthers _ upperIndex]

/-- A page mapped for the kernel after two address spaces were created shows
up in both. -/
theorem kernel_half_agreement_after_map : ∃ (history : SpaceHistory Pmm) (first second : Word),
    history.spaces = [second, first] ∧
    vmmPte machineHhdm history.kernel.mm first 0xffff900000000000#64 =
      vmmPte machineHhdm history.kernel.mm history.kernel.vmmKernel 0xffff900000000000#64 ∧
    vmmPte machineHhdm history.kernel.mm second 0xffff900000000000#64 =
      vmmPte machineHhdm history.kernel.mm history.kernel.vmmKernel 0xffff900000000000#64 := by
  obtain ⟨pmm, start, history, kernel, first, second, height, -, covered, vmmBooted, run, forked,
    -, -, -, -, -, -, supply⟩ := machine_two_spaces
  rcases pageOp_spec forked.ready.tables (.map 0xffff900000000000#64 0x200000#64 3#64)
    forked.ready.space_at.root_height forked.ready.space_at.pml_eq with
      ⟨reason, -, short, -⟩ | ⟨result, value, height', mm, -, call, -⟩
  · omega
  have step : SpaceStep machineHhdm pmmSource history
      ⟨{ history.kernel with mm }, history.spaces⟩ :=
    SpaceStep.op _ result (Or.inl forked.kernel_eq.symm) call
  have isUpper : 256 ≤ (lvl4Offset 0xffff900000000000#64).toNat := by decide
  obtain ⟨-, agree⟩ := kernel_half_agreement covered vmmBooted (run.tail step) _ isUpper
  have isFirst : first.vmm machineHhdm ∈ history.spaces := by simp [forked.spaces_eq]
  have isSecond : second.vmm machineHhdm ∈ history.spaces := by simp [forked.spaces_eq]
  exact ⟨⟨{ history.kernel with mm }, history.spaces⟩, first.vmm machineHhdm,
    second.vmm machineHhdm, forked.spaces_eq, agree _ isFirst, agree _ isSecond⟩

/-- A call on one address space at a lower-half address leaves the lower halves
of another one and of the kernel alone exactly when it changes no entry, or
when neither of them shares the table below the top-level entry. -/
theorem lower_half_isolation_iff {hhdm : Word} {layout : KernelLayout} {state : MmState Pmm}
    {start : KernelState Pmm} {history : SpaceHistory Pmm}
    (covered : state.frames.Covered hhdm)
    (booted : vmmInit hhdm pmmSource layout state = .ok start)
    (run : Relation.ReflTransGen (SpaceStep hhdm pmmSource) ⟨start, []⟩ history)
    {first second : Word} (isFirst : first ∈ history.spaces) (isSecond : second ∈ history.spaces)
    (distinct : first ≠ second) {op : PageOp} (lower : (lvl4Offset op.virt).toNat < 256)
    {result : OpResult} {after : MmState Pmm}
    (call : op.run hhdm pmmSource history.kernel.mm first = .ok (result, after)) :
    (∀ virt, (lvl4Offset virt).toNat < 256 →
      vmmPte hhdm after second virt = vmmPte hhdm history.kernel.mm second virt ∧
      vmmPte hhdm after history.kernel.vmmKernel virt =
        vmmPte hhdm history.kernel.mm history.kernel.vmmKernel virt) ↔
    ¬(op.Changes (vmmPte hhdm history.kernel.mm first op.virt) ∧
      (SharesTable hhdm history.kernel.mm first second op.virt ∨
        SharesTable hhdm history.kernel.mm first history.kernel.vmmKernel op.virt)) := by
  have valid : (pmmSpec hhdm).Valid state.frames := covered
  obtain ⟨height, kernel, others, forked⟩ := SpaceHistory.forked_of_run valid booted run
  have tables := forked.ready.tables
  rw [forked.spaces_eq] at isFirst isSecond
  obtain ⟨own, ownMem, rfl⟩ := List.mem_map.mp isFirst
  obtain ⟨other, otherMem, rfl⟩ := List.mem_map.mp isSecond
  have ownAt := forked.each own ownMem
  have otherAt := forked.each other otherMem
  have otherRootNe : other.root ≠ own.root := by
    intro same
    have inSpaces := List.inj_on_of_nodup_map forked.roots_nodup
      (List.mem_cons_of_mem kernel otherMem) (List.mem_cons_of_mem kernel ownMem) same
    exact distinct (by rw [inSpaces])
  obtain ⟨value, height', entry, updated⟩ :=
    pageOp_returned tables ownAt.root_height ownAt.pml_eq call
  have changes : value ≠ leafPte history.kernel.mm.ram own.root op.virt ↔
      op.Changes (leafPte history.kernel.mm.ram own.root op.virt) := by
    rw [← PageOp.onEntry_ne_iff, entry]
  have otherIff := updated.unchanged_iff tables ownAt.root_height otherAt.root_height otherRootNe
    (fun virt => (lvl4Offset virt).toNat < 256) lower
  have kernelIff := updated.unchanged_iff tables ownAt.root_height
    forked.ready.space_at.root_height (forked.root_ne_kernel ownMem).symm
    (fun virt => (lvl4Offset virt).toNat < 256) lower
  rw [changes, ownAt.sharesTable_iff tables otherAt] at otherIff
  rw [changes, ownAt.sharesTable_iff tables forked.ready.space_at] at kernelIff
  have ownRoot := ownAt.vmmRoot_eq tables
  have otherRoot := otherAt.vmmRoot_eq tables
  have kernelRoot := forked.ready.space_at.vmmRoot_eq tables
  have otherRoot' := (otherAt.extends updated.toExtends).vmmRoot_eq updated.tables
  have kernelRoot' :=
    (forked.ready.space_at.extends updated.toExtends).vmmRoot_eq updated.tables
  rw [forked.kernel_eq]
  simp only [vmmPte, ownRoot, otherRoot, kernelRoot, otherRoot', kernelRoot']
  rw [and_or_left, not_or, ← otherIff, ← kernelIff]
  constructor
  · intro unchanged
    exact ⟨fun virt inHalf => (unchanged virt inHalf).1, fun virt inHalf => (unchanged virt inHalf).2⟩
  · rintro ⟨otherSame, kernelSame⟩ virt inHalf
    exact ⟨otherSame virt inHalf, kernelSame virt inHalf⟩

/-- A page mapped below a top-level entry that neither space has yet. -/
theorem lower_half_isolation_iff_mapped :
    ∃ (history : SpaceHistory Pmm) (first second : Word) (after : MmState Pmm),
    history.spaces = [second, first] ∧
    (PageOp.map 0x400000000000#64 0x7000#64 3#64).run machineHhdm pmmSource history.kernel.mm
      first = .ok (.flag true, after) ∧
    vmmPte machineHhdm history.kernel.mm first 0x400000000000#64 = 0#64 ∧
    vmmPte machineHhdm after first 0x400000000000#64 = 0x7003#64 ∧
    ∀ virt, (lvl4Offset virt).toNat < 256 →
      vmmPte machineHhdm after second virt = vmmPte machineHhdm history.kernel.mm second virt := by
  obtain ⟨pmm, start, history, kernel, first, second, height, -, covered, vmmBooted, run, forked,
    different, -, -, -, -, rows, supply⟩ := machine_two_spaces
  have tables := forked.ready.tables
  have firstAt := forked.each first (by simp)
  have firstTop := rows first (by simp)
  have firstEntry : leafPte history.kernel.mm.ram first.root 0x400000000000#64 = 0#64 := by
    apply leafPte_of_missing
    rw [leafTable_eq_bind]
    rw [topEntry] at firstTop
    rw [firstTop, entryTable_zero, Option.bind_none]
  rcases pageOp_spec tables (.map 0x400000000000#64 0x7000#64 3#64) firstAt.root_height
    firstAt.pml_eq with ⟨reason, -, short, -⟩ |
    ⟨result, value, height', after, described, call, updated⟩
  · omega
  rw [PageOp.virt, firstEntry, PageOp.onEntry_map_absent (by decide)] at described
  cases described
  have isFirst : first.vmm machineHhdm ∈ history.spaces := by simp [forked.spaces_eq]
  have isSecond : second.vmm machineHhdm ∈ history.spaces := by simp [forked.spaces_eq]
  have isolated := lower_half_isolation_iff covered vmmBooted run isFirst isSecond different
    (by decide) call
  refine ⟨history, first.vmm machineHhdm, second.vmm machineHhdm, after, forked.spaces_eq, call,
    ?_, ?_, fun virt lower => (isolated.mpr ?_ virt lower).1⟩
  · rw [vmmPte, firstAt.vmmRoot_eq tables, firstEntry]
  · rw [vmmPte, (firstAt.extends updated.toExtends).vmmRoot_eq updated.tables]
    refine (updated.own_leafPte firstAt.root_height _).trans ?_
    rw [PageOp.virt, if_pos rfl]
    decide
  · have absent : ¬Present (vmmTopEntry machineHhdm history.kernel.mm (first.vmm machineHhdm)
        0x400000000000#64) := by
      rw [vmmTopEntry, firstAt.vmmRoot_eq tables, firstTop]
      decide
    rintro ⟨-, shares | shares⟩
    · exact absent shares.1
    · exact absent shares.1

/-- Unmapping the first page of the identity map in one address space unmaps
it in the other one. -/
theorem lower_half_not_isolated : ∃ (pmm : Pmm) (start : KernelState Pmm)
    (history : SpaceHistory Pmm) (first second : Word) (after : MmState Pmm),
    pmmInit machineMap machineHhdm (fun _ => 0#8) 4 = some (.ok pmm) ∧
    vmmInit machineHhdm pmmSource machineLayout ⟨pmm, fun _ => 0#8⟩ = .ok start ∧
    Relation.ReflTransGen (SpaceStep machineHhdm pmmSource) ⟨start, []⟩ history ∧
    first ∈ history.spaces ∧ second ∈ history.spaces ∧ first ≠ second ∧
    (PageOp.unmap 0x1000#64).run machineHhdm pmmSource history.kernel.mm first =
      .ok (.flag true, after) ∧
    vmmPte machineHhdm history.kernel.mm second 0x1000#64 = 0x1003#64 ∧
    vmmPte machineHhdm after second 0x1000#64 = 0#64 := by
  obtain ⟨pmm, start, history, kernel, first, second, height, booted, -, vmmBooted, run, forked,
    different, entry, present, firstTop, secondTop, -, supply⟩ := machine_two_spaces
  have firstAt := forked.each first (by simp)
  have secondAt := forked.each second (by simp)
  have tables := forked.ready.tables
  have firstEntry : leafPte history.kernel.mm.ram first.root 0x1000#64 = 0x1003#64 := by
    rw [← entry]
    exact leafPte_congr rfl (by rw [firstTop])
  have secondEntry : leafPte history.kernel.mm.ram second.root 0x1000#64 = 0x1003#64 := by
    rw [← entry]
    exact leafPte_congr rfl (by rw [secondTop])
  rcases pageOp_spec tables (.unmap 0x1000#64) firstAt.root_height firstAt.pml_eq with
    ⟨reason, -, short, -⟩ | ⟨result, value, height', after, described, call, updated⟩
  · omega
  rw [PageOp.virt, firstEntry, PageOp.onEntry_unmap_present (by decide), Prod.mk.injEq]
    at described
  obtain ⟨rfl, rfl⟩ := described
  refine ⟨pmm, start, history, first.vmm machineHhdm, second.vmm machineHhdm, after, booted,
    vmmBooted, run, by simp [forked.spaces_eq], by simp [forked.spaces_eq], different, call, ?_, ?_⟩
  · rw [vmmPte, secondAt.vmmRoot_eq tables, secondEntry]
  · rw [vmmPte, (secondAt.extends updated.toExtends).vmmRoot_eq updated.tables]
    refine (updated.shared firstAt.root_height secondAt.root_height ?_ ?_).1
    · rw [PageOp.virt, firstTop]
      exact present
    · rw [PageOp.virt, firstTop, secondTop]

end MmdOS
