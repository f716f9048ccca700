import MmdOS.VirtualMemory
import Mathlib.Data.Set.Basic

/-!
# Walking and growing the page tables

The tables of all address spaces together form a radix forest of height three
over the pages of physical memory.  A walk that allocates only links blank
pages into it; this file says once what such a walk may change, and everything
later about mapping, unmapping and translation follows from that.
-/

namespace MmdOS

open ByteMemory
open Function (update update_self update_of_ne)

variable {count page h root node leaf : Nat} {offset vmm : Word}

/-- The direct map reaches the whole page, without wrapping around to the null
pointer, and the address bits of an entry can hold its address. -/
def DirectMapped (hhdm : Word) (page : Nat) : Prop :=
  1 ≤ page ∧ page < 2 ^ 40 ∧ (page + 1) * pageSize + hhdm.toNat ≤ 2 ^ 64

/-- What the page-table code relies on when it asks for a frame: a returned
frame was free and is free no longer.  `supply` bounds from below how many
more requests succeed. -/
structure FrameSpec {σ : Type} (hhdm : Word) (source : FrameSource σ) where
  Valid : σ → Prop
  Free : σ → Nat → Prop
  supply : σ → Nat
  free_direct : ∀ {frames page}, Valid frames → Free frames page → DirectMapped hhdm page
  supply_error : ∀ {frames reason}, Valid frames → source frames = .error reason →
    supply frames = 0
  alloc_spec : ∀ {frames addr after}, Valid frames → source frames = .ok (addr, after) →
    Valid after ∧ supply frames ≤ supply after + 1 ∧
      ∃ page, addr = pageAddress page ∧ Free frames page ∧
        ∀ other, Free after other ↔ Free frames other ∧ other ≠ page

def clearPages (ram : Memory) (start count : Nat) : Memory :=
  fill ram (start * pageSize) (count * pageSize) 0#8

theorem samePage_clearPages (ram : Memory) {start : Nat}
    (outside : page < start ∨ start + count ≤ page) :
    SamePage ram (clearPages ram start count) page := by
  intro position inPage
  apply fill_of_outside
  rw [pageSize] at *
  omega

theorem readWord_clearPages (ram : Memory) {start offset : Nat}
    (inside : start ≤ page ∧ page < start + count) (offsetLe : offset + 8 ≤ pageSize) :
    readWord (clearPages ram start count) (page * pageSize + offset) = 0#64 := by
  apply readWord_fill_zero
  · rw [pageSize] at *
    omega
  · rw [pageSize] at *
    omega

theorem tableStore_clearPages (ram : Memory) (page : Nat) (index : Fin 512) :
    tableStore (clearPages ram page 1) page index = 0#64 := by
  have indexLt := index.isLt
  apply readWord_clearPages ram ⟨le_rfl, by omega⟩
  rw [pageSize]
  omega

theorem pmmAlloc_eq {σ : Type} {hhdm : Word} {source : FrameSource σ} {state : MmState σ}
    {start : Nat} {after : σ} (positive : 1 ≤ start) (fits : start + count ≤ 2 ^ 40)
    (allocated : source state.frames = .ok (pageAddress start, after)) :
    pmmAlloc hhdm source count state =
      .ok (pageAddress start, ⟨after, clearPages state.ram start count⟩) := by
  have startValue : (pageAddress start).toNat = start * pageSize :=
    pageAddress_toNat (by omega)
  have cancel : pageAddress start + hhdm - hhdm = pageAddress start := by
    rw [BitVec.add_sub_cancel]
  have sizeEq : count * pageSize % 2 ^ 64 = count * pageSize := by
    rw [pageSize]
    omega
  simp only [pmmAlloc, allocated, ok_bind, sizeEq,
    if_pos (pageAddress_ne_zero (by omega) positive)]
  rw [memset_eq_fill _ _ _ _ (by rw [cancel, startValue, pageSize]; omega), cancel,
    startValue, clearPages]

theorem pmmAlloc_error {σ : Type} {hhdm : Word} {source : FrameSource σ} {state : MmState σ}
    {reason : Panic} (failed : source state.frames = .error reason) :
    pmmAlloc hhdm source count state = .error reason := by
  simp only [pmmAlloc, failed, panic_bind]

variable {σ : Type} {hhdm : Word} {source : FrameSource σ} (spec : FrameSpec hhdm source)

/-- The pages with a height are the page tables: `3` for top-level tables,
`0` for those that hold the mappings. -/
structure Tables (height : Nat → Option Nat) (state : MmState σ) : Prop where
  valid : spec.Valid state.frames
  forest : Radix.Forest entryTable (tableStore state.ram) 3 height
  used : ∀ {page h}, height page = some h → ¬ spec.Free state.frames page
  direct : ∀ {page h}, height page = some h → DirectMapped hhdm page

/-- What the memory management code leaves alone while it takes the pages
`taken` for data or for top-level tables: tables stay tables, new ones come
from the free pages and are linked, present entries above the last level stay,
and no other used page changes. -/
structure Extends (taken : Set Nat) (height : Nat → Option Nat) (state : MmState σ)
    (height' : Nat → Option Nat) (state' : MmState σ) : Prop where
  tables : Tables spec height' state'
  keeps : ∀ {page h}, height page = some h → height' page = some h
  fresh : ∀ {page h}, height' page = some h → height page = some h ∨
    (spec.Free state.frames page ∧ (page ∈ taken ∨ ∃ node index,
      height' node = some (h + 1) ∧ entryTable (tableStore state'.ram node index) = some page))
  taken_free : ∀ {page}, page ∈ taken → spec.Free state.frames page
  taken_height : ∀ {page h}, page ∈ taken → height' page = some h → h = 3
  free_iff : ∀ page, spec.Free state'.frames page ↔
    spec.Free state.frames page ∧ height' page = none ∧ page ∉ taken
  present : ∀ {page h index}, height page = some (h + 1) →
    Present (tableStore state.ram page index) →
    tableStore state'.ram page index = tableStore state.ram page index
  child_fresh : ∀ {page h index next}, height page = some (h + 1) →
    entryTable (tableStore state.ram page index) = none →
    entryTable (tableStore state'.ram page index) = some next → height next = none
  frame : ∀ {page}, ¬ spec.Free state.frames page → height page = none →
    SamePage state.ram state'.ram page

/-- Linking new tables under the entry `top` of `root`. -/
structure Grows (root : Nat) (top : Fin 512) (height : Nat → Option Nat) (state : MmState σ)
    (height' : Nat → Option Nat) (state' : MmState σ) : Prop
    extends Extends spec ∅ height state height' state' where
  lookup_eq : ∀ {node path} (last : Fin 512), height node = some path.length →
    Radix.lookup entryTable (tableStore state'.ram) 0#64 node path last =
      Radix.lookup entryTable (tableStore state.ram) 0#64 node path last
  roots : ∀ {page index}, height page = some 3 → ¬(page = root ∧ index = top) →
    tableStore state'.ram page index = tableStore state.ram page index

variable {spec} {height : Nat → Option Nat} {state : MmState σ}

theorem Tables.not_free (tables : Tables spec height state) (free : spec.Free state.frames page) :
    height page = none := by
  cases heightEq : height page with
  | none => rfl
  | some h => exact absurd free (tables.used heightEq)

theorem Extends.refl (tables : Tables spec height state) :
    Extends spec ∅ height state height state where
  tables := tables
  keeps := id
  fresh := Or.inl
  taken_free := fun inTaken => absurd inTaken (Set.notMem_empty _)
  taken_height := fun inTaken => absurd inTaken (Set.notMem_empty _)
  free_iff := fun _ =>
    ⟨fun free => ⟨free, tables.not_free free, Set.notMem_empty _⟩, And.left⟩
  present := fun _ _ => rfl
  child_fresh := fun _ absent points => by simp [absent] at points
  frame := fun _ _ => SamePage.refl _ _

section Extends

variable {taken : Set Nat} {height' : Nat → Option Nat} {state' : MmState σ}

section

variable (ext : Extends spec taken height state height' state')
include ext

/-- A used page that is no table stays one. -/
theorem Extends.used_blank (used : ¬ spec.Free state.frames page) (blank : height page = none) :
    ¬ spec.Free state'.frames page ∧ height' page = none := by
  refine ⟨fun free => used ((ext.free_iff page).mp free).1, ?_⟩
  cases heightEq : height' page with
  | none => rfl
  | some h =>
      rcases ext.fresh heightEq with old | ⟨free, -⟩
      · simp [blank] at old
      · exact absurd free used

theorem Extends.taken_used (inTaken : page ∈ taken) : ¬ spec.Free state'.frames page :=
  fun free => ((ext.free_iff page).mp free).2.2 inTaken

theorem Extends.child_eq {next : Nat} {index : Fin 512} (heightEq : height page = some (h + 1))
    (points : entryTable (tableStore state.ram page index) = some next) :
    entryTable (tableStore state'.ram page index) = some next := by
  rw [ext.present heightEq (entryTable_eq_some points).1]
  exact points

end

theorem Extends.trans {taken₂ : Set Nat} {height₂ : Nat → Option Nat} {state₂ : MmState σ}
    (first : Extends spec taken height state height' state')
    (second : Extends spec taken₂ height' state' height₂ state₂) :
    Extends spec (taken ∪ taken₂) height state height₂ state₂ where
  tables := second.tables
  keeps := fun heightEq => second.keeps (first.keeps heightEq)
  fresh := by
    intro page h heightEq
    rcases second.fresh heightEq with old | ⟨free, inSecond | linked⟩
    · rcases first.fresh old with oldest | ⟨free, inFirst | ⟨node, index, nodeHeight, points⟩⟩
      · exact Or.inl oldest
      · exact Or.inr ⟨free, Or.inl (Or.inl inFirst)⟩
      · exact Or.inr ⟨free, Or.inr ⟨node, index, second.keeps nodeHeight,
          second.child_eq nodeHeight points⟩⟩
    · exact Or.inr ⟨((first.free_iff page).mp free).1, Or.inl (Or.inr inSecond)⟩
    · exact Or.inr ⟨((first.free_iff page).mp free).1, Or.inr linked⟩
  taken_free := by
    rintro page (inFirst | inSecond)
    · exact first.taken_free inFirst
    · exact ((first.free_iff page).mp (second.taken_free inSecond)).1
  taken_height := by
    rintro page h (inFirst | inSecond) heightEq
    · cases middle : height' page with
      | none =>
          simp [(second.used_blank (first.taken_used inFirst) middle).2] at heightEq
      | some k =>
          rw [second.keeps middle, Option.some.injEq] at heightEq
          rw [← heightEq]
          exact first.taken_height inFirst middle
    · exact second.taken_height inSecond heightEq
  free_iff := by
    intro page
    rw [second.free_iff, first.free_iff, Set.mem_union, not_or]
    constructor
    · rintro ⟨⟨free, -, outside⟩, blank, outside₂⟩
      exact ⟨free, blank, outside, outside₂⟩
    · rintro ⟨free, blank, outside, outside₂⟩
      refine ⟨⟨free, ?_, outside⟩, blank, outside₂⟩
      cases middle : height' page with
      | none => rfl
      | some h => simp [second.keeps middle] at blank
  present := by
    intro page h index heightEq isPresent
    have firstEq := first.present heightEq isPresent
    rw [← firstEq] at isPresent
    exact (second.present (first.keeps heightEq) isPresent).trans firstEq
  child_fresh := by
    intro page h index next heightEq absent points
    cases middle : entryTable (tableStore state'.ram page index) with
    | none =>
        have blank := second.child_fresh (first.keeps heightEq) middle points
        cases nextHeight : height next with
        | none => rfl
        | some k => simp [first.keeps nextHeight] at blank
    | some between =>
        have blank := first.child_fresh heightEq absent middle
        have kept := second.present (first.keeps heightEq) (entryTable_eq_some middle).1
        rw [kept, middle, Option.some.injEq] at points
        rwa [← points]
  frame := by
    intro page used blank
    obtain ⟨stillUsed, stillBlank⟩ := first.used_blank used blank
    exact (first.frame used blank).trans (second.frame stillUsed stillBlank)

theorem Extends.write_taken (ext : Extends spec taken height state height' state')
    {state₂ : MmState σ} (framesEq : state₂.frames = state'.frames)
    (outside : ∀ {page}, ¬(page ∈ taken ∧ height' page = none) →
      SamePage state'.ram state₂.ram page) :
    Extends spec taken height state height' state₂ := by
  have tableRow : ∀ {page h} (index : Fin 512), height' page = some h →
      tableStore state₂.ram page index = tableStore state'.ram page index := by
    intro page h index heightEq
    refine (outside ?_).tableStore_eq index
    simp [heightEq]
  refine ⟨⟨?_, ext.tables.forest.congr fun page h index => tableRow index, ?_,
    ext.tables.direct⟩, ext.keeps, ?_, ext.taken_free, ext.taken_height, ?_, ?_, ?_, ?_⟩
  · rw [framesEq]
    exact ext.tables.valid
  · rw [framesEq]
    exact ext.tables.used
  · intro page h heightEq
    rcases ext.fresh heightEq with old | ⟨free, inTaken | ⟨node, index, nodeHeight, points⟩⟩
    · exact Or.inl old
    · exact Or.inr ⟨free, Or.inl inTaken⟩
    · exact Or.inr ⟨free, Or.inr ⟨node, index, nodeHeight,
        by rwa [tableRow index nodeHeight]⟩⟩
  · rw [framesEq]
    exact ext.free_iff
  · intro page h index heightEq isPresent
    rw [tableRow index (ext.keeps heightEq)]
    exact ext.present heightEq isPresent
  · intro page h index next heightEq absent points
    rw [tableRow index (ext.keeps heightEq)] at points
    exact ext.child_fresh heightEq absent points
  · intro page used blank
    exact (ext.frame used blank).trans (outside fun both => used (ext.taken_free both.1))

end Extends

theorem Grows.refl (tables : Tables spec height state) (root : Nat) (top : Fin 512) :
    Grows spec root top height state height state where
  toExtends := Extends.refl tables
  lookup_eq := fun _ _ => rfl
  roots := fun _ _ => rfl

theorem Grows.trans {top : Fin 512} {height₁ height₂ height₃ : Nat → Option Nat}
    {state₁ state₂ state₃ : MmState σ} (first : Grows spec root top height₁ state₁ height₂ state₂)
    (second : Grows spec root top height₂ state₂ height₃ state₃) :
    Grows spec root top height₁ state₁ height₃ state₃ where
  toExtends := by
    have both := first.toExtends.trans second.toExtends
    rwa [Set.union_empty] at both
  lookup_eq := fun last nodeHeight =>
    (second.lookup_eq last (first.keeps nodeHeight)).trans (first.lookup_eq last nodeHeight)
  roots := fun heightEq other =>
    (second.roots (first.keeps heightEq) other).trans (first.roots heightEq other)

/-- Linking a cleared frame under an absent entry grows the forest. -/
theorem Tables.link (tables : Tables spec height state) {fresh : Nat} {top : Fin 512} {after : σ}
    (nodeHeight : height node = some (h + 1)) (offsetLt : offset.toNat < 512)
    (atRoot : h + 1 = 3 → node = root ∧ tableIndex offset = top)
    (absent : ¬ Present (tableStore state.ram node (tableIndex offset)))
    (wasFree : spec.Free state.frames fresh) (validAfter : spec.Valid after)
    (freeAfter : ∀ other, spec.Free after other ↔ spec.Free state.frames other ∧ other ≠ fresh) :
    Grows spec root top height state (update height fresh (some h))
      (MmState.store hhdm ⟨after, clearPages state.ram fresh 1⟩
        (directPtr hhdm node + 8#64 * offset) (tableEntry fresh)) := by
  have freshHeight : height fresh = none := tables.not_free wasFree
  have nodeNe : node ≠ fresh := by
    rintro rfl
    simp [freshHeight] at nodeHeight
  obtain ⟨-, nodeLt, -⟩ := tables.direct nodeHeight
  have freshDirect := spec.free_direct tables.valid wasFree
  have heightLe := tables.forest.height_le nodeHeight
  have points : entryTable (tableEntry fresh) = some fresh :=
    entryTable_tableEntry freshDirect.2.1
  let cleared : MmState σ := ⟨after, clearPages state.ram fresh 1⟩
  -- clearing the frame changes no row of the forest
  have clearedRow : ∀ {page} (index : Fin 512), page ≠ fresh →
      tableStore cleared.ram page index = tableStore state.ram page index := by
    intro page index different
    exact (samePage_clearPages state.ram (by omega)).tableStore_eq index
  have clearedAgree : ∀ page k (index : Fin 512), height page = some k →
      tableStore cleared.ram page index = tableStore state.ram page index := by
    intro page k index heightEq
    apply clearedRow
    rintro rfl
    simp [freshHeight] at heightEq
  have clearedForest := tables.forest.congr clearedAgree
  have blankRow : ∀ index, tableStore cleared.ram fresh index = 0#64 :=
    tableStore_clearPages state.ram fresh
  have storeEq : tableStore (cleared.store hhdm (directPtr hhdm node + 8#64 * offset)
      (tableEntry fresh)).ram =
        Radix.setEntry (tableStore cleared.ram) node (tableIndex offset) (tableEntry fresh) :=
    tableStore_store_slot cleared nodeLt offsetLt (tableEntry fresh)
  have absentChild : entryTable (tableStore cleared.ram node (tableIndex offset)) = none := by
    rw [clearedRow _ nodeNe]
    exact entryTable_eq_none_iff.mpr absent
  -- a slot other than the linked one keeps its entry
  have keptSlot : ∀ {page k} {index : Fin 512}, height page = some k →
      ¬(page = node ∧ index = tableIndex offset) →
      tableStore (cleared.store hhdm (directPtr hhdm node + 8#64 * offset)
        (tableEntry fresh)).ram page index = tableStore state.ram page index := by
    intro page k index heightEq other
    rw [storeEq, Radix.setEntry_of_ne other]
    exact clearedAgree page k index heightEq
  refine ⟨⟨⟨validAfter, ?_, ?_, ?_⟩, ?_, ?_, fun inTaken => absurd inTaken (Set.notMem_empty _),
    fun inTaken _ => absurd inTaken (Set.notMem_empty _), ?_, ?_, ?_, ?_⟩, ?_, ?_⟩
  · rw [storeEq]
    exact clearedForest.link nodeHeight freshHeight
      (fun index => by rw [blankRow, entryTable_zero]) points
  · intro page k heightEq free
    obtain ⟨freeBefore, different⟩ := (freeAfter page).mp free
    rw [update_of_ne different] at heightEq
    exact tables.used heightEq freeBefore
  · intro page k heightEq
    by_cases isFresh : page = fresh
    · rw [isFresh]
      exact freshDirect
    · rw [update_of_ne isFresh] at heightEq
      exact tables.direct heightEq
  · intro page k heightEq
    have different : page ≠ fresh := by
      rintro rfl
      simp [freshHeight] at heightEq
    rw [update_of_ne different]
    exact heightEq
  · intro page k heightEq
    by_cases isFresh : page = fresh
    · rw [isFresh, update_self, Option.some.injEq] at heightEq
      rw [isFresh, ← heightEq]
      refine Or.inr ⟨wasFree, Or.inr ⟨node, tableIndex offset, ?_, ?_⟩⟩
      · rw [update_of_ne nodeNe, nodeHeight]
      · rw [storeEq, Radix.setEntry_self, points]
    · rw [update_of_ne isFresh] at heightEq
      exact Or.inl heightEq
  · intro page
    change spec.Free after page ↔ _
    rw [freeAfter]
    constructor
    · rintro ⟨free, different⟩
      rw [update_of_ne different]
      exact ⟨free, tables.not_free free, Set.notMem_empty _⟩
    · rintro ⟨free, blank, -⟩
      refine ⟨free, ?_⟩
      rintro rfl
      simp at blank
  · intro page k index heightEq isPresent
    apply keptSlot heightEq
    rintro ⟨rfl, rfl⟩
    exact absent isPresent
  · intro page k index next heightEq absentBefore pointsAfter
    by_cases linked : page = node ∧ index = tableIndex offset
    · obtain ⟨rfl, rfl⟩ := linked
      rw [storeEq, Radix.setEntry_self, points, Option.some.injEq] at pointsAfter
      rwa [← pointsAfter]
    · rw [keptSlot heightEq linked, absentBefore] at pointsAfter
      cases pointsAfter
  · intro page used blank
    have pageNeFresh : page ≠ fresh := by
      rintro rfl
      exact used wasFree
    have pageNeNode : page ≠ node := by
      rintro rfl
      simp [blank] at nodeHeight
    exact (samePage_clearPages state.ram (by omega)).trans
      (samePage_store_slot cleared nodeLt offsetLt pageNeNode (tableEntry fresh))
  · intro other path last otherHeight
    rw [storeEq, clearedForest.lookup_link nodeHeight freshHeight absentChild blankRow
      entryTable_zero points last otherHeight]
    exact tables.forest.lookup_congr 0#64 last otherHeight clearedAgree
  · intro page index heightEq other
    apply keptSlot heightEq
    rintro ⟨rfl, rfl⟩
    rw [nodeHeight, Option.some.injEq] at heightEq
    exact other (atRoot heightEq)

theorem walkPte_of_points {next : Nat} (alloc : Bool) (nodeLt : node < 2 ^ 40)
    (offsetLt : offset.toNat < 512)
    (points : entryTable (tableStore state.ram node (tableIndex offset)) = some next) :
    walkPte hhdm source state (directPtr hhdm node) offset alloc =
      .ok (directPtr hhdm next, state) := by
  obtain ⟨present, addrEq, -⟩ := entryTable_eq_some points
  simp only [walkPte, load_slot state nodeLt offsetLt, if_pos present, addrEq]
  rfl

theorem walkPte_absent (nodeLt : node < 2 ^ 40) (offsetLt : offset.toNat < 512)
    (absent : entryTable (tableStore state.ram node (tableIndex offset)) = none) :
    walkPte hhdm source state (directPtr hhdm node) offset false = .ok (0#64, state) := by
  have notPresent := entryTable_eq_none_iff.mp absent
  simp only [walkPte, load_slot state nodeLt offsetLt, if_neg notPresent, if_true]

def missingTables (ram : Memory) (node : Nat) (path : List (Fin 512)) : Nat :=
  Radix.missing entryTable (tableStore ram) node path

theorem length_tablePath (virt : Word) : (tablePath virt).length = 3 :=
  rfl

theorem missingTables_le (ram : Memory) (node : Nat) (path : List (Fin 512)) :
    missingTables ram node path ≤ path.length :=
  Radix.missing_le_length _ _

/-- An allocating step down one level either stops in the allocator's panic or
ends in the table that the entry then points to. -/
theorem walkPte_alloc (tables : Tables spec height state) (root : Nat) (top : Fin 512)
    (nodeHeight : height node = some (h + 1)) (offsetLt : offset.toNat < 512)
    (atRoot : h + 1 = 3 → node = root ∧ tableIndex offset = top) :
    (∃ reason, source state.frames = .error reason ∧
      entryTable (tableStore state.ram node (tableIndex offset)) = none ∧
      walkPte hhdm source state (directPtr hhdm node) offset true = .error reason) ∨
    ∃ height' state' next,
      walkPte hhdm source state (directPtr hhdm node) offset true =
        .ok (directPtr hhdm next, state') ∧
      Grows spec root top height state height' state' ∧
      entryTable (tableStore state'.ram node (tableIndex offset)) = some next ∧
      spec.supply state.frames ≤ spec.supply state'.frames + 1 ∧
      ∀ path, spec.supply state.frames + missingTables state'.ram next path ≤
        spec.supply state'.frames + missingTables state.ram node (tableIndex offset :: path) := by
  obtain ⟨-, nodeLt, -⟩ := tables.direct nodeHeight
  cases points : entryTable (tableStore state.ram node (tableIndex offset)) with
  | some next =>
      right
      exact ⟨height, state, next, walkPte_of_points true nodeLt offsetLt points,
        Grows.refl tables root top, points, by omega,
        fun path => by rw [missingTables, missingTables, Radix.missing_cons_of_points points]⟩
  | none =>
      have absent := entryTable_eq_none_iff.mp points
      cases allocated : source state.frames with
      | error reason =>
          left
          refine ⟨reason, rfl, rfl, ?_⟩
          simp only [walkPte, load_slot state nodeLt offsetLt, if_neg absent,
            pmmAlloc_error allocated, panic_bind]
          rfl
      | ok result =>
          right
          obtain ⟨addr, after⟩ := result
          obtain ⟨validAfter, supplyLe, fresh, rfl, wasFree, freeAfter⟩ :=
            spec.alloc_spec tables.valid allocated
          obtain ⟨freshPos, freshLt, -⟩ := spec.free_direct tables.valid wasFree
          have grows := tables.link nodeHeight offsetLt atRoot absent wasFree validAfter
            freeAfter
          refine ⟨_, _, fresh, ?_, grows, ?_, supplyLe, ?_⟩
          · simp only [walkPte, load_slot state nodeLt offsetLt, if_neg absent,
              pmmAlloc_eq freshPos (by omega : fresh + 1 ≤ 2 ^ 40) allocated,
              ok_bind]
            rfl
          · rw [tableStore_store_slot _ nodeLt offsetLt, Radix.setEntry_self]
            exact entryTable_tableEntry freshLt
          · intro path
            have below := missingTables_le (MmState.store hhdm
              ⟨after, clearPages state.ram fresh 1⟩ (directPtr hhdm node + 8#64 * offset)
              (tableEntry fresh)).ram fresh path
            rw [missingTables, missingTables, Radix.missing_cons_of_absent points]
            rw [missingTables] at below
            have frames : spec.supply (MmState.store hhdm ⟨after, clearPages state.ram fresh 1⟩
              (directPtr hhdm node + 8#64 * offset) (tableEntry fresh)).frames =
                spec.supply after := rfl
            omega

theorem lvl4Offset_lt (virt : Word) : (lvl4Offset virt).toNat < 512 :=
  lvlOffset_lt (by omega) virt

theorem lvl3Offset_lt (virt : Word) : (lvl3Offset virt).toNat < 512 :=
  lvlOffset_lt (by omega) virt

theorem lvl2Offset_lt (virt : Word) : (lvl2Offset virt).toNat < 512 :=
  lvlOffset_lt (by omega) virt

theorem lvl1Offset_lt (virt : Word) : (lvl1Offset virt).toNat < 512 :=
  lvlOffset_lt (by omega) virt

def leafTable (ram : Memory) (root : Nat) (virt : Word) : Option Nat :=
  Radix.descend entryTable (tableStore ram) root (tablePath virt)

theorem leafTable_eq_bind (ram : Memory) (root : Nat) (virt : Word) :
    leafTable ram root virt =
      (entryTable (tableStore ram root (tableIndex (lvl4Offset virt)))).bind fun lvl3 =>
        (entryTable (tableStore ram lvl3 (tableIndex (lvl3Offset virt)))).bind fun lvl2 =>
          entryTable (tableStore ram lvl2 (tableIndex (lvl2Offset virt))) :=
  Radix.descend_three _ _ _ _

theorem leafTable_eq_some {ram : Memory} {virt : Word} :
    leafTable ram root virt = some leaf ↔
      ∃ lvl3 lvl2,
        entryTable (tableStore ram root (tableIndex (lvl4Offset virt))) = some lvl3 ∧
        entryTable (tableStore ram lvl3 (tableIndex (lvl3Offset virt))) = some lvl2 ∧
        entryTable (tableStore ram lvl2 (tableIndex (lvl2Offset virt))) = some leaf := by
  rw [leafTable_eq_bind, Option.bind_eq_some_iff]
  constructor
  · rintro ⟨lvl3, points3, rest⟩
    obtain ⟨lvl2, points2, points1⟩ := Option.bind_eq_some_iff.mp rest
    exact ⟨lvl3, lvl2, points3, points2, points1⟩
  · rintro ⟨lvl3, lvl2, points3, points2, points1⟩
    exact ⟨lvl3, points3, Option.bind_eq_some_iff.mpr ⟨lvl2, points2, points1⟩⟩

theorem walkTables_of_leafTable (tables : Tables spec height state) {virt : Word} (alloc : Bool)
    (rootHeight : height root = some 3)
    (rootPtr : state.load hhdm (pmlField vmm) = directPtr hhdm root)
    (leafEq : leafTable state.ram root virt = some leaf) :
    walkTables hhdm source state vmm virt alloc = .ok (directPtr hhdm leaf, state) := by
  obtain ⟨lvl3, lvl2, points4, points3, points2⟩ := leafTable_eq_some.mp leafEq
  have lvl3Height := tables.forest.closed rootHeight points4
  have lvl2Height := tables.forest.closed lvl3Height points3
  have rootDirect := tables.direct rootHeight
  have lvl3Direct := tables.direct lvl3Height
  have lvl2Direct := tables.direct lvl2Height
  simp only [walkTables, rootPtr,
    walkPte_of_points alloc rootDirect.2.1 (lvl4Offset_lt virt) points4,
    walkPte_of_points alloc lvl3Direct.2.1 (lvl3Offset_lt virt) points3,
    walkPte_of_points alloc lvl2Direct.2.1 (lvl2Offset_lt virt) points2, ok_bind,
    if_neg (directPtr_ne_zero lvl3Direct.1 lvl3Direct.2.2),
    if_neg (directPtr_ne_zero lvl2Direct.1 lvl2Direct.2.2)]

theorem Extends.leafTable_eq {taken : Set Nat} {height' : Nat → Option Nat} {state' : MmState σ}
    (ext : Extends spec taken height state height' state') (tables : Tables spec height state)
    {virt : Word} (rootHeight : height root = some 3)
    (leafEq : leafTable state.ram root virt = some leaf) :
    leafTable state'.ram root virt = some leaf := by
  obtain ⟨lvl3, lvl2, points4, points3, points2⟩ := leafTable_eq_some.mp leafEq
  have lvl3Height := tables.forest.closed rootHeight points4
  have lvl2Height := tables.forest.closed lvl3Height points3
  exact leafTable_eq_some.mpr ⟨lvl3, lvl2, ext.child_eq rootHeight points4,
    ext.child_eq lvl3Height points3, ext.child_eq lvl2Height points2⟩

section

variable (tables : Tables spec height state) (virt : Word) (rootHeight : height root = some 3)
  (rootPtr : state.load hhdm (pmlField vmm) = directPtr hhdm root)
include tables rootHeight rootPtr

/-- The three allocating steps of a walk take one frame for every table that is
missing. -/
theorem walkTables_alloc :
    (∃ reason, (∃ frames, source frames = .error reason) ∧
      spec.supply state.frames < missingTables state.ram root (tablePath virt) ∧
      walkTables hhdm source state vmm virt true = .error reason) ∨
    ∃ height' state' leaf,
      walkTables hhdm source state vmm virt true = .ok (directPtr hhdm leaf, state') ∧
      Grows spec root (tableIndex (lvl4Offset virt)) height state height' state' ∧
      leafTable state'.ram root virt = some leaf ∧
      spec.supply state.frames ≤
        spec.supply state'.frames + missingTables state.ram root (tablePath virt) ∧
      (leafTable state.ram root virt ≠ none → state' = state) := by
  rcases walkPte_alloc tables root _ rootHeight (lvl4Offset_lt virt)
    (fun _ => ⟨rfl, rfl⟩) with ⟨reason, failed, absent, step4⟩ |
      ⟨height₁, state₁, lvl3, step4, grows₁, points₁, -, cost₁⟩
  · left
    refine ⟨reason, ⟨_, failed⟩, ?_, ?_⟩
    · rw [spec.supply_error tables.valid failed, missingTables, tablePath,
        Radix.missing_cons_of_absent absent]
      omega
    · simp only [walkTables, rootPtr, step4, panic_bind]
  have lvl3Height : height₁ lvl3 = some 2 :=
    grows₁.tables.forest.closed (grows₁.keeps rootHeight) points₁
  have lvl3Direct := grows₁.tables.direct lvl3Height
  have lvl3Ne := directPtr_ne_zero lvl3Direct.1 lvl3Direct.2.2
  have cost₁ := cost₁ [tableIndex (lvl3Offset virt), tableIndex (lvl2Offset virt)]
  rw [← tablePath] at cost₁
  rcases walkPte_alloc grows₁.tables root (tableIndex (lvl4Offset virt)) lvl3Height
    (lvl3Offset_lt virt)
    (fun contra => absurd contra (by omega)) with ⟨reason, failed, absent, step3⟩ |
      ⟨height₂, state₂, lvl2, step3, grows₂, points₂, -, cost₂⟩
  · left
    have empty := spec.supply_error grows₁.tables.valid failed
    refine ⟨reason, ⟨_, failed⟩, ?_, ?_⟩
    · rw [empty, missingTables, Radix.missing_cons_of_absent absent] at cost₁
      omega
    · simp only [walkTables, rootPtr, step4, step3, ok_bind, panic_bind, if_neg lvl3Ne]
  have lvl2Height : height₂ lvl2 = some 1 :=
    grows₂.tables.forest.closed (grows₂.keeps lvl3Height) points₂
  have lvl2Direct := grows₂.tables.direct lvl2Height
  have lvl2Ne := directPtr_ne_zero lvl2Direct.1 lvl2Direct.2.2
  have cost₂ := cost₂ [tableIndex (lvl2Offset virt)]
  rcases walkPte_alloc grows₂.tables root (tableIndex (lvl4Offset virt)) lvl2Height
    (lvl2Offset_lt virt)
    (fun contra => absurd contra (by omega)) with ⟨reason, failed, absent, step2⟩ |
      ⟨height₃, state₃, lvl1, step2, grows₃, points₃, -, cost₃⟩
  · left
    have empty := spec.supply_error grows₂.tables.valid failed
    refine ⟨reason, ⟨_, failed⟩, ?_, ?_⟩
    · rw [empty, missingTables, Radix.missing_cons_of_absent absent] at cost₂
      omega
    · simp only [walkTables, rootPtr, step4, step3, step2, ok_bind, if_neg lvl3Ne,
        if_neg lvl2Ne]
  have cost₃ := cost₃ []
  right
  refine ⟨height₃, state₃, lvl1, ?_, (grows₁.trans grows₂).trans grows₃, ?_, by omega, ?_⟩
  · simp only [walkTables, rootPtr, step4, step3, step2, ok_bind, if_neg lvl3Ne,
      if_neg lvl2Ne]
  · exact leafTable_eq_some.mpr ⟨lvl3, lvl2,
      (grows₂.trans grows₃).child_eq (grows₁.keeps rootHeight) points₁,
      grows₃.child_eq (grows₂.keeps lvl3Height) points₂, points₃⟩
  · intro reached
    obtain ⟨leaf, leafEq⟩ := Option.ne_none_iff_exists'.mp reached
    have unchanged := walkTables_of_leafTable tables true rootHeight rootPtr leafEq
    have walked : walkTables hhdm source state vmm virt true =
        .ok (directPtr hhdm lvl1, state₃) := by
      simp only [walkTables, rootPtr, step4, step3, step2, ok_bind, if_neg lvl3Ne,
        if_neg lvl2Ne]
    rw [unchanged, Except.ok.injEq, Prod.mk.injEq] at walked
    exact walked.2.symm

/-- A walk that may not allocate changes nothing, and ends in a null pointer
as soon as a table is missing. -/
theorem walkTables_query :
    walkTables hhdm source state vmm virt false =
      .ok ((leafTable state.ram root virt).elim 0#64 (directPtr hhdm), state) := by
  obtain ⟨-, rootLt, -⟩ := tables.direct rootHeight
  rw [leafTable_eq_bind]
  simp only [walkTables, rootPtr]
  cases points4 : entryTable (tableStore state.ram root (tableIndex (lvl4Offset virt))) with
  | none =>
      rw [walkPte_absent rootLt (lvl4Offset_lt virt) points4]
      rfl
  | some lvl3 =>
      have lvl3Height := tables.forest.closed rootHeight points4
      have lvl3Direct := tables.direct lvl3Height
      rw [walkPte_of_points false rootLt (lvl4Offset_lt virt) points4, ok_bind,
        if_neg (directPtr_ne_zero lvl3Direct.1 lvl3Direct.2.2), Option.bind_some]
      cases points3 : entryTable (tableStore state.ram lvl3 (tableIndex (lvl3Offset virt))) with
      | none =>
          rw [walkPte_absent lvl3Direct.2.1 (lvl3Offset_lt virt) points3]
          rfl
      | some lvl2 =>
          have lvl2Height := tables.forest.closed lvl3Height points3
          have lvl2Direct := tables.direct lvl2Height
          rw [walkPte_of_points false lvl3Direct.2.1 (lvl3Offset_lt virt) points3, ok_bind,
            if_neg (directPtr_ne_zero lvl2Direct.1 lvl2Direct.2.2), Option.bind_some]
          cases points2 :
              entryTable (tableStore state.ram lvl2 (tableIndex (lvl2Offset virt))) with
          | none => exact walkPte_absent lvl2Direct.2.1 (lvl2Offset_lt virt) points2
          | some lvl1 =>
              exact walkPte_of_points false lvl2Direct.2.1 (lvl2Offset_lt virt) points2

end

end MmdOS
