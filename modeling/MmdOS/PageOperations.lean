import MmdOS.PageTableWalk

/-!
# The page-table operations on one entry

`vmm_map_page`, `vmm_unmap_page`, `vmm_change_flag` and `vmm_virt2phys` all
walk to the last-level table of an address and then read or replace one entry
there.  Each is described by what it does to that entry alone, and one theorem
says that the four-level tables carry out exactly this description, in the
address space operated on and in every other one that shares the table.
-/

namespace MmdOS

open ByteMemory

variable {ram : Memory} {root leaf : Nat}

/-- A call on an address space.  The `lock` argument of unmapping and of
changing flags only decides whether the lock is taken. -/
inductive PageOp
  | map (virt physical flags : Word)
  | unmap (virt : Word)
  | changeFlag (virt flags : Word)
  | virt2phys (virt : Word) (alloc : Bool)
  deriving DecidableEq

inductive OpResult
  | flag (ok : Bool)
  | phys (addr : Word)
  deriving DecidableEq

namespace PageOp

def virt : PageOp → Word
  | .map virt _ _ => virt
  | .unmap virt => virt
  | .changeFlag virt _ => virt
  | .virt2phys virt _ => virt

def run {σ : Type} (hhdm : Word) (source : FrameSource σ) (op : PageOp) (state : MmState σ)
    (vmm : Word) : Except Panic (OpResult × MmState σ) :=
  match op with
  | .map virt physical flags => do
      let (ok, state) ← vmmMapPage hhdm source state vmm virt physical flags
      .ok (.flag ok, state)
  | .unmap virt => do
      let (ok, state) ← vmmUnmapPage hhdm source state vmm virt
      .ok (.flag ok, state)
  | .changeFlag virt flags => do
      let (ok, state) ← vmmChangeFlag hhdm source state vmm virt flags
      .ok (.flag ok, state)
  | .virt2phys virt alloc => do
      let (addr, state) ← vmmVirt2phys hhdm source state vmm virt alloc
      .ok (.phys addr, state)

/-- The call as a function of the entry it is about: its result and the new
entry. -/
def onEntry : PageOp → Word → OpResult × Word
  | .map _ physical flags, pte =>
      (.flag true, if Present pte then pte else physical ||| flags)
  | .unmap _, pte =>
      if Present pte then (.flag true, 0#64) else (.flag false, pte)
  | .changeFlag _ flags, pte =>
      if Present pte then (.flag true, pteGetAddr pte ||| flags) else (.flag false, pte)
  | .virt2phys _ _, pte => (.phys (pteGetAddr pte), pte)

variable {pte : Word}

theorem onEntry_map_present (present : Present pte) (virt physical flags : Word) :
    (map virt physical flags).onEntry pte = (.flag true, pte) := by
  simp [onEntry, present]

theorem onEntry_map_absent (absent : ¬ Present pte) (virt physical flags : Word) :
    (map virt physical flags).onEntry pte = (.flag true, physical ||| flags) := by
  simp [onEntry, absent]

theorem onEntry_unmap_present (present : Present pte) (virt : Word) :
    (unmap virt).onEntry pte = (.flag true, 0#64) := by
  simp [onEntry, present]

theorem onEntry_unmap_absent (absent : ¬ Present pte) (virt : Word) :
    (unmap virt).onEntry pte = (.flag false, pte) := by
  simp [onEntry, absent]

theorem onEntry_changeFlag_present (present : Present pte) (virt flags : Word) :
    (changeFlag virt flags).onEntry pte = (.flag true, pteGetAddr pte ||| flags) := by
  simp [onEntry, present]

theorem onEntry_changeFlag_absent (absent : ¬ Present pte) (virt flags : Word) :
    (changeFlag virt flags).onEntry pte = (.flag false, pte) := by
  simp [onEntry, absent]

end PageOp

/-- The last-level entry of an address, zero where a table is missing. -/
def leafPte (ram : Memory) (root : Nat) (virt : Word) : Word :=
  Radix.lookup entryTable (tableStore ram) 0#64 root (tablePath virt) (leafIndex virt)

def topEntry (ram : Memory) (root : Nat) (virt : Word) : Word :=
  tableStore ram root (tableIndex (lvl4Offset virt))

theorem leafPte_of_leafTable {virt : Word} (leafEq : leafTable ram root virt = some leaf) :
    leafPte ram root virt = tableStore ram leaf (leafIndex virt) := by
  rw [leafTable] at leafEq
  rw [leafPte, Radix.lookup, leafEq]

theorem leafPte_of_missing {virt : Word} (missing : leafTable ram root virt = none) :
    leafPte ram root virt = 0#64 := by
  rw [leafTable] at missing
  rw [leafPte, Radix.lookup, missing]

theorem leafPte_congr {root' : Nat} {virt virt' : Word} (keyEq : pageKey virt' = pageKey virt)
    (shared : entryTable (topEntry ram root' virt) = entryTable (topEntry ram root virt)) :
    leafPte ram root' virt' = leafPte ram root virt := by
  obtain ⟨pathEq, lastEq⟩ := pageKey_eq_iff.mp keyEq
  rw [topEntry, topEntry] at shared
  rw [leafPte, leafPte, pathEq, lastEq, tablePath]
  exact Radix.lookup_cons_congr shared _ _ _

section Spec

variable {σ : Type} {hhdm : Word} {source : FrameSource σ} (spec : FrameSpec hhdm source)
variable {vmm : Word}

/-- What replacing the entry of `virt` in the address space of `root` by
`value` may change. -/
structure Updated (root : Nat) (virt value : Word) (height : Nat → Option Nat)
    (state : MmState σ) (height' : Nat → Option Nat) (state' : MmState σ) : Prop
    extends Extends spec ∅ height state height' state' where
  leafPte_eq : ∀ {root'} (virt' : Word), height root' = some 3 →
    leafPte state'.ram root' virt' =
      if pageKey virt' = pageKey virt ∧
          entryTable (topEntry state'.ram root' virt) = entryTable (topEntry state'.ram root virt)
        then value else leafPte state.ram root' virt'
  roots : ∀ {page index}, height page = some 3 →
    ¬(page = root ∧ index = tableIndex (lvl4Offset virt)) →
    tableStore state'.ram page index = tableStore state.ram page index
  supply_le : spec.supply state.frames ≤ spec.supply state'.frames + 3
  frames_eq : leafTable state.ram root virt ≠ none → state'.frames = state.frames

variable {spec} {height height' : Nat → Option Nat} {state state' : MmState σ}
  {root : Nat} {virt : Word}

/-- A walk without a write puts the old entry back. -/
theorem Grows.updated
    (grows : Grows spec root (tableIndex (lvl4Offset virt)) height state height' state')
    (rootHeight : height root = some 3)
    (supplyLe : spec.supply state.frames ≤ spec.supply state'.frames + 3)
    (same : leafTable state.ram root virt ≠ none → state' = state) :
    Updated spec root virt (leafPte state.ram root virt) height state height' state' where
  toExtends := grows.toExtends
  leafPte_eq := by
    intro root' virt' rootHeight'
    have keep : ∀ {other} (address : Word), height other = some 3 →
        leafPte state'.ram other address = leafPte state.ram other address :=
      fun address otherHeight => grows.lookup_eq (leafIndex address) otherHeight
    split
    · next both =>
      rw [← keep virt rootHeight]
      exact leafPte_congr both.1 both.2
    · exact keep virt' rootHeight'
  roots := grows.roots
  supply_le := supplyLe
  frames_eq := fun reached => by rw [same reached]

theorem Updated.own_leafPte {virt value : Word}
    (updated : Updated spec root virt value height state height' state')
    (rootHeight : height root = some 3) (virt' : Word) :
    leafPte state'.ram root virt' =
      if pageKey virt' = pageKey virt then value else leafPte state.ram root virt' := by
  rw [updated.leafPte_eq virt' rootHeight]
  simp

theorem Updated.map_leafPte {target physical flags : Word}
    (updated : Updated spec root target
      ((PageOp.map target physical flags).onEntry (leafPte state.ram root target)).2
      height state height' state')
    (rootHeight : height root = some 3) (virt : Word) :
    leafPte state'.ram root virt =
      if Present (leafPte state.ram root virt) then leafPte state.ram root virt
      else if pageKey virt = pageKey target then physical ||| flags
      else leafPte state.ram root virt := by
  rw [updated.own_leafPte rootHeight]
  by_cases keyEq : pageKey virt = pageKey target
  · have same : leafPte state.ram root virt = leafPte state.ram root target :=
      leafPte_congr keyEq rfl
    rw [if_pos keyEq, if_pos keyEq, same]
    rfl
  · rw [if_neg keyEq, if_neg keyEq, ite_self]

theorem leafTable_height (tables : Tables spec height state) (rootHeight : height root = some 3)
    (leafEq : leafTable state.ram root virt = some leaf) :
    height leaf = some 0 :=
  tables.forest.descend_height rootHeight leafEq

/-- A table of the last level is reached from the roots along one path. -/
theorem leafTable_eq_iff (tables : Tables spec height state) {root' : Nat} {virt' : Word}
    (rootHeight : height root = some 3) (rootHeight' : height root' = some 3)
    (leafEq : leafTable state.ram root virt = some leaf) :
    leafTable state.ram root' virt' = some leaf ∧ leafIndex virt' = leafIndex virt ↔
      pageKey virt' = pageKey virt ∧
        entryTable (topEntry state.ram root' virt) = entryTable (topEntry state.ram root virt) := by
  rw [pageKey_eq_iff]
  constructor
  · rintro ⟨leafEq', lastEq⟩
    rw [leafTable, tablePath] at leafEq leafEq'
    obtain ⟨indexEq, pathEq, shared⟩ := tables.forest.root_descend_injective
      rootHeight' rootHeight (h := 0) (by rfl) (by rfl) leafEq' leafEq
    rw [indexEq] at shared
    exact ⟨⟨by rw [tablePath, indexEq, pathEq, tablePath], lastEq⟩, shared⟩
  · rintro ⟨⟨pathEq, lastEq⟩, shared⟩
    refine ⟨?_, lastEq⟩
    rw [topEntry, topEntry] at shared
    rw [← leafEq, leafTable, leafTable, pathEq, tablePath]
    exact Radix.descend_cons_congr shared _

theorem Grows.write
    (grows : Grows spec root (tableIndex (lvl4Offset virt)) height state height' state')
    (rootHeight : height root = some 3) (leafEq : leafTable state'.ram root virt = some leaf)
    (value : Word) (supplyLe : spec.supply state.frames ≤ spec.supply state'.frames + 3)
    (same : leafTable state.ram root virt ≠ none → state' = state) :
    Updated spec root virt value height state height'
      (state'.store hhdm (directPtr hhdm leaf + 8#64 * lvl1Offset virt) value) := by
  have rootHeight' := grows.keeps rootHeight
  have leafHeight := leafTable_height grows.tables rootHeight' leafEq
  obtain ⟨-, leafLt, -⟩ := grows.tables.direct leafHeight
  have storeEq : tableStore (state'.store hhdm
      (directPtr hhdm leaf + 8#64 * lvl1Offset virt) value).ram =
        Radix.setEntry (tableStore state'.ram) leaf (leafIndex virt) value :=
    tableStore_store_slot state' leafLt (lvl1Offset_lt virt) value
  have newRow : ∀ {page h} (index : Fin 512), height' page = some (h + 1) →
      tableStore (state'.store hhdm (directPtr hhdm leaf + 8#64 * lvl1Offset virt) value).ram
        page index = tableStore state'.ram page index := by
    intro page h index heightEq
    rw [storeEq]
    apply Radix.setEntry_of_ne_node
    rintro rfl
    simp [heightEq] at leafHeight
  have upperRow : ∀ {page h} (index : Fin 512), height page = some (h + 1) →
      tableStore (state'.store hhdm (directPtr hhdm leaf + 8#64 * lvl1Offset virt) value).ram
        page index = tableStore state'.ram page index :=
    fun index heightEq => newRow index (grows.keeps heightEq)
  refine ⟨⟨⟨grows.tables.valid, ?_, grows.tables.used, grows.tables.direct⟩, grows.keeps,
    ?_, grows.taken_free, grows.taken_height, grows.free_iff, ?_, ?_, ?_⟩, ?_, ?_,
    supplyLe, ?_⟩
  · rw [storeEq]
    exact grows.tables.forest.setEntry_leaf leafHeight _ value
  · intro page h heightEq
    rcases grows.fresh heightEq with old | ⟨free, inTaken | ⟨node, index, nodeHeight, points⟩⟩
    · exact Or.inl old
    · exact Or.inr ⟨free, Or.inl inTaken⟩
    · exact Or.inr ⟨free, Or.inr ⟨node, index, nodeHeight, by rwa [newRow index nodeHeight]⟩⟩
  · intro page h index heightEq isPresent
    rw [upperRow index heightEq]
    exact grows.present heightEq isPresent
  · intro page h index next heightEq absent points
    rw [upperRow index heightEq] at points
    exact grows.child_fresh heightEq absent points
  · intro page used blank
    have different : page ≠ leaf := by
      rintro rfl
      simp [(grows.used_blank used blank).2] at leafHeight
    exact (grows.frame used blank).trans
      (samePage_store_slot state' leafLt (lvl1Offset_lt virt) different value)
  · intro root' virt' otherHeight
    have otherHeight' := grows.keeps otherHeight
    rw [topEntry, topEntry, upperRow _ otherHeight, upperRow _ rootHeight, leafPte, storeEq,
      grows.tables.forest.lookup_setEntry_leaf leafHeight _ value 0#64 _ otherHeight']
    congr 1
    · exact propext (leafTable_eq_iff grows.tables rootHeight' otherHeight' leafEq)
    · exact grows.lookup_eq (leafIndex virt') otherHeight
  · intro page index heightEq other
    rw [upperRow index heightEq]
    exact grows.roots heightEq other
  · intro reached
    rw [same reached]
    rfl

theorem load_leaf (tables : Tables spec height state) (rootHeight : height root = some 3)
    (leafEq : leafTable state.ram root virt = some leaf) :
    state.load hhdm (directPtr hhdm leaf + 8#64 * lvl1Offset virt) =
      leafPte state.ram root virt := by
  obtain ⟨-, leafLt, -⟩ := tables.direct (leafTable_height tables rootHeight leafEq)
  rw [load_slot state leafLt (lvl1Offset_lt virt), leafPte_of_leafTable leafEq]
  rfl

section

variable (virt) (tables : Tables spec height state) (rootHeight : height root = some 3)
  (rootPtr : state.load hhdm (pmlField vmm) = directPtr hhdm root)
include tables rootHeight rootPtr

/-- The walk that the allocating operations share, up to the entry they act
on. -/
theorem walk_to_entry :
    (∃ reason, (∃ frames, source frames = .error reason) ∧
      spec.supply state.frames < missingTables state.ram root (tablePath virt) ∧
      walkTables hhdm source state vmm virt true = .error reason) ∨
    ∃ height' state' leaf,
      walkTables hhdm source state vmm virt true = .ok (directPtr hhdm leaf, state') ∧
      spec.supply state.frames ≤
        spec.supply state'.frames + missingTables state.ram root (tablePath virt) ∧
      directPtr hhdm leaf ≠ 0#64 ∧
      directPtr hhdm leaf + 8#64 * lvl1Offset virt ≠ 0#64 ∧
      state'.load hhdm (directPtr hhdm leaf + 8#64 * lvl1Offset virt) =
        leafPte state.ram root virt ∧
      leafTable state'.ram root virt = some leaf ∧
      Updated spec root virt (leafPte state.ram root virt) height state height' state' ∧
      ∀ value, Updated spec root virt value height state height'
        (state'.store hhdm (directPtr hhdm leaf + 8#64 * lvl1Offset virt) value) := by
  rcases walkTables_alloc tables virt rootHeight rootPtr with failed |
    ⟨height', state', leaf, walked, grows, leafEq, supplyLe, same⟩
  · exact Or.inl failed
  · right
    have missingLe := missingTables_le state.ram root (tablePath virt)
    have supplyLe' : spec.supply state.frames ≤ spec.supply state'.frames + 3 :=
      supplyLe.trans (Nat.add_le_add_left missingLe _)
    have rootHeight' := grows.keeps rootHeight
    have leafDirect := grows.tables.direct (leafTable_height grows.tables rootHeight' leafEq)
    refine ⟨height', state', leaf, walked, supplyLe,
      directPtr_ne_zero leafDirect.1 leafDirect.2.2, ?_, ?_, leafEq,
      grows.updated rootHeight supplyLe' same,
      fun value => grows.write rootHeight leafEq value supplyLe' same⟩
    · exact directPtr_slot_ne_zero leafDirect.1 leafDirect.2.2 (lvl1Offset_lt virt)
    · rw [load_leaf grows.tables rootHeight' leafEq]
      exact grows.lookup_eq (leafIndex virt) rootHeight

/-- `vmm_unmap_page` takes no frame and writes nothing but an entry of a table of
the last level. -/
theorem vmmUnmapPage_spec :
    ∃ ok value state', (PageOp.unmap virt).onEntry (leafPte state.ram root virt) = (.flag ok, value) ∧
      vmmUnmapPage hhdm source state vmm virt = .ok (ok, state') ∧
      state'.frames = state.frames ∧
      (∀ {page}, height page ≠ some 0 → SamePage state.ram state'.ram page) ∧
      Updated spec root virt value height state height state' := by
  have walked := walkTables_query tables virt rootHeight rootPtr
  have grows := Grows.refl tables root (tableIndex (lvl4Offset virt))
  have kept := grows.updated rootHeight (by omega) (fun _ => rfl)
  cases leafEq : leafTable state.ram root virt with
  | none =>
      have absent : ¬ Present (leafPte state.ram root virt) := by
        rw [leafPte_of_missing leafEq]
        decide
      rw [leafEq, Option.elim_none] at walked
      refine ⟨_, _, state, PageOp.onEntry_unmap_absent absent _, ?_, rfl,
        fun _ => SamePage.refl _ _, kept⟩
      simp only [vmmUnmapPage, walked, ok_bind, if_true]
  | some leaf =>
      have leafHeight := leafTable_height tables rootHeight leafEq
      have leafDirect := tables.direct leafHeight
      have leafNe := directPtr_ne_zero leafDirect.1 leafDirect.2.2
      have entryEq := load_leaf tables rootHeight leafEq
      rw [leafEq, Option.elim_some] at walked
      by_cases present : Present (leafPte state.ram root virt)
      · refine ⟨_, _, state.store hhdm (directPtr hhdm leaf + 8#64 * lvl1Offset virt) 0#64,
          PageOp.onEntry_unmap_present present _, ?_, rfl, ?_,
          grows.write rootHeight leafEq 0#64 (by omega) (fun _ => rfl)⟩
        · simp only [vmmUnmapPage, walked, ok_bind, if_neg leafNe, entryEq, if_pos present]
        · intro page notLeaf
          refine samePage_store_slot state leafDirect.2.1 (lvl1Offset_lt virt) ?_ 0#64
          rintro rfl
          exact notLeaf leafHeight
      · refine ⟨_, _, state, PageOp.onEntry_unmap_absent present _, ?_, rfl,
          fun _ => SamePage.refl _ _, kept⟩
        simp only [vmmUnmapPage, walked, ok_bind, if_neg leafNe, entryEq, if_neg present]

end

/-- Every operation either stops in the allocator's panic, or returns what its
description says and replaces the entry as it says. -/
theorem pageOp_spec (tables : Tables spec height state) (op : PageOp)
    (rootHeight : height root = some 3)
    (rootPtr : state.load hhdm (pmlField vmm) = directPtr hhdm root) :
    (∃ reason, (∃ frames, source frames = .error reason) ∧ spec.supply state.frames ≤ 2 ∧
      op.run hhdm source state vmm = .error reason) ∨
    ∃ result value height' state',
      op.onEntry (leafPte state.ram root op.virt) = (result, value) ∧
      op.run hhdm source state vmm = .ok (result, state') ∧
      Updated spec root op.virt value height state height' state' := by
  have missingLe := missingTables_le state.ram root (tablePath op.virt)
  rw [length_tablePath] at missingLe
  cases op with
  | map virt physical flags =>
      rcases walk_to_entry virt tables rootHeight rootPtr with
        ⟨reason, failed, short, walked⟩ |
        ⟨height', state', leaf, walked, -, leafNe, -, entryEq, -, kept, written⟩
      · left
        refine ⟨reason, failed, Nat.le_of_lt_succ (short.trans_le missingLe), ?_⟩
        simp only [PageOp.run, vmmMapPage, walked, panic_bind]
      · right
        by_cases present : Present (leafPte state.ram root virt)
        · refine ⟨_, _, height', state', PageOp.onEntry_map_present present _ _ _, ?_, kept⟩
          simp only [PageOp.run, vmmMapPage, walked, ok_bind, if_neg leafNe, entryEq,
            if_pos present]
        · refine ⟨_, _, height', _, PageOp.onEntry_map_absent present _ _ _, ?_, written _⟩
          simp only [PageOp.run, vmmMapPage, walked, ok_bind, if_neg leafNe, entryEq,
            if_neg present]
  | unmap virt =>
      right
      obtain ⟨ok, value, state', described, returned, -, -, updated⟩ :=
        vmmUnmapPage_spec virt tables rootHeight rootPtr
      refine ⟨_, _, height, state', described, ?_, updated⟩
      simp only [PageOp.run, returned, ok_bind]
  | changeFlag virt flags =>
      rcases walk_to_entry virt tables rootHeight rootPtr with
        ⟨reason, failed, short, walked⟩ |
        ⟨height', state', leaf, walked, -, leafNe, -, entryEq, -, kept, written⟩
      · left
        refine ⟨reason, failed, Nat.le_of_lt_succ (short.trans_le missingLe), ?_⟩
        simp only [PageOp.run, vmmChangeFlag, walked, panic_bind]
      · right
        by_cases present : Present (leafPte state.ram root virt)
        · refine ⟨_, _, height', _, PageOp.onEntry_changeFlag_present present _ _, ?_,
            written _⟩
          simp only [PageOp.run, vmmChangeFlag, walked, ok_bind, if_neg leafNe, entryEq,
            if_pos present]
        · refine ⟨_, _, height', state', PageOp.onEntry_changeFlag_absent present _ _, ?_,
            kept⟩
          simp only [PageOp.run, vmmChangeFlag, walked, ok_bind, if_neg leafNe, entryEq,
            if_neg present]
  | virt2phys virt alloc =>
      rcases walk_to_entry virt tables rootHeight rootPtr with
        ⟨reason, failed, short, walked⟩ |
        ⟨height', state', leaf, walked, -, leafNe, slotNe, entryEq, -, kept, -⟩
      · left
        refine ⟨reason, failed, Nat.le_of_lt_succ (short.trans_le missingLe), ?_⟩
        simp only [PageOp.run, vmmVirt2phys, vmmVirt2pte, walked, panic_bind]
      · right
        refine ⟨_, _, height', state', rfl, ?_, kept⟩
        simp only [PageOp.run, vmmVirt2phys, vmmVirt2pte, walked, ok_bind, if_neg leafNe,
          if_neg slotNe, entryEq, PageOp.virt]

theorem pageOp_returned (tables : Tables spec height state) {op : PageOp} {result : OpResult}
    {after : MmState σ} (rootHeight : height root = some 3)
    (rootPtr : state.load hhdm (pmlField vmm) = directPtr hhdm root)
    (call : op.run hhdm source state vmm = .ok (result, after)) :
    ∃ value height', op.onEntry (leafPte state.ram root op.virt) = (result, value) ∧
      Updated spec root op.virt value height state height' after := by
  rcases pageOp_spec tables op rootHeight rootPtr with
    ⟨reason, -, -, stopped⟩ | ⟨_, value, height', state', entry, returned, updated⟩
  · rw [stopped] at call
    cases call
  · rw [returned] at call
    cases call
    exact ⟨value, height', entry, updated⟩

end Spec

end MmdOS
