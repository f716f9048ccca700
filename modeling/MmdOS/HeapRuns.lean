import MmdOS.AddressSpaceRuns
import MmdOS.KernelHeap
import MmdOS.PhysicalAllocatorRuns
import Mathlib.Order.Interval.Set.Disjoint

/-!
# Who owns which frame

A run of the heap is paired with the blocks that are live and with the address
spaces that `vmm_new` has returned.  Every frame that has left the bitmap since
`vmm_init` then has one owner: the arena of a live block, the page tables, or
an address space.
-/

namespace MmdOS

open ByteMemory
open WordStack (slot)

variable {page top : Nat} {mm : MmState Pmm}
variable {hhdm : Word} {height : Nat → Option Nat} {kernel : Space}

structure HeapBlock where
  ptr : Word
  size : Word
  deriving DecidableEq

/-- The kernel with the blocks that are live and the address spaces that
`vmm_new` has returned. -/
structure HeapHistory where
  kernel : KernelState Pmm
  live : List HeapBlock
  spaces : List Word

/-- One call that returns.  `k_alloc` is asked for sizes from `Sizes` only. -/
inductive HeapStep (hhdm : Word) (Sizes : Word → Prop) : HeapHistory → HeapHistory → Prop
  | alloc {history : HeapHistory} {ptr : Word} {mm : MmState Pmm} (fuel : Nat) (size : Word)
      (asked : Sizes size)
      (call : kAlloc hhdm fuel history.kernel.mm history.kernel.vmmKernel size =
        some (.ok (ptr, mm))) :
      HeapStep hhdm Sizes history
        ⟨{ history.kernel with mm }, ⟨ptr, size⟩ :: history.live, history.spaces⟩
  | free {history : HeapHistory} {mm : MmState Pmm} (block : HeapBlock)
      (isLive : block ∈ history.live)
      (call : kFree hhdm history.kernel.mm history.kernel.vmmKernel block.ptr = .ok mm) :
      HeapStep hhdm Sizes history
        ⟨{ history.kernel with mm }, history.live.erase block, history.spaces⟩
  | new {history : HeapHistory} {newVmm : Word} {mm : MmState Pmm}
      (created : vmmNew hhdm pmmSource history.kernel.mm history.kernel.vmmKernel =
        .ok (newVmm, mm)) :
      HeapStep hhdm Sizes history
        ⟨{ history.kernel with mm }, history.live, newVmm :: history.spaces⟩

namespace HeapBlock

variable (hhdm : Word) (mm : MmState Pmm) (block : HeapBlock)

def bytes : Set Nat :=
  Set.Ico block.ptr.toNat (block.ptr.toNat + block.size.toNat)

def metadata : Set Nat :=
  Set.Ico (block.ptr - sizeofMetadata).toNat
    ((block.ptr - sizeofMetadata).toNat + sizeofMetadata.toNat)

def arena : Word :=
  mm.load hhdm (block.ptr - sizeofMetadata)

def header : Set Nat :=
  Set.Ico (block.arena hhdm mm).toNat ((block.arena hhdm mm).toNat + sizeofArena.toNat)

def frames : Set Nat :=
  PageBlock.pages ⟨mm.load hhdm (arenaBase (block.arena hhdm mm)) - hhdm,
    (mm.load hhdm (arenaSize (block.arena hhdm mm))).toNat / pageSize⟩

end HeapBlock

section Frames

variable {σ : Type} (hhdm : Word) (mm : MmState σ) (vmm : Word)

def vmmFrame : Nat :=
  (vmm - hhdm).toNat / pageSize

def tableFrames : Set Nat :=
  { page | ∃ path : List (Fin 512), path.length ≤ 3 ∧
    Radix.descend entryTable (tableStore mm.ram) (vmmRoot hhdm mm vmm) path = some page }

end Frames

/-- The sets of frames with an owner: the arenas of the live blocks, the page
tables, and the structure and the top-level table of every address space. -/
def HeapHistory.owners (hhdm : Word) (history : HeapHistory) : List (Set Nat) :=
  history.live.map (HeapBlock.frames hhdm history.kernel.mm) ++
    tableFrames hhdm history.kernel.mm history.kernel.vmmKernel ::
      history.spaces.flatMap fun vmm =>
        [{vmmFrame hhdm vmm}, {vmmRoot hhdm history.kernel.mm vmm}]

def HeapFits (size : Word) : Prop :=
  size.toNat + 48 + 4095 < 2 ^ 64

instance (size : Word) : Decidable (HeapFits size) :=
  inferInstanceAs (Decidable (_ < _))

def Arena.block (hhdm : Word) (arena : Arena) : HeapBlock :=
  ⟨arena.ptr hhdm, arena.size⟩

theorem blank_before {before after : Option Nat} (keeps : ∀ h, before = some h → after = some h)
    (blank : after = none) : before = none := by
  apply Option.eq_none_iff_forall_ne_some.mpr
  intro h was
  rw [keeps h was] at blank
  cases blank

section Linked

variable {σ : Type} {hhdm : Word} {source : FrameSource σ} {spec : FrameSpec hhdm source}
variable {height height' : Nat → Option Nat} {state state' : MmState σ} {taken : Set Nat}

theorem Extends.linked (ext : Extends spec taken height state height' state')
    (linked : Radix.Linked entryTable (tableStore state.ram) 3 height) :
    Radix.Linked entryTable (tableStore state'.ram) 3 height' := by
  intro page h heightEq below
  rcases ext.fresh heightEq with old | ⟨-, inTaken | now⟩
  · obtain ⟨parent, index, parentHeight, points⟩ := linked page h old below
    exact ⟨parent, index, ext.keeps parentHeight, ext.child_eq parentHeight points⟩
  · have := ext.taken_height inTaken heightEq
    omega
  · exact now

theorem Extends.new_root (ext : Extends spec taken height state height' state')
    (rootHeight : height' page = some 3) : height page = some 3 ∨ page ∈ taken := by
  rcases ext.fresh rootHeight with old | ⟨-, inTaken | ⟨node, -, nodeHeight, -⟩⟩
  · exact .inl old
  · exact .inr inTaken
  · have := ext.tables.forest.height_le nodeHeight
    omega

end Linked

theorem SpaceHistory.Forked.released {others : List Space} {history : SpaceHistory Pmm}
    {given : Set Nat} (forked : history.Forked (heapSpec hhdm top) height kernel others)
    (released : Released hhdm top given height history.kernel.mm mm)
    (blank : ∀ page ∈ given, height page = none)
    (apart : ∀ space ∈ kernel :: others, space.vmmPage ∉ given) :
    Forked (heapSpec hhdm top) height kernel others
      ⟨{ history.kernel with mm }, history.spaces⟩ where
  ready := forked.ready.released released blank (apart kernel List.mem_cons_self)
  kernel_eq := forked.kernel_eq
  spaces_eq := forked.spaces_eq
  each := fun space inOthers => (forked.each space inOthers).released released
    (apart space (List.mem_cons_of_mem kernel inOthers))
  roots_nodup := forked.roots_nodup
  vmmPages_nodup := forked.vmmPages_nodup
  upper_eq := by
    intro space inOthers index upperHalf
    rw [released.upper blank (forked.each space inOthers).root_height,
      released.upper blank forked.ready.space_at.root_height]
    exact forked.upper_eq space inOthers index upperHalf

theorem KernelReady.table_height (ready : KernelReady (heapSpec hhdm top) kernel height mm)
    (isTable : page ∈ tableFrames hhdm mm (kernel.vmm hhdm)) :
    ∃ h, height page = some h ∧ (h = 3 → page = kernel.root) := by
  obtain ⟨path, lengthLe, reached⟩ := isTable
  have kernelAt := ready.space_at
  rw [kernelAt.vmmRoot_eq ready.tables] at reached
  refine ⟨3 - path.length, ready.tables.forest.descend_height ?_ reached, ?_⟩
  · rw [kernelAt.root_height]
    congr 1
    omega
  · intro isTop
    have empty : path = [] := List.length_eq_zero_iff.mp (by omega)
    rw [empty, Radix.descend, Option.some.injEq] at reached
    exact reached.symm

namespace HeapHistory

variable {hhdm : Word} {Sizes : Word → Prop} {initial : Pmm}
variable {height height' : Nat → Option Nat} {kernel : Space} {others : List Space}
variable {arenas : List Arena} {history : HeapHistory}

variable {space : Space}

variable {size : Word}

variable (hhdm) in
/-- The address spaces and the arenas of the live blocks stand beside each other.
No call on an address space can change that. -/
structure Standing (top : Nat) (height : Nat → Option Nat) (kernel : Space) (others : List Space)
    (arenas : List Arena) (history : HeapHistory) : Prop where
  forked : SpaceHistory.Forked (heapSpec hhdm top) height kernel others
    ⟨history.kernel, history.spaces⟩
  live_perm : history.live.Perm (arenas.map (Arena.block hhdm))
  arena_at : ∀ arena ∈ arenas, ArenaAt hhdm top height history.kernel.mm arena
  disjoint : arenas.Pairwise fun first second => Disjoint first.pages second.pages
  apart : ∀ arena ∈ arenas, ∀ space ∈ kernel :: others, space.vmmPage ∉ arena.pages

theorem Standing.top_le (standing : Standing hhdm top height kernel others arenas history) :
    top ≤ 2 ^ 40 := by
  obtain ⟨covered, topEq⟩ := standing.forked.ready.tables.valid
  rw [← topEq]
  exact covered.top_le

theorem Standing.extends {taken : Set Nat}
    (standing : Standing hhdm top height kernel others arenas history)
    (ext : Extends (heapSpec hhdm top) taken height history.kernel.mm height' mm) :
    Standing hhdm top height' kernel others arenas
      ⟨{ history.kernel with mm }, history.live, history.spaces⟩ where
  forked := standing.forked.extends ext
  live_perm := standing.live_perm
  arena_at := fun arena member => (standing.arena_at arena member).extends standing.top_le ext
  disjoint := standing.disjoint
  apart := standing.apart

theorem Standing.alloc {top : Nat} {arena : Arena} {mm : MmState Pmm}
    (standing : Standing hhdm top height kernel others arenas history)
    (ext : Extends (heapSpec hhdm top) arena.pages height history.kernel.mm height' mm)
    (arenaAt : ArenaAt hhdm top height' mm arena) :
    Standing hhdm top height' kernel others (arena :: arenas)
      ⟨{ history.kernel with mm }, arena.block hhdm :: history.live, history.spaces⟩ where
  forked := standing.forked.extends ext
  live_perm := standing.live_perm.cons _
  arena_at := by
    intro other member
    rcases List.mem_cons.mp member with rfl | old
    · exact arenaAt
    · exact (standing.extends ext).arena_at other old
  disjoint := by
    refine List.pairwise_cons.mpr ⟨fun other old => ?_, standing.disjoint⟩
    rw [Set.disjoint_left]
    intro page inside inOther
    exact (standing.arena_at other old).used page inOther (ext.taken_free inside)
  apart := by
    intro other member space inSpaces
    rcases List.mem_cons.mp member with rfl | old
    · intro inside
      exact (standing.forked.space_at inSpaces).used (ext.taken_free inside)
    · exact standing.apart other old space inSpaces

theorem Standing.new (standing : Standing hhdm top height kernel others arenas history)
    (opened : Opened (heapSpec hhdm top) kernel space height history.kernel.mm height' mm) :
    Standing hhdm top height' kernel (space :: others) arenas
      ⟨{ history.kernel with mm }, history.live, space.vmm hhdm :: history.spaces⟩ where
  forked := standing.forked.new opened
  live_perm := standing.live_perm
  arena_at := (standing.extends opened.toExtends).arena_at
  disjoint := standing.disjoint
  apart := by
    intro arena member other inSpaces inside
    rcases List.mem_cons.mp inSpaces with rfl | inOthers
    · exact standing.apart arena member other List.mem_cons_self inside
    rcases List.mem_cons.mp inOthers with rfl | old
    · exact (standing.arena_at arena member).used _ inside (opened.taken_free (Set.mem_insert _ _))
    · exact standing.apart arena member other (List.mem_cons_of_mem kernel old) inside

theorem Standing.free {top : Nat} {arena : Arena} {rest : List Arena} {mm : MmState Pmm}
    (standing : Standing hhdm top height kernel others arenas history)
    (perm : arenas.Perm (arena :: rest))
    (released : Released hhdm top arena.pages height history.kernel.mm mm) :
    Standing hhdm top height kernel others rest
      ⟨{ history.kernel with mm }, history.live.erase (arena.block hhdm), history.spaces⟩ := by
  have member : arena ∈ arenas := perm.mem_iff.mpr List.mem_cons_self
  have others_mem : ∀ other ∈ rest, other ∈ arenas :=
    fun other inRest => perm.mem_iff.mpr (List.mem_cons_of_mem arena inRest)
  obtain ⟨disjoint, restDisjoint⟩ := List.pairwise_cons.mp
    ((perm.pairwise_iff fun apart => Disjoint.symm apart).mp standing.disjoint)
  refine
    { forked := standing.forked.released released (standing.arena_at arena member).blank
        (standing.apart arena member)
      live_perm := ?_
      arena_at := ?_
      disjoint := restDisjoint
      apart := fun other inRest => standing.apart other (others_mem other inRest) }
  · have erased := (standing.live_perm.trans (perm.map _)).erase (arena.block hhdm)
    rwa [List.map_cons, List.erase_cons_head] at erased
  · intro other inRest
    exact (standing.arena_at other (others_mem other inRest)).released standing.top_le released
      (disjoint other inRest).symm

theorem Standing.free_arena {arena : Arena}
    (standing : Standing hhdm top height kernel others arenas history) (member : arena ∈ arenas) :
    ∃ mm, kFree hhdm history.kernel.mm history.kernel.vmmKernel (arena.ptr hhdm) = .ok mm ∧
      Released hhdm top arena.pages height history.kernel.mm mm ∧
      ∀ page ∈ arena.pages, ¬ Present (leafPte mm.ram kernel.root (directPtr hhdm page)) := by
  have kernelEq : history.kernel.vmmKernel = kernel.vmm hhdm := standing.forked.kernel_eq
  rw [kernelEq]
  exact kFree_spec standing.forked.ready (standing.arena_at arena member)
    (standing.apart arena member kernel List.mem_cons_self)

variable (hhdm Sizes initial) in
structure Owned (height : Nat → Option Nat) (kernel : Space) (others : List Space)
    (arenas : List Arena) (history : HeapHistory) : Prop
    extends Standing hhdm initial.bitmapTopIndex height kernel others arenas history where
  origin : ∀ arena ∈ arenas, ∀ page ∈ arena.pages, page ∈ initial.freeSet
  sized : ∀ arena ∈ arenas, Sizes arena.size ∧ arena.count = (heapPages arena.size).toNat
  copied : ∀ space ∈ others, ∀ index,
    Present (tableStore history.kernel.mm.ram space.root index) →
    tableStore history.kernel.mm.ram kernel.root index =
      tableStore history.kernel.mm.ram space.root index
  roots : ∀ {page}, height page = some 3 → ∃ space ∈ kernel :: others, page = space.root
  linked : Radix.Linked entryTable (tableStore history.kernel.mm.ram) 3 height
  below : ∀ {page h}, height page = some h → page < initial.bitmapTopIndex
  vmm_below : ∀ space ∈ kernel :: others, space.vmmPage < initial.bitmapTopIndex
  free_iff : ∀ page, page ∈ history.kernel.mm.frames.freeSet ↔
    page ∈ initial.freeSet ∧ height page = none ∧
      (∀ space ∈ others, page ≠ space.vmmPage) ∧ ∀ arena ∈ arenas, page ∉ arena.pages

theorem Owned.booted {layout : KernelLayout} {state : MmState Pmm} {start : KernelState Pmm}
    (covered : state.frames.Covered hhdm)
    (returned : vmmInit hhdm pmmSource layout state = .ok start) :
    ∃ height kernel,
      Owned hhdm Sizes start.mm.frames height kernel [] [] ⟨start, [], []⟩ := by
  obtain ⟨top, topEq⟩ : ∃ top, state.frames.bitmapTopIndex = top := ⟨_, rfl⟩
  have valid : (heapSpec hhdm top).Valid state.frames := ⟨covered, topEq⟩
  rcases vmmInit_spec valid layout with ⟨reason, -, -, stopped⟩ |
    ⟨kernel, height, world, worldEq, kernelEq, -, ready, ext, -, -, -⟩
  · rw [stopped] at returned
    cases returned
  rw [worldEq] at returned
  cases returned
  have below : ∀ {page}, page ∈ state.frames.freeSet → page < top := by
    intro page free
    rw [← topEq]
    exact (Pmm.mem_freeSet.mp free).1
  obtain ⟨-, rfl⟩ := ready.tables.valid
  refine ⟨height, kernel, ⟨⟨ready, kernelEq, rfl, by simp, by simp, by simp, by simp⟩,
    List.Perm.nil, by simp, List.Pairwise.nil, by simp⟩, by simp, by simp, by simp, ?_, ?_, ?_,
    ?_, ?_⟩
  · intro page rootHeight
    rcases ext.new_root rootHeight with old | isVmm | isRoot
    · cases old
    · rw [isVmm, ready.space_at.blank] at rootHeight
      cases rootHeight
    · exact ⟨kernel, List.mem_cons_self, isRoot⟩
  · exact ext.linked fun page h heightEq => by cases heightEq
  · intro page h heightEq
    rcases ext.fresh heightEq with old | ⟨free, -⟩
    · cases old
    · exact below free
  · intro space member
    rw [List.mem_singleton.mp member]
    exact below (ext.taken_free (Set.mem_insert _ _))
  · intro page
    simp only [List.not_mem_nil, false_implies, implies_true, and_true]
    exact ⟨fun free => ⟨free, ready.tables.not_free free⟩, And.left⟩

theorem Owned.alloc (owned : Owned hhdm Sizes initial height kernel others arenas history)
    {arena : Arena} {mm : MmState Pmm}
    (ext : Extends (heapSpec hhdm initial.bitmapTopIndex) arena.pages height history.kernel.mm
      height' mm)
    (arenaAt : ArenaAt hhdm initial.bitmapTopIndex height' mm arena)
    (rows : ∀ {page index}, height page = some 3 → page ≠ kernel.root →
      tableStore mm.ram page index = tableStore history.kernel.mm.ram page index)
    (asked : Sizes arena.size) (countEq : arena.count = (heapPages arena.size).toNat) :
    Owned hhdm Sizes initial height' kernel others (arena :: arenas)
      ⟨{ history.kernel with mm }, arena.block hhdm :: history.live, history.spaces⟩ where
  toStanding := owned.toStanding.alloc ext arenaAt
  origin := by
    intro other member page inside
    rcases List.mem_cons.mp member with rfl | old
    · exact ((owned.free_iff page).mp (ext.taken_free inside)).1
    · exact owned.origin other old page inside
  sized := by
    intro other member
    rcases List.mem_cons.mp member with rfl | old
    · exact ⟨asked, countEq⟩
    · exact owned.sized other old
  copied := by
    intro space inOthers index present
    have rootHeight := (owned.forked.each space inOthers).root_height
    rw [rows rootHeight (owned.forked.root_ne_kernel inOthers)] at present ⊢
    have same := owned.copied space inOthers index present
    rw [← same] at present ⊢
    exact ext.present owned.forked.ready.space_at.root_height present
  roots := by
    intro page rootHeight
    rcases ext.new_root rootHeight with old | inside
    · exact owned.roots old
    · rw [arenaAt.blank page inside] at rootHeight
      cases rootHeight
  linked := ext.linked owned.linked
  below := by
    intro page h heightEq
    rcases ext.fresh heightEq with old | ⟨free, -⟩
    · exact owned.below old
    · exact (Pmm.mem_freeSet.mp ((owned.free_iff page).mp free).1).1
  vmm_below := owned.vmm_below
  free_iff := by
    intro page
    have now : page ∈ mm.frames.freeSet ↔ page ∈ history.kernel.mm.frames.freeSet ∧
      height' page = none ∧ page ∉ arena.pages := ext.free_iff page
    dsimp only
    rw [now, owned.free_iff, List.forall_mem_cons]
    constructor
    · rintro ⟨⟨wasFree, -, spaces, outside⟩, blank, notHere⟩
      exact ⟨wasFree, blank, spaces, notHere, outside⟩
    · rintro ⟨wasFree, blank, spaces, notHere, outside⟩
      exact ⟨⟨wasFree, blank_before (fun _ => ext.keeps) blank, spaces, outside⟩, blank, notHere⟩

theorem Owned.new (owned : Owned hhdm Sizes initial height kernel others arenas history)
    (opened : Opened (heapSpec hhdm initial.bitmapTopIndex) kernel space height
      history.kernel.mm height' mm) :
    Owned hhdm Sizes initial height' kernel (space :: others) arenas
      ⟨{ history.kernel with mm }, history.live, space.vmm hhdm :: history.spaces⟩ where
  toStanding := owned.toStanding.new opened
  origin := owned.origin
  sized := owned.sized
  copied := by
    intro other member index present
    rcases List.mem_cons.mp member with rfl | inOthers
    · exact (opened.copied index).symm
    · have rootHeight := (owned.forked.each other inOthers).root_height
      rw [opened.roots rootHeight (owned.forked.root_ne_kernel inOthers)] at present ⊢
      have same := owned.copied other inOthers index present
      rw [← same] at present ⊢
      exact opened.present owned.forked.ready.space_at.root_height present
  roots := by
    intro page rootHeight
    rcases opened.new_root rootHeight with old | isVmm | isRoot
    · obtain ⟨other, inSpaces, rootEq⟩ := owned.roots old
      exact ⟨other, by simp only [List.mem_cons] at inSpaces ⊢; tauto, rootEq⟩
    · rw [isVmm, opened.space_at.blank] at rootHeight
      cases rootHeight
    · exact ⟨space, by simp, isRoot⟩
  linked := opened.linked owned.linked
  below := by
    intro page h heightEq
    rcases opened.fresh heightEq with old | ⟨free, -⟩
    · exact owned.below old
    · exact (Pmm.mem_freeSet.mp ((owned.free_iff page).mp free).1).1
  vmm_below := by
    intro other inSpaces
    rcases List.mem_cons.mp inSpaces with rfl | inOthers
    · exact owned.vmm_below other List.mem_cons_self
    rcases List.mem_cons.mp inOthers with rfl | old
    · have free := opened.taken_free (Set.mem_insert _ _)
      exact (Pmm.mem_freeSet.mp ((owned.free_iff _).mp free).1).1
    · exact owned.vmm_below other (List.mem_cons_of_mem kernel old)
  free_iff := by
    intro page
    have now : page ∈ mm.frames.freeSet ↔ page ∈ history.kernel.mm.frames.freeSet ∧
      height' page = none ∧ page ∉ ({space.vmmPage, space.root} : Set Nat) := opened.free_iff page
    dsimp only
    rw [now, owned.free_iff, List.forall_mem_cons]
    constructor
    · rintro ⟨⟨wasFree, -, spaces, outside⟩, blank, notHere⟩
      exact ⟨wasFree, blank, ⟨fun same => notHere (.inl same), spaces⟩, outside⟩
    · rintro ⟨wasFree, blank, ⟨notVmm, spaces⟩, outside⟩
      refine ⟨⟨wasFree, blank_before (fun _ => opened.keeps) blank, spaces, outside⟩, blank, ?_⟩
      rintro (isVmm | isRoot)
      · exact notVmm isVmm
      · rw [isRoot, opened.space_at.root_height] at blank
        cases blank

theorem Owned.free (owned : Owned hhdm Sizes initial height kernel others arenas history)
    {arena : Arena} {rest : List Arena} {mm : MmState Pmm} (perm : arenas.Perm (arena :: rest))
    (released : Released hhdm initial.bitmapTopIndex arena.pages height history.kernel.mm mm) :
    Owned hhdm Sizes initial height kernel others rest
      ⟨{ history.kernel with mm }, history.live.erase (arena.block hhdm), history.spaces⟩ := by
  have member : arena ∈ arenas := perm.mem_iff.mpr List.mem_cons_self
  have others_mem : ∀ other ∈ rest, other ∈ arenas :=
    fun other inRest => perm.mem_iff.mpr (List.mem_cons_of_mem arena inRest)
  have disjoint := (List.pairwise_cons.mp
    ((perm.pairwise_iff fun apart => Disjoint.symm apart).mp owned.disjoint)).1
  have blank := (owned.arena_at arena member).blank
  have upper : ∀ {page h} (index : Fin 512), height page = some (h + 1) →
      tableStore mm.ram page index = tableStore history.kernel.mm.ram page index :=
    fun index heightEq => released.upper blank heightEq index
  refine
    { toStanding := owned.toStanding.free perm released
      origin := fun other inRest => owned.origin other (others_mem other inRest)
      sized := fun other inRest => owned.sized other (others_mem other inRest)
      copied := ?_
      roots := owned.roots
      linked := ?_
      below := owned.below
      vmm_below := owned.vmm_below
      free_iff := ?_ }
  · intro space inOthers index present
    have kernelHeight := owned.forked.ready.space_at.root_height
    have spaceHeight := (owned.forked.each space inOthers).root_height
    dsimp only at present ⊢
    rw [upper index spaceHeight] at present ⊢
    rw [upper index kernelHeight]
    exact owned.copied space inOthers index present
  · intro page h heightEq belowTop
    obtain ⟨parent, index, parentHeight, points⟩ := owned.linked page h heightEq belowTop
    exact ⟨parent, index, parentHeight, by rwa [upper index parentHeight]⟩
  · intro page
    have inArenas : (∀ other ∈ arenas, page ∉ other.pages) ↔
        page ∉ arena.pages ∧ ∀ other ∈ rest, page ∉ other.pages := by
      simp only [perm.mem_iff, List.forall_mem_cons]
    dsimp only
    rw [released.free_iff, owned.free_iff, inArenas]
    constructor
    · rintro (⟨wasFree, notTable, spaces, -, outside⟩ | inside)
      · exact ⟨wasFree, notTable, spaces, outside⟩
      · refine ⟨owned.origin arena member page inside, blank page inside, ?_, ?_⟩
        · rintro space inOthers rfl
          exact owned.apart arena member space (List.mem_cons_of_mem kernel inOthers) inside
        · intro other inRest inOther
          exact Set.disjoint_left.mp (disjoint other inRest) inside inOther
    · rintro ⟨wasFree, notTable, spaces, outside⟩
      by_cases inside : page ∈ arena.pages
      · exact .inr inside
      · exact .inl ⟨wasFree, notTable, spaces, inside, outside⟩

variable {block : HeapBlock}

section

variable (owned : Owned hhdm Sizes initial height kernel others arenas history)
include owned

theorem Owned.free_ok (isLive : block ∈ history.live) :
    ∃ arena rest mm, block = arena.block hhdm ∧ arenas.Perm (arena :: rest) ∧
      kFree hhdm history.kernel.mm history.kernel.vmmKernel block.ptr = .ok mm ∧
      Released hhdm initial.bitmapTopIndex arena.pages height history.kernel.mm mm ∧
      ∀ page ∈ arena.pages, ¬ Present (leafPte mm.ram kernel.root (directPtr hhdm page)) := by
  obtain ⟨arena, member, rfl⟩ := List.mem_map.mp (owned.live_perm.mem_iff.mp isLive)
  obtain ⟨mm, freed, released, absent⟩ := owned.toStanding.free_arena member
  exact ⟨arena, arenas.erase arena, mm, rfl, List.perm_cons_erase member, freed, released, absent⟩

/-- The order in which arenas and blocks are listed does not matter. -/
theorem Owned.perm {arenas' : List Arena} (perm : arenas.Perm arenas') :
    Owned hhdm Sizes initial height kernel others arenas'
      ⟨history.kernel, arenas'.map (Arena.block hhdm), history.spaces⟩ where
  forked := owned.forked
  live_perm := List.Perm.refl _
  arena_at := fun arena member => owned.arena_at arena (perm.mem_iff.mpr member)
  origin := fun arena member => owned.origin arena (perm.mem_iff.mpr member)
  sized := fun arena member => owned.sized arena (perm.mem_iff.mpr member)
  disjoint := (perm.pairwise_iff fun apart => Disjoint.symm apart).mp owned.disjoint
  apart := fun arena member => owned.apart arena (perm.mem_iff.mpr member)
  copied := owned.copied
  roots := owned.roots
  linked := owned.linked
  below := owned.below
  vmm_below := owned.vmm_below
  free_iff := by
    intro page
    simp only [← perm.mem_iff]
    exact owned.free_iff page

/-- A call of `k_alloc` that returns has opened an arena, and nothing that was
mapped is remapped. -/
theorem Owned.alloc_returned {fuel : Nat} {ptr : Word} (asked : Sizes size)
    (call : kAlloc hhdm fuel history.kernel.mm history.kernel.vmmKernel size = some (.ok (ptr, mm))) :
    ∃ arena height', arena.block hhdm = ⟨ptr, size⟩ ∧
      (∀ page h, height page = some h → height' page = some h) ∧
      Owned hhdm Sizes initial height' kernel others (arena :: arenas)
        ⟨{ history.kernel with mm }, arena.block hhdm :: history.live, history.spaces⟩ ∧
      ∀ virt, Present (leafPte history.kernel.mm.ram kernel.root virt) →
        leafPte mm.ram kernel.root virt = leafPte history.kernel.mm.ram kernel.root virt := by
  rw [owned.forked.kernel_eq] at call
  obtain ⟨arena, height', rfl, rfl, countEq, ext, arenaAt, kept, rows⟩ :=
    kAlloc_returned owned.forked.ready call
  exact ⟨arena, height', rfl, fun _ _ => ext.keeps,
    owned.alloc ext arenaAt rows asked countEq, kept⟩

end

theorem Owned.step {next : HeapHistory}
    (owned : Owned hhdm Sizes initial height kernel others arenas history)
    (step : HeapStep hhdm Sizes history next) :
    ∃ height' others' arenas', Owned hhdm Sizes initial height' kernel others' arenas' next := by
  cases step with
  | alloc fuel size asked call =>
      obtain ⟨arena, height', blockEq, -, allocated, -⟩ := owned.alloc_returned asked call
      rw [blockEq] at allocated
      exact ⟨height', others, arena :: arenas, allocated⟩
  | free block isLive call =>
      obtain ⟨arena, rest, mm, rfl, perm, freed, released, -⟩ := owned.free_ok isLive
      rw [freed] at call
      cases call
      exact ⟨height, others, rest, owned.free perm released⟩
  | new created =>
      rw [owned.forked.kernel_eq] at created
      obtain ⟨space, height', rfl, opened, -⟩ :=
        vmmNew_returned owned.forked.ready.tables owned.forked.ready.space_at created
      exact ⟨height', space :: others, arenas, owned.new opened⟩

/-- With a few frames left, `k_alloc` of a block that fits one page returns. -/
theorem Owned.alloc_ok (owned : Owned hhdm Sizes initial height kernel others arenas history)
    {size : Word} (asked : Sizes size) (onePage : heapPages size = 1#64)
    (enough : 4 ≤ history.kernel.mm.frames.freeSet.card) (fuel : Nat) :
    ∃ arena height' mm,
      kAlloc hhdm (fuel + 1) history.kernel.mm history.kernel.vmmKernel size =
        some (.ok (arena.ptr hhdm, mm)) ∧ arena.size = size ∧
      Owned hhdm Sizes initial height' kernel others (arena :: arenas)
        ⟨{ history.kernel with mm }, ⟨arena.ptr hhdm, size⟩ :: history.live, history.spaces⟩ ∧
      (∀ virt, Present (leafPte history.kernel.mm.ram kernel.root virt) →
        leafPte mm.ram kernel.root virt = leafPte history.kernel.mm.ram kernel.root virt) ∧
      history.kernel.mm.frames.freeSet.card ≤ mm.frames.freeSet.card + 4 := by
  have kernelEq : history.kernel.vmmKernel = kernel.vmm hhdm := owned.forked.kernel_eq
  rw [kernelEq]
  rcases kAlloc_spec owned.forked.ready fuel size with ⟨reason, short, -⟩ |
    ⟨arena, height', mm, returned, rfl, countEq, ext, arenaAt, kept, rows, supplyLe, -⟩
  · have := short onePage
    dsimp only at this
    omega
  · exact ⟨arena, height', mm, returned, rfl, owned.alloc ext arenaAt rows asked countEq, kept,
      supplyLe onePage⟩

theorem owned_of_run {layout : KernelLayout} {state : MmState Pmm} {start : KernelState Pmm}
    {final : HeapHistory} (covered : state.frames.Covered hhdm)
    (booted : vmmInit hhdm pmmSource layout state = .ok start)
    (run : Relation.ReflTransGen (HeapStep hhdm Sizes) ⟨start, [], []⟩ final) :
    ∃ height kernel others arenas,
      Owned hhdm Sizes start.mm.frames height kernel others arenas final := by
  induction run with
  | refl =>
      obtain ⟨height, kernel, owned⟩ := Owned.booted covered booted
      exact ⟨height, kernel, [], [], owned⟩
  | tail _ step ih =>
      obtain ⟨height, kernel, others, arenas, owned⟩ := ih
      obtain ⟨height', others', arenas', next⟩ := owned.step step
      exact ⟨height', kernel, others', arenas', next⟩

section Owners

variable (owned : Owned hhdm Sizes initial height kernel others arenas history)

include owned

theorem Owned.arena_eq {arena : Arena} (member : arena ∈ arenas) :
    (arena.block hhdm).arena hhdm history.kernel.mm = arena.header hhdm := by
  rw [HeapBlock.arena, Arena.block, Arena.ptr_sub_metadata]
  exact (owned.arena_at arena member).metadata_eq

theorem Owned.frames_eq {arena : Arena} (member : arena ∈ arenas) :
    (arena.block hhdm).frames hhdm history.kernel.mm = arena.pages := by
  have arenaAt := owned.arena_at arena member
  have fits := arenaAt.fits
  have topLe := owned.toStanding.top_le
  have base : arena.header hhdm - hhdm = pageAddress arena.start := by
    rw [Arena.header, directPtr, BitVec.add_sub_cancel]
  ext page
  rw [HeapBlock.frames, owned.arena_eq member, arenaAt.base_eq, arenaAt.size_eq, base,
    pageAddress_toNat_div (by omega), PageBlock.mem_pages_pageAddress (by omega)]
  rfl

theorem Owned.owners_perm : (history.owners hhdm).Perm
    (arenas.map Arena.pages ++ tableFrames hhdm history.kernel.mm (kernel.vmm hhdm) ::
      others.flatMap fun space => [{space.vmmPage}, {space.root}]) := by
  have arenaFrames : (arenas.map (Arena.block hhdm)).map
      (HeapBlock.frames hhdm history.kernel.mm) = arenas.map Arena.pages := by
    rw [List.map_map]
    exact List.map_congr_left fun arena member => owned.frames_eq member
  have spaceFrames : (history.spaces.flatMap fun vmm =>
      [{vmmFrame hhdm vmm}, {vmmRoot hhdm history.kernel.mm vmm}]) =
        others.flatMap fun space => ([{space.vmmPage}, {space.root}] : List (Set Nat)) := by
    have spacesEq : history.spaces = others.map (Space.vmm hhdm) := owned.forked.spaces_eq
    rw [spacesEq, List.flatMap_map]
    apply List.flatMap_congr
    intro space inOthers
    have spaceAt := owned.forked.each space inOthers
    have pageLt := spaceAt.direct.2.1
    rw [spaceAt.vmmRoot_eq owned.forked.ready.tables, vmmFrame, Space.vmm, directPtr,
      BitVec.add_sub_cancel, pageAddress_toNat_div (by omega)]
  have kernelEq : history.kernel.vmmKernel = kernel.vmm hhdm := owned.forked.kernel_eq
  rw [owners, kernelEq, spaceFrames, ← arenaFrames]
  exact (owned.live_perm.map _).append_right _

/-- Every page table hangs below the kernel's top-level table, except for the
top-level tables of the other address spaces. -/
theorem Owned.isTable_or_root {h : Nat} (heightEq : height page = some h) :
    page ∈ tableFrames hhdm history.kernel.mm (kernel.vmm hhdm) ∨
      ∃ space ∈ others, page = space.root := by
  have tables := owned.forked.ready.tables
  obtain ⟨root, path, rootHeight, lengthEq, reached⟩ :=
    owned.linked.reached heightEq (tables.forest.height_le heightEq)
  obtain ⟨space, inSpaces, rfl⟩ := owned.roots rootHeight
  have fromKernel : Radix.descend entryTable (tableStore history.kernel.mm.ram) kernel.root path =
      some page → page ∈ tableFrames hhdm history.kernel.mm (kernel.vmm hhdm) := by
    intro found
    refine ⟨path, by omega, ?_⟩
    rwa [owned.forked.ready.space_at.vmmRoot_eq tables]
  rcases List.mem_cons.mp inSpaces with rfl | inOthers
  · exact .inl (fromKernel reached)
  · cases path with
    | nil =>
        rw [Radix.descend, Option.some.injEq] at reached
        exact .inr ⟨space, inOthers, reached.symm⟩
    | cons index path =>
        -- the entry was copied from the kernel's table and still is the same there
        obtain ⟨next, points, -⟩ := Radix.descend_cons_some.mp reached
        have same := owned.copied space inOthers index (entryTable_eq_some points).1
        have shared : entryTable (tableStore history.kernel.mm.ram kernel.root index) =
            entryTable (tableStore history.kernel.mm.ram space.root index) := by
          rw [same]
        left
        apply fromKernel
        rwa [Radix.descend_cons_congr shared]

theorem Owned.mem_owner_iff : (∃ owner ∈ history.owners hhdm, page ∈ owner) ↔
    height page ≠ none ∨ (∃ space ∈ others, page = space.vmmPage) ∨
      ∃ arena ∈ arenas, page ∈ arena.pages := by
  have memIff : ∀ owner, owner ∈ history.owners hhdm ↔ owner ∈ arenas.map Arena.pages ++
      tableFrames hhdm history.kernel.mm (kernel.vmm hhdm) ::
        others.flatMap fun space => [{space.vmmPage}, {space.root}] :=
    fun owner => owned.owners_perm.mem_iff
  simp only [memIff, List.mem_append, List.mem_map, List.mem_cons, List.mem_flatMap,
    List.not_mem_nil, or_false]
  constructor
  · rintro ⟨owner, ⟨arena, member, rfl⟩ | rfl | ⟨space, inOthers, rfl | rfl⟩, inside⟩
    · exact .inr (.inr ⟨arena, member, inside⟩)
    · obtain ⟨h, heightEq, -⟩ := owned.forked.ready.table_height inside
      exact .inl (by simp [heightEq])
    · exact .inr (.inl ⟨space, inOthers, inside⟩)
    · rw [Set.mem_singleton_iff.mp inside]
      exact .inl (by simp [(owned.forked.each space inOthers).root_height])
  · rintro (isTable | ⟨space, inOthers, rfl⟩ | ⟨arena, member, inside⟩)
    · obtain ⟨h, heightEq⟩ := Option.ne_none_iff_exists'.mp isTable
      rcases owned.isTable_or_root heightEq with inTables | ⟨space, inOthers, rfl⟩
      · exact ⟨_, .inr (.inl rfl), inTables⟩
      · exact ⟨_, .inr (.inr ⟨space, inOthers, .inr rfl⟩), rfl⟩
    · exact ⟨_, .inr (.inr ⟨space, inOthers, .inl rfl⟩), rfl⟩
    · exact ⟨_, .inl ⟨arena, member, rfl⟩, inside⟩

theorem Owned.free_iff_owners (page : Nat) : page ∈ history.kernel.mm.frames.freeSet ↔
    page ∈ initial.freeSet ∧ ∀ owner ∈ history.owners hhdm, page ∉ owner := by
  have none_iff : (∀ owner ∈ history.owners hhdm, page ∉ owner) ↔
      ¬∃ owner ∈ history.owners hhdm, page ∈ owner := by
    push Not
    rfl
  rw [owned.free_iff, none_iff, owned.mem_owner_iff]
  push Not
  rfl

theorem Owned.owners_used : ∀ owner ∈ history.owners hhdm, ∀ page ∈ owner,
    ¬ history.kernel.mm.frames.Free page := by
  intro owner member page inside free
  have notFree : page ∉ history.kernel.mm.frames.freeSet := by
    rw [owned.free_iff_owners]
    exact fun both => both.2 owner member inside
  refine notFree (Pmm.mem_freeSet.mpr ⟨?_, free⟩)
  rw [owned.forked.ready.tables.valid.2]
  rcases owned.mem_owner_iff.mp ⟨owner, member, inside⟩ with
    isTable | ⟨space, inOthers, rfl⟩ | ⟨arena, inArenas, inPages⟩
  · obtain ⟨h, heightEq⟩ := Option.ne_none_iff_exists'.mp isTable
    exact owned.below heightEq
  · exact owned.vmm_below space (List.mem_cons_of_mem kernel inOthers)
  · exact (Pmm.mem_freeSet.mp (owned.origin arena inArenas page inPages)).1

/-- The structure of an address space is never a top-level table. -/
theorem Owned.vmmPage_ne_root {space' : Space} (inOthers : space ∈ others)
    (inOthers' : space' ∈ others) : space.vmmPage ≠ space'.root := by
  intro same
  have blank := (owned.forked.each space inOthers).blank
  rw [same, (owned.forked.each space' inOthers').root_height] at blank
  cases blank

theorem Owned.spaces_disjoint :
    (others.flatMap fun space => ([{space.vmmPage}, {space.root}] : List (Set Nat))).Pairwise
      Disjoint := by
  have vmmNe : others.Pairwise fun first second => first.vmmPage ≠ second.vmmPage :=
    List.pairwise_map.mp (List.nodup_cons.mp owned.forked.vmmPages_nodup).2
  have rootNe : others.Pairwise fun first second => first.root ≠ second.root :=
    List.pairwise_map.mp (List.nodup_cons.mp owned.forked.roots_nodup).2
  rw [List.pairwise_flatMap]
  constructor
  · intro space inOthers
    rw [List.pairwise_pair, Set.disjoint_singleton]
    exact owned.vmmPage_ne_root inOthers inOthers
  · apply (vmmNe.and rootNe).imp_of_mem
    intro first second inFirst inSecond different
    simp only [List.forall_mem_cons, List.not_mem_nil, false_implies, implies_true, and_true,
      Set.disjoint_singleton]
    exact ⟨⟨different.1, owned.vmmPage_ne_root inFirst inSecond⟩,
      (owned.vmmPage_ne_root inSecond inFirst).symm, different.2⟩

theorem Owned.owners_disjoint : (history.owners hhdm).Pairwise Disjoint := by
  rw [owned.owners_perm.pairwise_iff fun apart => Disjoint.symm apart, List.pairwise_append,
    List.pairwise_map, List.pairwise_cons]
  refine ⟨owned.disjoint, ⟨?_, owned.spaces_disjoint⟩, ?_⟩
  · intro owner member
    obtain ⟨space, inOthers, isOwner⟩ := List.mem_flatMap.mp member
    have spaceAt := owned.forked.each space inOthers
    rcases List.mem_pair.mp isOwner with rfl | rfl
    · rw [Set.disjoint_singleton_right]
      intro isTable
      obtain ⟨h, heightEq, -⟩ := owned.forked.ready.table_height isTable
      rw [spaceAt.blank] at heightEq
      cases heightEq
    · rw [Set.disjoint_singleton_right]
      intro isTable
      obtain ⟨h, heightEq, onlyKernel⟩ := owned.forked.ready.table_height isTable
      rw [spaceAt.root_height, Option.some.injEq] at heightEq
      exact owned.forked.root_ne_kernel inOthers (onlyKernel heightEq.symm)
  · intro pages inArenas owner member
    obtain ⟨arena, isArena, rfl⟩ := List.mem_map.mp inArenas
    have blank := (owned.arena_at arena isArena).blank
    rcases List.mem_cons.mp member with rfl | inSpaces
    · rw [Set.disjoint_left]
      intro page inside isTable
      obtain ⟨h, heightEq, -⟩ := owned.forked.ready.table_height isTable
      rw [blank page inside] at heightEq
      cases heightEq
    · obtain ⟨space, inOthers, isOwner⟩ := List.mem_flatMap.mp inSpaces
      rcases List.mem_pair.mp isOwner with rfl | rfl
      · rw [Set.disjoint_singleton_right]
        exact owned.apart arena isArena space (List.mem_cons_of_mem kernel inOthers)
      · rw [Set.disjoint_singleton_right]
        intro inside
        have isBlank := blank _ inside
        rw [(owned.forked.each space inOthers).root_height] at isBlank
        cases isBlank

theorem Owned.addresses {arena : Arena} (member : arena ∈ arenas) :
    (arena.header hhdm).toNat = arena.start * pageSize + hhdm.toNat ∧
      (slot (arena.header hhdm) 5).toNat = arena.start * pageSize + hhdm.toNat + 40 ∧
      (arena.ptr hhdm).toNat = arena.start * pageSize + hhdm.toNat + 48 ∧
      (arena.start + arena.count) * pageSize + hhdm.toNat ≤ 2 ^ 64 :=
  (owned.arena_at arena member).addresses owned.forked.ready.tables.valid

end Owners

theorem HeapFits.pages (fits : HeapFits size) :
    size.toNat + 48 ≤ (heapPages size).toNat * pageSize := by
  rw [HeapFits] at fits
  have bytes : (heapBytes size).toNat = size.toNat + 48 := by
    rw [heapBytes, BitVec.toNat_add, BitVec.toNat_add]
    change ((size.toNat + 40) % 2 ^ 64 + 8) % 2 ^ 64 = _
    omega
  rw [heapPages, divRoundup, BitVec.toNat_udiv, BitVec.toNat_add, bytes, pageSize]
  change _ ≤ (size.toNat + 48 + 4095) % 2 ^ 64 / 4096 * 4096
  omega

section Bytes

variable (owned : Owned hhdm HeapFits initial height kernel others arenas history)

include owned

theorem Owned.block_fits {arena : Arena} (member : arena ∈ arenas) :
    arena.size.toNat + 48 ≤ arena.count * pageSize := by
  obtain ⟨fits, countEq⟩ := owned.sized arena member
  rw [countEq]
  exact HeapFits.pages fits

theorem Owned.bytes_eq {arena : Arena} (member : arena ∈ arenas) :
    (arena.block hhdm).bytes = Set.Ico (arena.start * pageSize + hhdm.toNat + 48)
      (arena.start * pageSize + hhdm.toNat + 48 + arena.size.toNat) := by
  rw [HeapBlock.bytes, Arena.block, (owned.addresses member).2.2.1]

theorem Owned.pages_apart {first second : Arena} (isFirst : first ∈ arenas)
    (isSecond : second ∈ arenas) (disjoint : Disjoint first.pages second.pages) :
    (first.start + first.count) * pageSize ≤ second.start * pageSize ∨
      (second.start + second.count) * pageSize ≤ first.start * pageSize := by
  have firstPos := (owned.arena_at first isFirst).positive
  have secondPos := (owned.arena_at second isSecond).positive
  rw [Arena.pages, Arena.pages, Set.Ico_disjoint_Ico] at disjoint
  by_cases before : first.start + first.count ≤ second.start
  · exact .inl (Nat.mul_le_mul_right _ before)
  · exact .inr (Nat.mul_le_mul_right _ (by omega))

theorem Owned.bytes_disjoint :
    history.live.Pairwise fun first second => Disjoint first.bytes second.bytes := by
  rw [owned.live_perm.pairwise_iff fun apart => Disjoint.symm apart, List.pairwise_map]
  apply owned.disjoint.imp_of_mem
  intro first second isFirst isSecond disjoint
  have firstFits := owned.block_fits isFirst
  have secondFits := owned.block_fits isSecond
  have apart := owned.pages_apart isFirst isSecond disjoint
  rw [owned.bytes_eq isFirst, owned.bytes_eq isSecond, Set.Ico_disjoint_Ico]
  rw [Nat.add_mul, Nat.add_mul] at apart
  omega

theorem Owned.bytes_apart {other : HeapBlock} (isLive : block ∈ history.live)
    (otherLive : other ∈ history.live) :
    Disjoint block.bytes (other.header hhdm history.kernel.mm) ∧
      Disjoint block.bytes other.metadata := by
  obtain ⟨arena, member, rfl⟩ := List.mem_map.mp (owned.live_perm.mem_iff.mp isLive)
  obtain ⟨arena', member', rfl⟩ := List.mem_map.mp (owned.live_perm.mem_iff.mp otherLive)
  have fits := owned.block_fits member
  obtain ⟨headerEq, metadataEq, -, -⟩ := owned.addresses member'
  have headerBytes : (arena'.block hhdm).header hhdm history.kernel.mm =
      Set.Ico (arena'.start * pageSize + hhdm.toNat)
        (arena'.start * pageSize + hhdm.toNat + 40) := by
    rw [HeapBlock.header, owned.arena_eq member', headerEq, sizeofArena_toNat]
  have metadataBytes : (arena'.block hhdm).metadata =
      Set.Ico (arena'.start * pageSize + hhdm.toNat + 40)
        (arena'.start * pageSize + hhdm.toNat + 48) := by
    rw [HeapBlock.metadata, Arena.block, Arena.ptr_sub_metadata, metadataEq,
      sizeofMetadata_toNat]
  have apart : arena = arena' ∨
      (arena.start + arena.count) * pageSize ≤ arena'.start * pageSize ∨
        (arena'.start + arena'.count) * pageSize ≤ arena.start * pageSize := by
    by_cases same : arena = arena'
    · exact .inl same
    · have symmetric : Std.Symm fun first second : Arena => Disjoint first.pages second.pages :=
        ⟨fun _ _ apart => Disjoint.symm apart⟩
      exact .inr (owned.pages_apart member member' (owned.disjoint.forall member member' same))
  have positive := (owned.arena_at arena' member').positive
  have firstPage : pageSize ≤ arena'.count * pageSize := Nat.le_mul_of_pos_left _ positive
  rw [owned.bytes_eq member, headerBytes, metadataBytes, Set.Ico_disjoint_Ico,
    Set.Ico_disjoint_Ico]
  rw [pageSize] at *
  rcases apart with rfl | before | after
  · omega
  · omega
  · omega

theorem Owned.block_below (isLive : block ∈ history.live) :
    block.ptr.toNat + block.size.toNat ≤ 2 ^ 64 := by
  obtain ⟨arena, member, rfl⟩ := List.mem_map.mp (owned.live_perm.mem_iff.mp isLive)
  have fits := owned.block_fits member
  obtain ⟨-, -, ptrEq, reach⟩ := owned.addresses member
  rw [Nat.add_mul] at reach
  rw [Arena.block, ptrEq]
  dsimp only
  omega

end Bytes

end HeapHistory

theorem machine_owned (Sizes : Word → Prop) : ∃ pmm start height kernel,
    pmmInit machineMap machineHhdm (fun _ => 0#8) 4 = some (.ok pmm) ∧
    (MmState.mk pmm fun _ => 0#8).frames.Covered machineHhdm ∧
    vmmInit machineHhdm pmmSource machineLayout ⟨pmm, fun _ => 0#8⟩ = .ok start ∧
    HeapHistory.Owned machineHhdm Sizes start.mm.frames height kernel [] [] ⟨start, [], []⟩ ∧
    100 ≤ start.mm.frames.freeSet.card := by
  obtain ⟨pmm, -, -, start, booted, -, covered, returned, -, -, -, -, -, supply⟩ :=
    machine_boots
  obtain ⟨height, kernel, owned⟩ := @HeapHistory.Owned.booted _ Sizes _ _ _ covered returned
  exact ⟨pmm, start, height, kernel, booted, covered, returned, owned, supply⟩

/-- At every point of a run of `k_alloc`, `k_free` and `vmm_new`, the live blocks
are apart from each other and from the bookkeeping of the heap, and every frame
that has been taken since `vmm_init` belongs to one arena, to the page tables or
to one address space.  Once no block is live, the arenas are gone from the list
of owners. -/
theorem heap_frames_owned {hhdm : Word} {layout : KernelLayout} {state : MmState Pmm}
    {start : KernelState Pmm} {history : HeapHistory} (covered : state.frames.Covered hhdm)
    (booted : vmmInit hhdm pmmSource layout state = .ok start)
    (run : Relation.ReflTransGen (HeapStep hhdm HeapFits) ⟨start, [], []⟩ history) :
    (∀ block ∈ history.live, block.ptr.toNat + block.size.toNat ≤ 2 ^ 64) ∧
    (history.live.Pairwise fun first second => Disjoint first.bytes second.bytes) ∧
    (∀ block ∈ history.live, ∀ other ∈ history.live,
      Disjoint block.bytes (other.header hhdm history.kernel.mm) ∧
        Disjoint block.bytes other.metadata) ∧
    (history.owners hhdm).Pairwise Disjoint ∧
    (∀ owner ∈ history.owners hhdm, ∀ page ∈ owner, ¬ history.kernel.mm.frames.Free page) ∧
    (∀ page, page ∈ history.kernel.mm.frames.freeSet ↔
      page ∈ start.mm.frames.freeSet ∧ ∀ owner ∈ history.owners hhdm, page ∉ owner) ∧
    ∀ block ∈ history.live, ∃ mm,
      kFree hhdm history.kernel.mm history.kernel.vmmKernel block.ptr = .ok mm := by
  obtain ⟨height, kernel, others, arenas, owned⟩ :=
    HeapHistory.owned_of_run covered booted run
  refine ⟨fun block isLive => owned.block_below isLive, owned.bytes_disjoint,
    fun block isLive other otherLive => owned.bytes_apart isLive otherLive,
    owned.owners_disjoint, owned.owners_used, owned.free_iff_owners, ?_⟩
  intro block isLive
  obtain ⟨arena, rest, mm, -, -, freed, -, -⟩ := owned.free_ok isLive
  exact ⟨mm, freed⟩

theorem heap_frames_owned_machine : ∃ (history : HeapHistory) (block : HeapBlock) (vmm : Word),
    history.live = [block] ∧ history.spaces = [vmm] ∧
      (history.owners machineHhdm).Pairwise Disjoint ∧
      ∃ mm, kFree machineHhdm history.kernel.mm history.kernel.vmmKernel block.ptr = .ok mm := by
  obtain ⟨_, start, height, kernel, -, initial, booted, owned, enough⟩ := machine_owned HeapFits
  obtain ⟨first, height₁, mm₁, call₁, -, owned₁, -, supply₁⟩ :=
    @HeapHistory.Owned.alloc_ok _ _ _ _ _ _ _ _ owned 8#64 (by decide) (by decide)
      (by dsimp only; omega) 0
  rcases vmmNew_spec owned₁.forked.ready.tables owned₁.forked.ready.space_at with
    ⟨reason, -, short, -⟩ | ⟨space, height₂, mm₂, created, opened, supply₂, -⟩
  · change mm₁.frames.freeSet.card ≤ 7 at short
    dsimp only at supply₁
    omega
  change mm₁.frames.freeSet.card ≤ mm₂.frames.freeSet.card + 8 at supply₂
  have owned₂ := owned₁.new opened
  obtain ⟨second, height₃, mm₃, call₃, -, owned₃, -, -⟩ :=
    @HeapHistory.Owned.alloc_ok _ _ _ _ _ _ _ _ owned₂ 24#64 (by decide) (by decide)
      (by dsimp only at supply₁ ⊢; omega) 0
  obtain ⟨-, -, mm₄, -, -, freed, -, -⟩ :=
    owned₃.free_ok (List.mem_cons_of_mem _ List.mem_cons_self)
  have kernelEq : start.vmmKernel = kernel.vmm machineHhdm := owned.forked.kernel_eq
  have liveEq : (⟨second.ptr machineHhdm, 24#64⟩ :: ⟨first.ptr machineHhdm, 8#64⟩ :: []).erase
      (HeapBlock.mk (first.ptr machineHhdm) 8#64) = [⟨second.ptr machineHhdm, 24#64⟩] := by
    simp
  have freeStep := @HeapStep.free machineHhdm HeapFits _ mm₄ _
    (List.mem_cons_of_mem _ List.mem_cons_self) freed
  rw [liveEq] at freeStep
  have run := (((Relation.ReflTransGen.single (HeapStep.alloc 1 8#64 (by decide) call₁)).tail
    (HeapStep.new (by dsimp only; rw [kernelEq]; exact created))).tail
      (HeapStep.alloc 1 24#64 (by decide) call₃)).tail freeStep
  obtain ⟨-, -, -, disjoint, -, -, freeable⟩ := heap_frames_owned initial booted run
  exact ⟨_, _, _, rfl, rfl, disjoint, freeable _ List.mem_cons_self⟩

end MmdOS
