import MmdOS.PhysicalAllocator
import Mathlib.Data.List.Pairwise
import Mathlib.Data.Set.Lattice
import Mathlib.Logic.Relation
import Mathlib.Order.CompletePartialOrder

/-!
# Ownership of physical pages over whole runs

A run of the allocator is paired with the list of blocks that have been
returned and not freed since.  The ownership invariant says that these blocks
partition the pages that have left the initial free set; it survives both the
wrapping search and frees that leave the cursor where it is.
-/

namespace MmdOS

structure PageBlock where
  addr : Word
  nPages : Nat
  deriving DecidableEq

def PageBlock.pages (block : PageBlock) : Set Nat :=
  { page | block.addr.toNat / pageSize ≤ page ∧
    page < block.addr.toNat / pageSize + block.nPages }

theorem PageBlock.mem_pages_pageAddress {start count page : Nat}
    (startLt : start < 2 ^ 52) :
    page ∈ (PageBlock.mk (pageAddress start) count).pages ↔
      start ≤ page ∧ page < start + count := by
  simp only [PageBlock.pages, Set.mem_ofPred_eq, pageAddress_toNat_div startLt]

structure PmmHistory where
  pmm : Pmm
  live : List PageBlock

/-- One allocator call that returns: an allocation of at least one page, or a
free of a live block with the size of its allocation. -/
inductive PmmStep : PmmHistory → PmmHistory → Prop
  | alloc {state : PmmHistory} {addr : Word} {after : Pmm} (nPages : Nat)
      (positive : 1 ≤ nPages)
      (allocated : pmmAllocNozero state.pmm nPages = .ok (addr, after)) :
      PmmStep state ⟨after, ⟨addr, nPages⟩ :: state.live⟩
  | free {state : PmmHistory} {after : Pmm} (block : PageBlock)
      (isLive : block ∈ state.live)
      (freed : pmmFree state.pmm block.addr block.nPages = .ok after) :
      PmmStep state ⟨after, state.live.erase block⟩

def Pmm.freeBelowTop (pmm : Pmm) : Set Nat :=
  { page | page < pmm.bitmapTopIndex ∧ pmm.Free page }

def PmmHistory.livePages (state : PmmHistory) : Set Nat :=
  { page | ∃ block ∈ state.live, page ∈ block.pages }

structure PmmHistory.Owned (initial : Pmm) (state : PmmHistory) : Prop where
  valid : state.pmm.Valid
  top_eq : state.pmm.bitmapTopIndex = initial.bitmapTopIndex
  placed : ∀ block ∈ state.live, ∃ start, block.addr = pageAddress start ∧
    1 ≤ start ∧ 1 ≤ block.nPages ∧ start + block.nPages ≤ initial.bitmapTopIndex
  disjoint : state.live.Pairwise fun first second =>
    Disjoint first.pages second.pages
  origin : ∀ page ∈ state.livePages, initial.Free page
  free_iff : ∀ page, state.pmm.Free page ↔
    initial.Free page ∧ page ∉ state.livePages

namespace PmmHistory

variable {pmm : Pmm}

theorem livePages_cons (pmm after : Pmm) (block : PageBlock) (live : List PageBlock) :
    livePages ⟨after, block :: live⟩ = block.pages ∪ livePages ⟨pmm, live⟩ := by
  ext page
  simp [livePages]

variable {block : PageBlock} {state : PmmHistory}

theorem livePages_erase {after : Pmm} {live : List PageBlock} (isLive : block ∈ live) :
    livePages ⟨pmm, live⟩ = block.pages ∪ livePages ⟨after, live.erase block⟩ := by
  rw [← livePages_cons after pmm]
  ext page
  simp only [livePages, Set.mem_ofPred_eq, (List.perm_cons_erase isLive).mem_iff]

theorem Owned.initial (valid : pmm.Valid) : Owned pmm ⟨pmm, []⟩ where
  valid := valid
  top_eq := rfl
  placed := by simp
  disjoint := List.Pairwise.nil
  origin := by simp [livePages]
  free_iff := by simp [livePages]

/-- A live block's pages are all used, so freeing it cannot panic. -/
theorem Owned.free_ok {initial : Pmm} (owned : Owned initial state) (isLive : block ∈ state.live) :
    ∃ after, pmmFree state.pmm block.addr block.nPages = .ok after ∧
      after.bitmapTopIndex = state.pmm.bitmapTopIndex ∧
      after.bitmapPrevIndex = state.pmm.bitmapPrevIndex ∧
      ∀ page, after.Free page ↔ state.pmm.Free page ∨ page ∈ block.pages := by
  obtain ⟨start, addrEq, startPos, positive, fits⟩ := owned.placed block isLive
  have topLt := initial.topIndex_lt
  have pagesEq : ∀ page, page ∈ block.pages ↔
      start ≤ page ∧ page < start + block.nPages := by
    intro page
    rw [PageBlock.pages, addrEq, Set.mem_ofPred_eq, pageAddress_toNat_div (by omega)]
  have used : ∀ page, start ≤ page → page < start + block.nPages →
      ¬ state.pmm.Free page := by
    intro page pageGe pageLt isFree
    exact ((owned.free_iff page).mp isFree).2
      ⟨block, isLive, (pagesEq page).mpr ⟨pageGe, pageLt⟩⟩
  obtain ⟨after, freed, topEq, prevEq, freeIff⟩ :=
    pmmFree_ok positive (by rw [owned.top_eq]; exact fits) used
  refine ⟨after, by rw [addrEq]; exact freed, topEq, prevEq, fun page => ?_⟩
  rw [freeIff, pagesEq]

theorem Owned.step {initial : Pmm} {state next : PmmHistory}
    (owned : Owned initial state) (step : PmmStep state next) :
    Owned initial next := by
  cases step with
  | @alloc addr after nPages positive allocated =>
      obtain ⟨start, rfl, took⟩ := pmmAllocNozero_took owned.valid positive allocated
      have topLt := initial.topIndex_lt
      have fits := took.fits
      rw [owned.top_eq] at fits
      have blockPages : ∀ page,
          page ∈ (PageBlock.mk (pageAddress start) nPages).pages ↔
            start ≤ page ∧ page < start + nPages :=
        fun page => PageBlock.mem_pages_pageAddress (by omega)
      refine ⟨took.valid owned.valid, took.top_eq.trans owned.top_eq, ?_, ?_, ?_, ?_⟩
      · intro block member
        rcases List.mem_cons.mp member with rfl | old
        · exact ⟨start, rfl, took.start_pos, positive, fits⟩
        · exact owned.placed block old
      · refine List.Pairwise.cons (fun block old => ?_) owned.disjoint
        rw [Set.disjoint_left]
        intro page inNew inOld
        obtain ⟨pageGe, pageLt⟩ := (blockPages page).mp inNew
        exact ((owned.free_iff page).mp (took.free page pageGe pageLt)).2
          ⟨block, old, inOld⟩
      · intro page member
        rw [livePages_cons state.pmm] at member
        rcases member with inNew | inOld
        · obtain ⟨pageGe, pageLt⟩ := (blockPages page).mp inNew
          exact ((owned.free_iff page).mp (took.free page pageGe pageLt)).1
        · exact owned.origin page inOld
      · intro page
        rw [took.free_iff, owned.free_iff, livePages_cons state.pmm, Set.mem_union,
          blockPages, not_or]
        tauto
  | @free after block isLive freed =>
      obtain ⟨result, resultEq, topEq, prevEq, freeIff⟩ := owned.free_ok isLive
      have sameResult : result = after := by
        rw [resultEq] at freed
        exact Except.ok.inj freed
      subst sameResult
      have live_eq : livePages state =
          block.pages ∪ livePages ⟨result, state.live.erase block⟩ :=
        livePages_erase isLive
      have parts : (block :: state.live.erase block).Pairwise fun first second =>
          Disjoint first.pages second.pages :=
        (List.perm_cons_erase isLive).pairwise owned.disjoint
          (fun apart => Disjoint.symm apart)
      obtain ⟨apart, restDisjoint⟩ := List.pairwise_cons.mp parts
      have origin := owned.origin
      rw [live_eq] at origin
      refine ⟨⟨?_, ?_⟩, topEq.trans owned.top_eq, ?_, restDisjoint,
        fun page member => origin page (Or.inr member), ?_⟩
      · intro zeroFree
        rcases (freeIff 0).mp zeroFree with before | inBlock
        · exact owned.valid.zeroUsed before
        · obtain ⟨start, addrEq, startPos, positive, fits⟩ := owned.placed block isLive
          have topLt := initial.topIndex_lt
          have lower : block.addr.toNat / pageSize ≤ 0 := inBlock.1
          rw [addrEq, pageAddress_toNat_div (by omega)] at lower
          omega
      · rw [topEq, prevEq]
        exact owned.valid.prev_le
      · exact fun other member => owned.placed other (List.mem_of_mem_erase member)
      · intro page
        rw [freeIff, owned.free_iff, live_eq, Set.mem_union, not_or]
        constructor
        · rintro (⟨wasFree, -, notRest⟩ | inBlock)
          · exact ⟨wasFree, notRest⟩
          · refine ⟨origin page (Or.inl inBlock), ?_⟩
            rintro ⟨other, member, inOther⟩
            exact Set.disjoint_left.mp (apart other member) inBlock inOther
        · rintro ⟨wasFree, notRest⟩
          by_cases inBlock : page ∈ block.pages
          · exact Or.inr inBlock
          · exact Or.inl ⟨wasFree, inBlock, notRest⟩

theorem Owned.reachable (valid : pmm.Valid) (run : Relation.ReflTransGen PmmStep ⟨pmm, []⟩ state) :
    Owned pmm state := by
  induction run with
  | refl => exact Owned.initial valid
  | tail _ step ih => exact ih.step step

end PmmHistory

/-- In every run of non-panicking allocations and frees of live blocks, the
live blocks are pairwise disjoint inside `[1, top)`, the free pages are
exactly the initial ones outside the live blocks, no free of a live block
panics, and the cursor stays inside the bitmap. -/
theorem pmm_run_ownership (pmm : Pmm) (zeroUsed : ¬ pmm.Free 0)
    (cursorLe : pmm.bitmapPrevIndex ≤ pmm.bitmapTopIndex) (state : PmmHistory)
    (run : Relation.ReflTransGen PmmStep ⟨pmm, []⟩ state) :
    (state.live.Pairwise (fun first second => Disjoint first.pages second.pages) ∧
      ∀ block ∈ state.live, ∀ page ∈ block.pages,
        1 ≤ page ∧ page < pmm.bitmapTopIndex) ∧
    state.pmm.freeBelowTop = pmm.freeBelowTop \ state.livePages ∧
    (∀ block ∈ state.live,
      ∃ after, pmmFree state.pmm block.addr block.nPages = .ok after) ∧
    state.pmm.bitmapPrevIndex ≤ state.pmm.bitmapTopIndex := by
  have owned := PmmHistory.Owned.reachable ⟨zeroUsed, cursorLe⟩ run
  refine ⟨⟨owned.disjoint, ?_⟩, ?_, ?_, owned.valid.prev_le⟩
  · intro block member page inBlock
    obtain ⟨start, addrEq, startPos, -, fits⟩ := owned.placed block member
    have topLt := pmm.topIndex_lt
    rw [PageBlock.pages, addrEq, pageAddress_toNat_div (by omega)] at inBlock
    obtain ⟨pageGe, pageLt⟩ := inBlock
    exact ⟨by omega, by omega⟩
  · ext page
    simp only [Pmm.freeBelowTop, Set.mem_ofPred_eq, Set.mem_sdiff, owned.top_eq,
      owned.free_iff, and_assoc]
  · intro block member
    obtain ⟨after, freed, -⟩ := owned.free_ok member
    exact ⟨after, freed⟩

theorem pmm_run_ownership_wraps :
    ∃ state : PmmHistory,
      Relation.ReflTransGen PmmStep ⟨smallPmm, []⟩ state ∧
      state.live = [⟨pageAddress 1, 3⟩] ∧
      state.pmm.freeBelowTop = smallPmm.freeBelowTop \ state.livePages ∧
      state.pmm.bitmapPrevIndex ≤ state.pmm.bitmapTopIndex := by
  have run : Relation.ReflTransGen PmmStep ⟨smallPmm, []⟩
      ⟨((physicalAlloc { smallPmm with bitmapPrevIndex := 0 } 3 6)).2,
        [⟨pageAddress 1, 3⟩]⟩ :=
    .single (.alloc 3 (by decide) rfl)
  have result := pmm_run_ownership smallPmm (by decide) (by decide) _ run
  exact ⟨_, run, rfl, result.2.1, result.2.2.2⟩

end MmdOS
