import MmdOS.PackedBitmap
import Mathlib.Data.Set.Basic
import Mathlib.Order.Bounds.Defs
import Mathlib.Tactic.IntervalCases

/-!
# The physical page allocator

`pmm.c` hands out runs of consecutive pages by next fit: a cursor moves
through the bitmap, wraps to the beginning once, and is never moved by a
free.  This file embeds `physical_alloc`, `pmm_alloc_nozero` and `pmm_free`
and states what each call does to the set of free pages.
-/

namespace MmdOS

variable {bitmap : Bitmap} {nPages page count : Nat}

/-- The static state of `pmm.c`.  `pmm_init` computes `bitmap_top_index` as a
64-bit address divided by the page size, which bounds it. -/
structure Pmm where
  bitmap : Bitmap
  bitmapTopIndex : Nat
  bitmapPrevIndex : Nat
  topIndex_lt : bitmapTopIndex < 2 ^ 52

namespace Pmm

def Free (pmm : Pmm) (page : Nat) : Prop :=
  bitmapGet pmm.bitmap page = false

instance (pmm : Pmm) (page : Nat) : Decidable (pmm.Free page) :=
  inferInstanceAs (Decidable (_ = _))

def FreeRun (pmm : Pmm) (start count : Nat) : Prop :=
  ∀ page, start ≤ page → page < start + count → pmm.Free page

end Pmm

/-- The search loop of `physical_alloc`, with `remaining` iterations left of
`while (bitmap_prev_index < limit)`.  The result is the cursor at the end and
the first page of the run, if there is one. -/
def physicalScan (bitmap : Bitmap) (nPages : Nat) :
    (remaining bitmapPrevIndex consecutivePages : Nat) → Nat × Option Nat
  | 0, bitmapPrevIndex, _ => (bitmapPrevIndex, none)
  | remaining + 1, bitmapPrevIndex, consecutivePages =>
      if bitmapGet bitmap bitmapPrevIndex then
        physicalScan bitmap nPages remaining (bitmapPrevIndex + 1) 0
      else if consecutivePages + 1 = nPages then
        (bitmapPrevIndex + 1, some (bitmapPrevIndex + 1 - nPages))
      else
        physicalScan bitmap nPages remaining (bitmapPrevIndex + 1)
          (consecutivePages + 1)

/-- `physical_alloc`; a null pointer is returned as the zero word. -/
def physicalAlloc (pmm : Pmm) (nPages limit : Nat) : Word × Pmm :=
  match physicalScan pmm.bitmap nPages (limit - pmm.bitmapPrevIndex)
      pmm.bitmapPrevIndex 0 with
  | (cursor, none) => (0#64, { pmm with bitmapPrevIndex := cursor })
  | (cursor, some pageIndex) =>
      (BitVec.ofNat 64 (pageIndex * pageSize),
        { pmm with
          bitmap := bitmapSetRange pmm.bitmap pageIndex nPages
          bitmapPrevIndex := cursor })

def pmmAllocNozero (pmm : Pmm) (nPages : Nat) : Except Panic (Word × Pmm) :=
  let prevIndex := pmm.bitmapPrevIndex
  let first := physicalAlloc pmm nPages pmm.bitmapTopIndex
  if first.1 = 0#64 then
    -- wrap to the beginning of the bitmap
    let second := physicalAlloc { first.2 with bitmapPrevIndex := 0 } nPages prevIndex
    if second.1 = 0#64 then .error .outOfMemory else .ok second
  else .ok first

/-- The loop of `pmm_free`, over `count` pages from `bitmapIndex` on. -/
def freePages (bitmap : Bitmap) (bitmapIndex : Nat) : Nat → Except Panic Bitmap
  | 0 => .ok bitmap
  | count + 1 =>
      if bitmapGet bitmap bitmapIndex then
        freePages (bitmapClear bitmap bitmapIndex) (bitmapIndex + 1) count
      else .error .pageAlreadyFree

/-- `pmm_free`; the loop bound `bitmap_index + n_pages` is a 64-bit sum. -/
def pmmFree (pmm : Pmm) (addr : Word) (nPages : Nat) : Except Panic Pmm :=
  if nPages = 0 then .ok pmm
  else
    let bitmapIndex := addr.toNat / pageSize
    let stop := (bitmapIndex + nPages) % 2 ^ 64
    (freePages pmm.bitmap bitmapIndex (stop - bitmapIndex)).map
      fun bitmap => { pmm with bitmap }

/-- A successful scan stops right behind the first fitting run.  The pages
from `prev - run` up to the cursor are the free pages counted so far. -/
theorem physicalScan_some {remaining prev run cursor start : Nat} (runLt : run < nPages)
    (runLe : run ≤ prev)
    (runFree : ∀ page, prev - run ≤ page → page < prev → bitmapGet bitmap page = false)
    (found : physicalScan bitmap nPages remaining prev run = (cursor, some start)) :
    cursor = start + nPages ∧ cursor ≤ prev + remaining ∧ prev - run ≤ start ∧
      (∀ page, start ≤ page → page < start + nPages →
        bitmapGet bitmap page = false) ∧
      ∀ earlier, prev - run ≤ earlier → earlier < start →
        ∃ page, earlier ≤ page ∧ page < earlier + nPages ∧
          bitmapGet bitmap page = true := by
  induction remaining generalizing prev run with
  | zero => simp [physicalScan] at found
  | succ remaining ih =>
      rw [physicalScan] at found
      cases marked : bitmapGet bitmap prev with
      | true =>
          simp only [marked, if_true] at found
          obtain ⟨cursorEq, cursorLe, startGe, free, least⟩ :=
            ih (by omega) (by omega) (by omega) found
          refine ⟨cursorEq, by omega, by omega, free, ?_⟩
          intro earlier earlierGe earlierLt
          by_cases beyond : prev < earlier
          · exact least earlier (by omega) earlierLt
          · exact ⟨prev, by omega, by omega, marked⟩
      | false =>
          simp only [marked, Bool.false_eq_true, if_false] at found
          have runFreeNext : ∀ page, prev - run ≤ page → page < prev + 1 →
              bitmapGet bitmap page = false := by
            intro page pageGe pageLt
            by_cases last : page = prev
            · rw [last, marked]
            · exact runFree page pageGe (by omega)
          by_cases complete : run + 1 = nPages
          · rw [if_pos complete, Prod.mk.injEq, Option.some.injEq] at found
            obtain ⟨cursorEq, startEq⟩ := found
            have startValue : start = prev - run := by omega
            refine ⟨by omega, by omega, by omega, ?_, ?_⟩
            · intro page pageGe pageLt
              exact runFreeNext page (by omega) (by omega)
            · intro earlier earlierGe earlierLt
              omega
          · rw [if_neg complete] at found
            have nextStart : prev + 1 - (run + 1) = prev - run := by omega
            have next := @ih (prev + 1) (run + 1) (by omega) (by omega)
              (by rw [nextStart]; exact runFreeNext) found
            rw [nextStart] at next
            obtain ⟨cursorEq, cursorLe, startGe, free, least⟩ := next
            exact ⟨cursorEq, by omega, startGe, free, least⟩

/-- A failed scan ends at the limit, and no run fits below it. -/
theorem physicalScan_none {remaining prev run cursor : Nat} (runLt : run < nPages)
    (runLe : run ≤ prev) (missed : physicalScan bitmap nPages remaining prev run = (cursor, none)) :
    cursor = prev + remaining ∧
      ∀ start, prev - run ≤ start → start + nPages ≤ prev + remaining →
        ∃ page, start ≤ page ∧ page < start + nPages ∧
          bitmapGet bitmap page = true := by
  induction remaining generalizing prev run with
  | zero =>
      simp only [physicalScan, Prod.mk.injEq, and_true] at missed
      exact ⟨missed.symm, fun start startGe fits => by omega⟩
  | succ remaining ih =>
      rw [physicalScan] at missed
      cases marked : bitmapGet bitmap prev with
      | true =>
          simp only [marked, if_true] at missed
          obtain ⟨cursorEq, blocked⟩ := ih (by omega) (by omega) missed
          refine ⟨by omega, ?_⟩
          intro start startGe fits
          by_cases beyond : prev < start
          · exact blocked start (by omega) (by omega)
          · exact ⟨prev, by omega, by omega, marked⟩
      | false =>
          simp only [marked, Bool.false_eq_true, if_false] at missed
          by_cases complete : run + 1 = nPages
          · simp [complete] at missed
          · rw [if_neg complete] at missed
            have nextStart : prev + 1 - (run + 1) = prev - run := by omega
            have next := @ih (prev + 1) (run + 1) (by omega) (by omega) missed
            rw [nextStart] at next
            obtain ⟨cursorEq, blocked⟩ := next
            exact ⟨by omega, fun start startGe fits => blocked start startGe (by omega)⟩

def pageAddress (page : Nat) : Word :=
  BitVec.ofNat 64 (page * pageSize)

theorem pageAddress_toNat (pageLt : page < 2 ^ 52) :
    (pageAddress page).toNat = page * pageSize := by
  simp only [pageAddress, BitVec.toNat_ofNat, pageSize] at *
  omega

theorem pageAddress_toNat_div (pageLt : page < 2 ^ 52) :
    (pageAddress page).toNat / pageSize = page := by
  rw [pageAddress_toNat pageLt, pageSize]
  omega

theorem pageAddress_ne_zero (pageLt : page < 2 ^ 52) (positive : 1 ≤ page) :
    pageAddress page ≠ 0#64 := by
  intro isZero
  have value := pageAddress_toNat pageLt
  rw [isZero, pageSize] at value
  simp at value
  omega

variable {pmm : Pmm}

namespace Pmm

/-- What every state of the running allocator satisfies: the null page is
never free and the cursor stays inside the bitmap. -/
structure Valid (pmm : Pmm) : Prop where
  zeroUsed : ¬ pmm.Free 0
  prev_le : pmm.bitmapPrevIndex ≤ pmm.bitmapTopIndex

structure Took (pmm : Pmm) (start count : Nat) (after : Pmm) : Prop where
  start_pos : 1 ≤ start
  fits : start + count ≤ pmm.bitmapTopIndex
  free : pmm.FreeRun start count
  top_eq : after.bitmapTopIndex = pmm.bitmapTopIndex
  prev_eq : after.bitmapPrevIndex = start + count
  bitmap_eq : after.bitmap = bitmapSetRange pmm.bitmap start count

theorem Took.free_iff {after : Pmm} {start : Nat} (took : pmm.Took start count after) (page : Nat) :
    after.Free page ↔ pmm.Free page ∧ ¬(start ≤ page ∧ page < start + count) := by
  unfold Free
  rw [took.bitmap_eq, bitmapGet_bitmapSetRange, Bool.or_eq_false_iff,
    decide_eq_false_iff_not, and_comm]

theorem Took.valid {after : Pmm} {start : Nat} (took : pmm.Took start count after)
    (valid : pmm.Valid) : after.Valid where
  zeroUsed := fun free => valid.zeroUsed ((took.free_iff 0).mp free).1
  prev_le := by
    rw [took.prev_eq, took.top_eq]
    exact took.fits

end Pmm

/-- `physical_alloc` takes the lowest run from the cursor on that ends below the
limit, or else only moves the cursor. -/
theorem physicalAlloc_eq (pmm : Pmm) (positive : 1 ≤ nPages) (limit : Nat) :
    (∃ start, pmm.bitmapPrevIndex ≤ start ∧ start + nPages ≤ limit ∧
      pmm.FreeRun start nPages ∧
      (∀ earlier, pmm.bitmapPrevIndex ≤ earlier → earlier < start →
        ¬ pmm.FreeRun earlier nPages) ∧
      physicalAlloc pmm nPages limit = (pageAddress start,
        { pmm with
          bitmap := bitmapSetRange pmm.bitmap start nPages
          bitmapPrevIndex := start + nPages })) ∨
    ((∀ start, pmm.bitmapPrevIndex ≤ start → start + nPages ≤ limit →
        ¬ pmm.FreeRun start nPages) ∧
      physicalAlloc pmm nPages limit =
        (0#64, { pmm with bitmapPrevIndex := max pmm.bitmapPrevIndex limit })) := by
  rcases scan : physicalScan pmm.bitmap nPages (limit - pmm.bitmapPrevIndex)
    pmm.bitmapPrevIndex 0 with ⟨cursor, _ | start⟩
  · right
    obtain ⟨cursorEq, blocked⟩ := physicalScan_none (by omega) (by omega) scan
    have cursorMax : cursor = max pmm.bitmapPrevIndex limit := by omega
    refine ⟨?_, by simp [physicalAlloc, scan, cursorMax]⟩
    intro start startGe fits free
    obtain ⟨page, pageGe, pageLt, marked⟩ := blocked start (by omega) (by omega)
    have := free page pageGe pageLt
    simp [Pmm.Free, marked] at this
  · left
    obtain ⟨rfl, cursorLe, startGe, free, least⟩ :=
      physicalScan_some (by omega) (by omega) (by omega) scan
    refine ⟨start, by omega, by omega, free, ?_, by simp [physicalAlloc, scan, pageAddress]⟩
    intro earlier earlierGe earlierLt earlierFree
    obtain ⟨page, pageGe, pageLt, marked⟩ := least earlier (by omega) earlierLt
    have := earlierFree page pageGe pageLt
    simp [Pmm.Free, marked] at this

/-- Below the top index a run that is taken never starts at the null page. -/
theorem physicalAlloc_cases {limit : Nat} (zeroUsed : ¬ pmm.Free 0) (positive : 1 ≤ nPages)
    (limitLe : limit ≤ pmm.bitmapTopIndex) :
    (∃ start after, physicalAlloc pmm nPages limit = (pageAddress start, after) ∧
      pageAddress start ≠ 0#64 ∧ pmm.Took start nPages after ∧
      pmm.bitmapPrevIndex ≤ start ∧ start + nPages ≤ limit ∧
      ∀ earlier, pmm.bitmapPrevIndex ≤ earlier → earlier < start →
        ¬ pmm.FreeRun earlier nPages) ∨
    (physicalAlloc pmm nPages limit =
        (0#64, { pmm with bitmapPrevIndex := max pmm.bitmapPrevIndex limit }) ∧
      ∀ start, pmm.bitmapPrevIndex ≤ start → start + nPages ≤ limit →
        ¬ pmm.FreeRun start nPages) := by
  rcases physicalAlloc_eq pmm positive limit with
    ⟨start, startGe, fits, free, least, result⟩ | ⟨blocked, result⟩
  · left
    have startPos : 1 ≤ start := by
      by_contra notPos
      exact zeroUsed (free 0 (by omega) (by omega))
    have topLt := pmm.topIndex_lt
    exact ⟨start, _, result, pageAddress_ne_zero (by omega) startPos,
      ⟨startPos, by omega, free, rfl, rfl, rfl⟩, startGe, fits, least⟩
  · right
    exact ⟨result, blocked⟩

def smallPmm : Pmm where
  bitmap := fun byte => if byte = 0 then 1#8 else 0#8
  bitmapTopIndex := 8
  bitmapPrevIndex := 6
  topIndex_lt := by decide

theorem smallPmm_free (pageGe : 1 ≤ page) (pageLt : page < 8) :
    smallPmm.Free page := by
  interval_cases page <;> decide

def Pmm.fittingRuns (pmm : Pmm) (nPages limit : Nat) : Set Nat :=
  { start | pmm.bitmapPrevIndex ≤ start ∧ start + nPages ≤ limit ∧ pmm.FreeRun start nPages }

/-- If a run fits, `physical_alloc` returns the address of the lowest one, marks
its pages and no others, and leaves the cursor behind it.  Otherwise it returns
a null pointer and moves the cursor to the limit. -/
theorem physical_alloc_first_fit (pmm : Pmm) (nPages limit : Nat) (positive : 1 ≤ nPages) :
    ((pmm.fittingRuns nPages limit).Nonempty → ∃ start after,
      IsLeast (pmm.fittingRuns nPages limit) start ∧
      physicalAlloc pmm nPages limit = (BitVec.ofNat 64 (4096 * start), after) ∧
      (∀ page, bitmapGet after.bitmap page =
        (bitmapGet pmm.bitmap page || decide (start ≤ page ∧ page < start + nPages))) ∧
      after.bitmapPrevIndex = start + nPages) ∧
    (pmm.fittingRuns nPages limit = ∅ → ∃ after,
      physicalAlloc pmm nPages limit = (0#64, after) ∧ after.bitmap = pmm.bitmap ∧
      after.bitmapPrevIndex = max pmm.bitmapPrevIndex limit) := by
  rcases physicalAlloc_eq pmm positive limit with
    ⟨start, startGe, fits, free, least, result⟩ | ⟨blocked, result⟩
  · have member : start ∈ pmm.fittingRuns nPages limit := ⟨startGe, fits, free⟩
    rw [pageAddress, pageSize, Nat.mul_comm] at result
    constructor
    · intro _
      refine ⟨start, _, ⟨member, ?_⟩, result, ?_, rfl⟩
      · rintro other ⟨otherGe, -, otherFree⟩
        by_contra before
        exact least other otherGe (by omega) otherFree
      · intro page
        dsimp only
        rw [bitmapGet_bitmapSetRange, Bool.or_comm]
    · intro empty
      rw [empty] at member
      exact absurd member (Set.notMem_empty start)
  · constructor
    · rintro ⟨start, startGe, fits, free⟩
      exact absurd free (blocked start startGe fits)
    · intro _
      exact ⟨_, result, rfl, rfl⟩

theorem physical_alloc_first_fit_small :
    (∃ start after, IsLeast (smallPmm.fittingRuns 2 8) start ∧
      physicalAlloc smallPmm 2 8 = (BitVec.ofNat 64 (4096 * start), after) ∧
      after.bitmapPrevIndex = start + 2) ∧
    ∃ after, physicalAlloc smallPmm 3 8 = (0#64, after) ∧ after.bitmap = smallPmm.bitmap := by
  have two : (smallPmm.fittingRuns 2 8).Nonempty := by
    exact ⟨6, by decide, by decide, fun _ pageGe pageLt => smallPmm_free (by omega) (by omega)⟩
  have three : smallPmm.fittingRuns 3 8 = ∅ := by
    refine Set.eq_empty_of_forall_notMem ?_
    rintro start ⟨startGe, fits, -⟩
    change 6 ≤ start at startGe
    omega
  obtain ⟨start, after, least, result, -, cursor⟩ :=
    (physical_alloc_first_fit smallPmm 2 8 (by decide)).1 two
  obtain ⟨after', result', sameBitmap, -⟩ :=
    (physical_alloc_first_fit smallPmm 3 8 (by decide)).2 three
  exact ⟨⟨start, after, least, result, cursor⟩, after', result', sameBitmap⟩

/-- Every successful allocation takes a free run below the top index, away
from the null page. -/
theorem pmmAllocNozero_took {after : Pmm} {addr : Word} (valid : pmm.Valid) (positive : 1 ≤ nPages)
    (allocated : pmmAllocNozero pmm nPages = .ok (addr, after)) :
    ∃ start, addr = pageAddress start ∧ pmm.Took start nPages after := by
  rcases physicalAlloc_cases valid.zeroUsed positive le_rfl with
    ⟨start, next, result, nonNull, took, -⟩ | ⟨result, -⟩
  · simp only [pmmAllocNozero, result, if_neg nonNull] at allocated
    cases allocated
    exact ⟨start, rfl, took⟩
  · simp only [pmmAllocNozero, result, if_true] at allocated
    let wrapped : Pmm := { pmm with bitmapPrevIndex := 0 }
    have wrappedZero : ¬ wrapped.Free 0 := valid.zeroUsed
    rcases physicalAlloc_cases wrappedZero positive valid.prev_le with
      ⟨start, next, second, nonNull, took, -⟩ | ⟨second, -⟩
    · rw [second] at allocated
      simp only [if_neg nonNull] at allocated
      cases allocated
      exact ⟨start, rfl, took.start_pos, took.fits, took.free, took.top_eq,
        took.prev_eq, took.bitmap_eq⟩
    · rw [second] at allocated
      simp at allocated

/-- The search panics when every fitting run lies across the cursor: the pass
from the cursor on starts behind its first page, and the pass after the wrap
ends before its last one. -/
theorem pmmAllocNozero_error_iff (valid : pmm.Valid) (positive : 1 ≤ nPages) :
    (∃ reason, pmmAllocNozero pmm nPages = .error reason) ↔
      ∀ start, start + nPages ≤ pmm.bitmapTopIndex → pmm.FreeRun start nPages →
        start < pmm.bitmapPrevIndex ∧ pmm.bitmapPrevIndex < start + nPages := by
  have prevLe := valid.prev_le
  rcases physicalAlloc_cases valid.zeroUsed positive le_rfl with
    ⟨start, next, result, nonNull, took, startGe, -⟩ | ⟨result, blocked⟩
  · constructor
    · rintro ⟨reason, failed⟩
      simp only [pmmAllocNozero, result, if_neg nonNull] at failed
      cases failed
    · intro across
      have := (across start took.fits took.free).1
      omega
  · let wrapped : Pmm := { pmm with bitmapPrevIndex := 0 }
    have wrappedZero : ¬ wrapped.Free 0 := valid.zeroUsed
    rcases physicalAlloc_cases wrappedZero positive valid.prev_le with
      ⟨start, next, second, nonNull, took, -, fits, -⟩ | ⟨second, blockedBelow⟩
    · have retry : physicalAlloc { pmm with bitmapPrevIndex := 0 } nPages
          pmm.bitmapPrevIndex = (pageAddress start, next) := second
      constructor
      · rintro ⟨reason, failed⟩
        simp only [pmmAllocNozero, result, if_true, retry, if_neg nonNull] at failed
        cases failed
      · intro across
        have := (across start (by omega) took.free).2
        omega
    · have retry : (physicalAlloc { pmm with bitmapPrevIndex := 0 } nPages
          pmm.bitmapPrevIndex).1 = 0#64 := congrArg Prod.fst second
      constructor
      · intro _ start fits free
        constructor
        · by_contra behind
          exact blocked start (by omega) fits free
        · by_contra before
          exact blockedBelow start (Nat.zero_le _) (by omega) free
      · intro _
        exact ⟨.outOfMemory, by simp only [pmmAllocNozero, result, if_true, retry]⟩

/-- One page can be allocated whenever one is free. -/
theorem pmmAllocNozero_one_ok (valid : pmm.Valid) (pageLt : page < pmm.bitmapTopIndex)
    (pageFree : pmm.Free page) :
    ∃ addr after, pmmAllocNozero pmm 1 = .ok (addr, after) := by
  have single : pmm.FreeRun page 1 := by
    intro other otherGe otherLt
    have : other = page := by omega
    rwa [this]
  cases allocated : pmmAllocNozero pmm 1 with
  | ok pair => exact ⟨pair.1, pair.2, rfl⟩
  | error reason =>
      have := (pmmAllocNozero_error_iff valid le_rfl).mp ⟨reason, allocated⟩ page pageLt single
      omega

/-- `pmm_alloc_nozero` panics only for lack of a free run exactly when, if there
is a free run of the requested length, one of them does not lie across the
cursor. -/
theorem pmm_alloc_complete_iff (pmm : Pmm) (zeroUsed : ¬ pmm.Free 0)
    (cursorLe : pmm.bitmapPrevIndex ≤ pmm.bitmapTopIndex) (nPages : Nat)
    (positive : 1 ≤ nPages) :
    ((∃ reason, pmmAllocNozero pmm nPages = .error reason) →
      ∀ start, start + nPages ≤ pmm.bitmapTopIndex → ¬ pmm.FreeRun start nPages) ↔
    ((∃ start, start + nPages ≤ pmm.bitmapTopIndex ∧ pmm.FreeRun start nPages) →
      ∃ start, start + nPages ≤ pmm.bitmapTopIndex ∧ pmm.FreeRun start nPages ∧
        (pmm.bitmapPrevIndex ≤ start ∨ start + nPages ≤ pmm.bitmapPrevIndex)) := by
  rw [pmmAllocNozero_error_iff ⟨zeroUsed, cursorLe⟩ positive]
  constructor
  · rintro complete ⟨start, fits, free⟩
    by_contra noneApart
    refine complete ?_ start fits free
    intro other otherFits otherFree
    by_contra apart
    exact noneApart ⟨other, otherFits, otherFree, by omega⟩
  · rintro someApart across start fits free
    obtain ⟨other, otherFits, otherFree, apart⟩ := someApart ⟨start, fits, free⟩
    have := across other otherFits otherFree
    omega

theorem pmm_alloc_complete_iff_small :
    smallPmm.FreeRun 1 3 ∧ ¬ ∃ reason, pmmAllocNozero smallPmm 3 = .error reason := by
  have free : smallPmm.FreeRun 1 3 := fun _ pageGe pageLt => smallPmm_free pageGe (by omega)
  refine ⟨free, fun stopped => ?_⟩
  exact (pmm_alloc_complete_iff smallPmm (by decide) (by decide) 3 (by decide)).mpr
    (fun _ => ⟨1, by decide, free, .inr (by decide)⟩) stopped 1 (by decide) free

/-- All pages but the null page are free and the call for seven of them panics. -/
theorem pmm_alloc_incomplete :
    pmmAllocNozero smallPmm 7 = .error .outOfMemory ∧ ¬ smallPmm.Free 0 ∧
      smallPmm.bitmapPrevIndex ≤ smallPmm.bitmapTopIndex ∧
      1 + 7 ≤ smallPmm.bitmapTopIndex ∧ smallPmm.FreeRun 1 7 :=
  ⟨rfl, by decide, by decide, by decide,
    fun _ pageGe pageLt => smallPmm_free pageGe (by omega)⟩

theorem freePages_ok {index : Nat}
    (used : ∀ page, index ≤ page → page < index + count → bitmapGet bitmap page = true) :
    ∃ after, freePages bitmap index count = .ok after ∧
      ∀ page, bitmapGet after page =
        (bitmapGet bitmap page && !decide (index ≤ page ∧ page < index + count)) := by
  induction count generalizing bitmap index with
  | zero =>
      refine ⟨bitmap, rfl, fun page => ?_⟩
      have outside : ¬(index ≤ page ∧ page < index + 0) := by omega
      rw [decide_eq_false outside, Bool.not_false, Bool.and_true]
  | succ count ih =>
      have rest : ∀ page, index + 1 ≤ page → page < index + 1 + count →
          bitmapGet (bitmapClear bitmap index) page = true := by
        intro page pageGe pageLt
        have different : page ≠ index := by omega
        simp [different, used page (by omega) (by omega)]
      obtain ⟨after, freed, marks⟩ := ih rest
      refine ⟨after, by simp [freePages, used index le_rfl (by omega), freed], ?_⟩
      intro page
      rw [marks, bitmapGet_bitmapClear]
      by_cases first : page = index
      · simp [first]
      · have shifted : decide (index + 1 ≤ page ∧ page < index + 1 + count) =
            decide (index ≤ page ∧ page < index + (count + 1)) := by
          rw [decide_eq_decide]
          omega
        rw [shifted, decide_eq_false first, Bool.not_false, Bool.true_and]

theorem pmmFree_ok {start : Nat} (positive : 1 ≤ count) (fits : start + count ≤ pmm.bitmapTopIndex)
    (used : ∀ page, start ≤ page → page < start + count → ¬ pmm.Free page) :
    ∃ after, pmmFree pmm (pageAddress start) count = .ok after ∧
      after.bitmapTopIndex = pmm.bitmapTopIndex ∧
      after.bitmapPrevIndex = pmm.bitmapPrevIndex ∧
      ∀ page, after.Free page ↔
        pmm.Free page ∨ (start ≤ page ∧ page < start + count) := by
  have topLt := pmm.topIndex_lt
  have indexEq : (pageAddress start).toNat / pageSize = start :=
    pageAddress_toNat_div (by omega)
  have stopEq : (start + count) % 2 ^ 64 - start = count := by omega
  have usedBits : ∀ page, start ≤ page → page < start + count →
      bitmapGet pmm.bitmap page = true := by
    intro page pageGe pageLt
    simpa [Pmm.Free] using used page pageGe pageLt
  obtain ⟨bitmap, freed, marks⟩ := freePages_ok usedBits
  refine ⟨{ pmm with bitmap }, ?_, rfl, rfl, ?_⟩
  · simp only [pmmFree, if_neg (by omega : ¬ count = 0), indexEq, stopEq, freed]
    rfl
  · intro page
    rw [Pmm.Free, Pmm.Free, marks, Bool.and_eq_false_iff, Bool.not_eq_false',
      decide_eq_true_iff]

end MmdOS
