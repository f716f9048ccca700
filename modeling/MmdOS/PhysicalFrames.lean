import MmdOS.PageTableWalk
import Mathlib.Data.Finset.Card
import Mathlib.Data.Finset.Range

/-!
# Page-table frames from the physical allocator

`pmm_alloc_nozero(1)` meets what the page-table code relies on, as long as the
bitmap describes memory that the direct map covers.
-/

namespace MmdOS

def pmmSource : FrameSource Pmm :=
  fun pmm => pmmAllocNozero pmm 1

namespace Pmm

variable {pmm : Pmm} {page : Nat} {hhdm : Word}

/-- The allocator state is valid and the direct map covers all its pages. -/
structure Covered (hhdm : Word) (pmm : Pmm) : Prop where
  valid : pmm.Valid
  top_le : pmm.bitmapTopIndex ≤ 2 ^ 40
  reach : pmm.bitmapTopIndex * pageSize + hhdm.toNat ≤ 2 ^ 64

def freeSet (pmm : Pmm) : Finset Nat :=
  (Finset.range pmm.bitmapTopIndex).filter fun page => pmm.Free page

@[simp]
theorem mem_freeSet :
    page ∈ pmm.freeSet ↔ page < pmm.bitmapTopIndex ∧ pmm.Free page := by
  simp [freeSet]

theorem Covered.took {after : Pmm} (covered : pmm.Covered hhdm) {start count : Nat}
    (taken : pmm.Took start count after) : after.Covered hhdm where
  valid := taken.valid covered.valid
  top_le := by
    rw [taken.top_eq]
    exact covered.top_le
  reach := by
    rw [taken.top_eq]
    exact covered.reach

theorem Covered.direct (covered : pmm.Covered hhdm) (positive : 1 ≤ page)
    (below : page < pmm.bitmapTopIndex) : DirectMapped hhdm page := by
  have topLe := covered.top_le
  have reach := covered.reach
  have mono : (page + 1) * pageSize ≤ pmm.bitmapTopIndex * pageSize :=
    Nat.mul_le_mul_right _ below
  exact ⟨positive, by omega, by omega⟩

theorem Took.freeSet_eq {after : Pmm} {start : Nat} (taken : pmm.Took start 1 after) :
    after.freeSet = pmm.freeSet.erase start := by
  ext page
  rw [mem_freeSet, Finset.mem_erase, mem_freeSet, taken.free_iff, taken.top_eq]
  constructor
  · rintro ⟨below, free, outside⟩
    exact ⟨by omega, below, free⟩
  · rintro ⟨different, below, free⟩
    exact ⟨below, free, by omega⟩

theorem Took.start_mem {after : Pmm} {start : Nat} (taken : pmm.Took start 1 after) :
    start ∈ pmm.freeSet := by
  have fits := taken.fits
  exact mem_freeSet.mpr ⟨by omega, taken.free start le_rfl (by omega)⟩

end Pmm

def pmmSpec (hhdm : Word) : FrameSpec hhdm pmmSource where
  Valid := Pmm.Covered hhdm
  Free := fun pmm page => page ∈ pmm.freeSet
  supply := fun pmm => pmm.freeSet.card
  free_direct := by
    intro pmm page covered free
    obtain ⟨below, isFree⟩ := Pmm.mem_freeSet.mp free
    have positive : 1 ≤ page := by
      by_contra notPositive
      have isZero : page = 0 := by omega
      exact covered.valid.zeroUsed (isZero ▸ isFree)
    exact covered.direct positive below
  supply_error := by
    intro pmm reason covered failed
    rw [Finset.card_eq_zero, Finset.eq_empty_iff_forall_notMem]
    intro page free
    obtain ⟨below, isFree⟩ := Pmm.mem_freeSet.mp free
    obtain ⟨addr, after, allocated⟩ := pmmAllocNozero_one_ok covered.valid below isFree
    rw [pmmSource, allocated] at failed
    cases failed
  alloc_spec := by
    intro pmm addr after covered allocated
    obtain ⟨start, rfl, taken⟩ := pmmAllocNozero_took covered.valid le_rfl allocated
    refine ⟨covered.took taken, ?_, start, rfl, taken.start_mem, ?_⟩
    · rw [taken.freeSet_eq, Finset.card_erase_add_one taken.start_mem]
    · intro other
      rw [taken.freeSet_eq, Finset.mem_erase, and_comm]

end MmdOS
