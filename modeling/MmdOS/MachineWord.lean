import Mathlib.Data.Nat.Bitwise
import Mathlib.Tactic.Common

/-!
# Machine words, page arithmetic and kernel panics

Addresses, page-table entries and sizes are 64-bit machine words, so every
sum wraps around exactly as it does in the kernel.  Panics halt the machine;
a call that panics therefore has no successor state and returns the reason
instead.
-/

namespace MmdOS

/-- A 64-bit machine word: `uint64_t`, `uintptr_t` and every pointer. -/
abbrev Word := BitVec 64

def pageSize : Nat := 4096

/-- The `DIV_ROUNDUP` macro at `uint64_t`; the sum wraps. -/
def divRoundup (value div : Word) : Word :=
  (value + (div - 1#64)) / div

def alignUp (value align : Word) : Word :=
  divRoundup value align * align

def alignDown (value align : Word) : Word :=
  value / align * align

theorem alignDown_page (value : Word) :
    (alignDown value 4096#64).toNat = value.toNat / pageSize * pageSize := by
  have valueLt := value.isLt
  rw [alignDown, BitVec.toNat_mul, BitVec.toNat_udiv]
  change value.toNat / 4096 * 4096 % 2 ^ 64 = value.toNat / 4096 * 4096
  omega

/-- Rounding up wraps to zero in the last page. -/
theorem alignUp_page (value : Word) :
    (alignUp value 4096#64).toNat =
      if value.toNat ≤ 2 ^ 64 - pageSize then
        (value.toNat + (pageSize - 1)) / pageSize * pageSize
      else 0 := by
  have valueLt := value.isLt
  rw [alignUp, divRoundup, BitVec.toNat_mul, BitVec.toNat_udiv, BitVec.toNat_add]
  change (value.toNat + 4095) % 2 ^ 64 / 4096 * 4096 % 2 ^ 64 =
    if value.toNat ≤ 2 ^ 64 - 4096 then (value.toNat + 4095) / 4096 * 4096 else 0
  split <;> omega

theorem toNat_pos_of_ne_zero {width : Nat} {word : BitVec width}
    (nonzero : word ≠ BitVec.ofNat width 0) :
    0 < word.toNat := by
  apply Nat.pos_of_ne_zero
  intro zero
  exact nonzero (BitVec.eq_of_toNat_eq (by simpa using zero))

theorem toNat_sub_one {width : Nat} {word : BitVec width} (positive : 0 < word.toNat) :
    (word - BitVec.ofNat width 1).toNat = word.toNat - 1 := by
  have one : (BitVec.ofNat width 1).toNat = 1 := by
    have wordLt := word.isLt
    rw [BitVec.toNat_ofNat]
    exact Nat.mod_eq_of_lt (by omega)
  rw [BitVec.toNat_sub_of_le, one]
  rw [BitVec.le_def, one]
  exact positive

/-- Every place where the memory subsystem calls `panic`. -/
inductive Panic
  | noSpaceForBitmap
  | outOfMemory
  | pageAlreadyFree
  | kernelPageTable
  | kernelText
  | kernelRodata
  | kernelData
  | identityMap
  | directMap
  | heapMap
  deriving DecidableEq, Repr

/-- Why a call does not come back, where accesses to memory may fault. -/
inductive Trap
  | panic (reason : Panic)
  | pageFault (address : Word)
  deriving DecidableEq, Repr

section Calls

variable {α β : Type}

@[simp]
theorem ok_bind (value : α) (rest : α → Except Panic β) :
    (Except.ok value >>= rest) = rest value :=
  rfl

@[simp]
theorem panic_bind (reason : Panic) (rest : α → Except Panic β) :
    (Except.error reason >>= rest) = .error reason :=
  rfl

end Calls

end MmdOS
