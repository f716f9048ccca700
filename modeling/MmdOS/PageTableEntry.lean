import MmdOS.PhysicalAllocator
import MmdOS.RadixForest

/-!
# Page-table entries and virtual address indices

The bit layout of `vmm.h`: a present entry holds the physical address of a
page in its bits 12 to 51, and a virtual address selects one of 512 entries at
each of four levels.  Every bit operation of the page-table code is reduced
here to division and remainder.
-/

namespace MmdOS

variable {shift page : Nat} {pte phys : Word}

def nineBits : Word := 0x1ff#64

def ptePresent : Word := 1#64

def pteWritable : Word := 2#64

def pteNoExecute : Word := 1#64 <<< 63

def pteAddr : Word := 0x000ffffffffff000#64

def pteGetAddr (pte : Word) : Word :=
  pte &&& pteAddr

def Present (pte : Word) : Prop :=
  pte &&& ptePresent ≠ 0#64

instance (pte : Word) : Decidable (Present pte) :=
  inferInstanceAs (Decidable (_ ≠ _))

/-- Nine bits of a virtual address, `(virt & (NINE_BITS << shift)) >> shift`. -/
def lvlOffset (shift : Nat) (virt : Word) : Word :=
  (virt &&& nineBits <<< shift) >>> shift

def lvl4Offset (virt : Word) : Word := lvlOffset 39 virt

def lvl3Offset (virt : Word) : Word := lvlOffset 30 virt

def lvl2Offset (virt : Word) : Word := lvlOffset 21 virt

def lvl1Offset (virt : Word) : Word := lvlOffset 12 virt

theorem lvlOffset_toNat (shiftLe : shift ≤ 55) (virt : Word) :
    (lvlOffset shift virt).toNat = virt.toNat / 2 ^ shift % 512 := by
  have maskLt : 511 <<< shift < 2 ^ 64 := by
    rw [Nat.shiftLeft_eq]
    calc
      511 * 2 ^ shift ≤ 511 * 2 ^ 55 :=
        Nat.mul_le_mul_left _ (Nat.pow_le_pow_right (by omega) shiftLe)
      _ < 2 ^ 64 := by decide
  have maskEq : (nineBits <<< shift).toNat = 511 <<< shift := by
    rw [BitVec.toNat_shiftLeft]
    exact Nat.mod_eq_of_lt maskLt
  rw [lvlOffset, BitVec.toNat_ushiftRight, BitVec.toNat_and, maskEq,
    Nat.shiftRight_and_distrib, Nat.shiftLeft_shiftRight, Nat.shiftRight_eq_div_pow]
  exact Nat.and_two_pow_sub_one_eq_mod _ 9

theorem pteGetAddr_toNat (pte : Word) :
    (pteGetAddr pte).toNat = pte.toNat / 2 ^ 12 % 2 ^ 40 * 2 ^ 12 := by
  have maskEq : pteAddr.toNat = (2 ^ 40 - 1) <<< 12 := by decide
  rw [pteGetAddr, BitVec.toNat_and, maskEq, ← Nat.shiftLeft_eq,
    ← Nat.shiftRight_eq_div_pow]
  apply Nat.eq_of_testBit_eq
  intro bit
  rw [Nat.testBit_and, Nat.testBit_shiftLeft, Nat.testBit_shiftLeft,
    Nat.testBit_two_pow_sub_one, Nat.testBit_mod_two_pow, Nat.testBit_shiftRight]
  by_cases low : 12 ≤ bit
  · have position : 12 + (bit - 12) = bit := by omega
    simp only [low, position, decide_true, Bool.true_and]
    exact Bool.and_comm _ _
  · simp [low]

def entryTable (pte : Word) : Option Nat :=
  if Present pte then some ((pteGetAddr pte).toNat / pageSize) else none

theorem entryTable_eq_some (points : entryTable pte = some page) :
    Present pte ∧ pteGetAddr pte = pageAddress page ∧ page < 2 ^ 40 := by
  unfold entryTable at points
  split at points
  case isFalse => simp at points
  case isTrue present =>
    rw [Option.some.injEq, pteGetAddr_toNat, pageSize] at points
    have pageLt : page < 2 ^ 40 := by omega
    refine ⟨present, ?_, pageLt⟩
    apply BitVec.eq_of_toNat_eq
    rw [pteGetAddr_toNat, pageAddress_toNat (by omega), pageSize]
    omega

theorem entryTable_eq_none_iff :
    entryTable pte = none ↔ ¬ Present pte := by
  simp [entryTable]

@[simp]
theorem entryTable_zero : entryTable 0#64 = none := by
  decide

/-- Page-aligned addresses below `2 ^ 52` are exactly what the address bits
can hold. -/
theorem pteGetAddr_of_aligned (aligned : phys.toNat % pageSize = 0) (bounded : phys.toNat < 2 ^ 52) :
    pteGetAddr phys = phys := by
  apply BitVec.eq_of_toNat_eq
  rw [pteGetAddr_toNat]
  rw [pageSize] at aligned
  omega

theorem pteGetAddr_or {flags : Word} (aligned : phys.toNat % pageSize = 0)
    (bounded : phys.toNat < 2 ^ 52) (disjoint : flags &&& pteAddr = 0#64) :
    pteGetAddr (phys ||| flags) = phys := by
  have physEq : phys &&& pteAddr = phys := pteGetAddr_of_aligned aligned bounded
  rw [pteGetAddr, BitVec.and_comm, BitVec.and_or_distrib_left, BitVec.and_comm pteAddr phys,
    BitVec.and_comm pteAddr flags, physEq, disjoint, BitVec.or_zero]

def tableEntry (page : Nat) : Word :=
  pageAddress page ||| ptePresent ||| pteWritable

theorem entryTable_tableEntry (pageLt : page < 2 ^ 40) :
    entryTable (tableEntry page) = some page := by
  have aligned : (pageAddress page).toNat % pageSize = 0 := by
    rw [pageAddress_toNat (by omega), pageSize]
    omega
  have bounded : (pageAddress page).toNat < 2 ^ 52 := by
    rw [pageAddress_toNat (by omega), pageSize]
    omega
  have addrEq : pteGetAddr (tableEntry page) = pageAddress page := by
    rw [tableEntry, BitVec.or_assoc]
    exact pteGetAddr_or aligned bounded (by decide)
  have present : Present (tableEntry page) := by
    intro isZero
    have lowBit := congrArg (fun word => word.getLsbD 0) isZero
    simp [tableEntry, ptePresent, pteWritable] at lowBit
  rw [entryTable, if_pos present, addrEq, pageAddress_toNat_div (by omega)]

def tableIndex (offset : Word) : Fin 512 :=
  Fin.ofNat 512 offset.toNat

def tablePath (virt : Word) : List (Fin 512) :=
  [tableIndex (lvl4Offset virt), tableIndex (lvl3Offset virt), tableIndex (lvl2Offset virt)]

def leafIndex (virt : Word) : Fin 512 :=
  tableIndex (lvl1Offset virt)

/-- The 36 bits of a virtual address that select its page. -/
def pageKey (virt : Word) : Nat :=
  (virt >>> 12).toNat % 2 ^ 36

theorem lvlOffset_lt (shiftLe : shift ≤ 55) (virt : Word) :
    (lvlOffset shift virt).toNat < 512 := by
  rw [lvlOffset_toNat shiftLe]
  omega

theorem tableIndex_val {offset : Word} (offsetLt : offset.toNat < 512) :
    (tableIndex offset).val = offset.toNat :=
  Nat.mod_eq_of_lt offsetLt

/-- Two addresses walk the same four indices exactly when they lie in the same
page, up to the bits above bit 47. -/
theorem pageKey_eq_iff {first second : Word} :
    pageKey first = pageKey second ↔
      tablePath first = tablePath second ∧ leafIndex first = leafIndex second := by
  have indexEq : ∀ shift, shift ≤ 55 →
      (tableIndex (lvlOffset shift first) = tableIndex (lvlOffset shift second) ↔
        first.toNat / 2 ^ shift % 512 = second.toNat / 2 ^ shift % 512) := by
    intro shift shiftLe
    rw [Fin.ext_iff, tableIndex_val (lvlOffset_lt shiftLe _),
      tableIndex_val (lvlOffset_lt shiftLe _), lvlOffset_toNat shiftLe,
      lvlOffset_toNat shiftLe]
  simp only [tablePath, leafIndex, List.cons.injEq, and_true, lvl4Offset, lvl3Offset,
    lvl2Offset, lvl1Offset, indexEq 39 (by omega), indexEq 30 (by omega),
    indexEq 21 (by omega), indexEq 12 (by omega), pageKey, BitVec.toNat_ushiftRight,
    Nat.shiftRight_eq_div_pow]
  have firstLt := first.isLt
  have secondLt := second.isLt
  omega

end MmdOS
