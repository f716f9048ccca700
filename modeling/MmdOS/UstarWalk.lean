import MmdOS.UstarLookup
import Mathlib.Algebra.Order.BigOperators.Group.Finset
import Mathlib.Algebra.Order.Ring.Abs
import Mathlib.Tactic.Positivity

/-!
# Does the walk through an archive end?

`tar_file_lookup` moves by what the size field decodes to.  On an image that
is not a proper archive the characters of the field need not be digits, and the
decoded size can be negative, so that the walk stands still or goes back.  A size
above -512 takes it to a later block, so it ends where all blocks of the image
have such sizes.
-/

namespace MmdOS

open CString

/-- All bytes of the record lie in the image of `size` bytes at `start`. -/
def InImage (start : Word) (size : Nat) (record : Word) : Prop :=
  (record - start).toNat + 512 ≤ size

instance (start : Word) (size : Nat) (record : Word) : Decidable (InImage start size record) :=
  inferInstanceAs (Decidable (_ ≤ _))

/-- The number in a size field, with the characters taken for digits whatever they
are: those behind the first one, without the last one. -/
def sizeValue (field : Stream) : Int :=
  ∑ i ∈ Finset.range 10, ((field (10 - i)).toInt - 48) * 8 ^ i

section Walk

variable (space : ByteSpace) (searchedFile : Stream) (start : Word) (size : Nat)
variable (tarFilename : Stream)

/-- The state before the given round, if the search is still going on then and
has looked only at records in the image. -/
def lookupStateAt : Nat → Option LookupState
  | 0 => some ⟨tarFilename, 0, start⟩
  | n + 1 =>
      (lookupStateAt n).bind fun state =>
        if state.zeroCounter < 2 ∧ InImage start size state.currentRecord then
          (lookupRound space searchedFile state).getLeft?
        else none

/-- Every block of the image that is not zero has a size above -512. -/
def SizesForward : Prop :=
  ∀ record, InImage start size record → (record - start).toNat % 512 = 0 →
    isZeroed space record = false → -512 < sizeValue (headerFileSize space record)

end Walk

section Sizes

theorem octDigit_eq_ofInt (char : Byte) : octDigit char = BitVec.ofInt 64 (char.toInt - 48) := by
  rw [octDigit, BitVec.sub_eq_add_neg, Int.sub_eq_add_neg, BitVec.ofInt_add]
  rfl

theorem octLoop_eq_ofInt (number : Stream) {size : Nat} (sizeLt : size < 2 ^ 16) (position : Nat)
    (result : Word) :
    octLoop number size position result = result + BitVec.ofInt 64
      (∑ i ∈ Finset.range (size + 1), ((number (position + size - i)).toInt - 48) * 8 ^ i) := by
  induction size generalizing position result with
  | zero =>
      rw [octLoop, Finset.sum_range_one, octDigit_eq_ofInt]
      simp [kpow]
  | succ size ih =>
      have power : kpow 8#64 ((size + 1) % 2 ^ 16) = BitVec.ofInt 64 (8 ^ (size + 1)) := by
        rw [Nat.mod_eq_of_lt sizeLt, kpow_eight, ← BitVec.ofInt_natCast, Nat.cast_pow]
        rfl
      have same : ∀ i, position + 1 + size - i = position + (size + 1) - i := by omega
      rw [octLoop, ih (by omega), power, octDigit_eq_ofInt, Finset.sum_range_succ _ (size + 1),
        BitVec.ofInt_add, BitVec.ofInt_mul, Nat.add_sub_cancel]
      simp only [same]
      rw [BitVec.add_assoc, BitVec.add_comm (BitVec.ofInt 64 _ * _)]

theorem octAsciiToDec_eq_ofInt (field : Stream) :
    octAsciiToDec field 12#16 = BitVec.ofInt 64 (sizeValue field) := by
  have rounds : octAsciiToDec field 12#16 = octLoop field 9 1 0#64 := by
    unfold octAsciiToDec
    rfl
  rw [rounds, octLoop_eq_ofInt _ (by omega), BitVec.zero_add]
  rfl

theorem sizeValue_abs_lt (field : Stream) : |sizeValue field| < 2 ^ 35 := by
  have char : ∀ i, |(field i).toInt - 48| ≤ 176 := by
    intro i
    have low := BitVec.le_toInt (field i)
    have high := @BitVec.toInt_lt 8 (field i)
    rw [abs_le]
    omega
  calc |sizeValue field|
      ≤ ∑ i ∈ Finset.range 10, |((field (10 - i)).toInt - 48) * 8 ^ i| :=
        Finset.abs_sum_le_sum_abs _ _
    _ ≤ ∑ i ∈ Finset.range 10, 176 * 8 ^ i := by
        refine Finset.sum_le_sum fun i _ => ?_
        rw [abs_mul, abs_of_pos (by positivity : (0 : Int) < 8 ^ i)]
        exact mul_le_mul_of_nonneg_right (char _) (by positivity)
    _ < 2 ^ 35 := by decide

/-- A size is rounded up to whole blocks, also if it is negative. -/
theorem paddedSize_ofInt (value : Int) :
    512#64 + paddedSize (BitVec.ofInt 64 value) =
      BitVec.ofInt 64 (512 * ((value + 1023) / 512)) := by
  have sizeEq : ((BitVec.ofInt 64 value).toNat : Int) = value % 2 ^ 64 := by
    rw [BitVec.toNat_ofInt]
    omega
  have remainder : BitVec.ofInt 64 value % 512#64 = 0#64 ↔ value % 512 = 0 := by
    rw [← BitVec.toNat_inj, BitVec.toNat_umod]
    change (BitVec.ofInt 64 value).toNat % 512 = 0 ↔ _
    omega
  apply BitVec.eq_of_toNat_eq
  rw [BitVec.toNat_add, BitVec.toNat_ofInt]
  unfold paddedSize
  by_cases aligned : value % 512 = 0
  · rw [if_neg (fun unaligned => unaligned (remainder.mpr aligned))]
    change (512 + (BitVec.ofInt 64 value).toNat) % 2 ^ 64 = _
    omega
  · rw [if_pos (fun isZero => aligned (remainder.mp isZero)), BitVec.toNat_mul, BitVec.toNat_add,
      BitVec.toNat_udiv]
    change (512 + ((BitVec.ofInt 64 value).toNat / 512 + 1) % 2 ^ 64 * 512 % 2 ^ 64) % 2 ^ 64 = _
    omega

theorem nextRecord_eq_ofInt (space : ByteSpace) (record : Word) :
    nextRecord space record = record +
      BitVec.ofInt 64 (512 * ((sizeValue (headerFileSize space record) + 1023) / 512)) := by
  rw [← paddedSize_ofInt, ← octAsciiToDec_eq_ofInt, nextRecord, BitVec.add_assoc]

/-- From a block with a size above -512, the walk moves forward by whole blocks. -/
theorem nextRecord_forward {space : ByteSpace} {start record : Word} {size : Nat}
    (small : size + 2 ^ 36 ≤ 2 ^ 64) (inside : InImage start size record)
    (aligned : (record - start).toNat % 512 = 0)
    (forward : -512 < sizeValue (headerFileSize space record)) :
    (nextRecord space record - start).toNat % 512 = 0 ∧
      (record - start).toNat + 512 ≤ (nextRecord space record - start).toNat := by
  have bounds := sizeValue_abs_lt (headerFileSize space record)
  rw [nextRecord_eq_ofInt]
  generalize sizeValue (headerFileSize space record) = value at forward bounds ⊢
  rw [abs_lt] at bounds
  have moved : record + BitVec.ofInt 64 (512 * ((value + 1023) / 512)) - start =
      record - start + BitVec.ofInt 64 (512 * ((value + 1023) / 512)) := by
    rw [BitVec.sub_eq_add_neg, BitVec.sub_eq_add_neg, BitVec.add_assoc,
      BitVec.add_comm (BitVec.ofInt 64 _), BitVec.add_assoc]
  rw [moved, BitVec.toNat_add, BitVec.toNat_ofInt]
  unfold InImage at inside
  omega

end Sizes

section Lemmas

variable {space : ByteSpace} {searchedFile : Stream} {start : Word} {size : Nat}
variable {tarFilename : Stream}
variable {n : Nat} {next state : LookupState}

/-- What one round of the walk does. -/
theorem lookupStateAt_succ
    (reached : lookupStateAt space searchedFile start size tarFilename (n + 1) = some next) :
    ∃ state, lookupStateAt space searchedFile start size tarFilename n = some state ∧
      (state.zeroCounter < 2 ∧ InImage start size state.currentRecord) ∧
      lookupRound space searchedFile state = .inl next := by
  rw [lookupStateAt, Option.bind_eq_some_iff] at reached
  obtain ⟨state, before, moved⟩ := reached
  split at moved
  · next running => exact ⟨state, before, running, Sum.getLeft?_eq_some_iff.mp moved⟩
  · cases moved

theorem lookupRound_eq_inl (round : lookupRound space searchedFile state = .inl next) :
    (isZeroed space state.currentRecord = true ∧
      next = { state with zeroCounter := state.zeroCounter + 1 }) ∨
    (isZeroed space state.currentRecord = false ∧ next.zeroCounter = 0 ∧
      next.currentRecord = nextRecord space state.currentRecord) := by
  unfold lookupRound at round
  split at round
  · next zeroed => exact Or.inl ⟨zeroed, (Sum.inl.inj round).symm⟩
  · next notZeroed =>
    dsimp only at round
    split at round
    · cases round
    · rw [← Sum.inl.inj round]
      exact Or.inr ⟨Bool.eq_false_of_not_eq_true notZeroed, rfl, rfl⟩

theorem isZeroed_of_zeroCounter
    (reached : lookupStateAt space searchedFile start size tarFilename n = some state)
    (counted : state.zeroCounter ≠ 0) : isZeroed space state.currentRecord = true := by
  cases n with
  | zero =>
      rw [lookupStateAt, Option.some.injEq] at reached
      rw [← reached] at counted
      exact absurd rfl counted
  | succ n =>
      obtain ⟨before, -, -, round⟩ := lookupStateAt_succ reached
      rcases lookupRound_eq_inl round with ⟨zeroed, rfl⟩ | ⟨-, fresh, -⟩
      · exact zeroed
      · exact absurd fresh counted

/-- The search never goes on behind a zero block. -/
theorem fresh_before
    (reached : lookupStateAt space searchedFile start size tarFilename (n + 1) = some next)
    (fresh : next.zeroCounter = 0) :
    ∃ state, lookupStateAt space searchedFile start size tarFilename n = some state ∧
      state.zeroCounter = 0 ∧ InImage start size state.currentRecord ∧
      isZeroed space state.currentRecord = false ∧
      next.currentRecord = nextRecord space state.currentRecord := by
  obtain ⟨state, before, ⟨-, inside⟩, round⟩ := lookupStateAt_succ reached
  rcases lookupRound_eq_inl round with ⟨-, rfl⟩ | ⟨notZeroed, -, moved⟩
  · exact absurd fresh (Nat.succ_ne_zero _)
  · refine ⟨state, before, ?_, inside, notZeroed, moved⟩
    by_contra counted
    rw [lookupRound_of_isZeroed (isZeroed_of_zeroCounter before counted)] at round
    rw [← Sum.inl.inj round] at fresh
    exact Nat.succ_ne_zero _ fresh

/-- Where all sizes are above -512, every round leads to a later block. -/
theorem SizesForward.offset (forward : SizesForward space start size)
    (small : size + 2 ^ 36 ≤ 2 ^ 64) {i j : Nat} {first second : LookupState}
    (reached : lookupStateAt space searchedFile start size tarFilename i = some first)
    (later : lookupStateAt space searchedFile start size tarFilename (i + j) = some second)
    (aligned : (first.currentRecord - start).toNat % 512 = 0) (fresh : second.zeroCounter = 0) :
    (second.currentRecord - start).toNat % 512 = 0 ∧
      (first.currentRecord - start).toNat + 512 * j ≤ (second.currentRecord - start).toNat := by
  induction j generalizing second with
  | zero =>
      rw [Nat.add_zero, reached, Option.some.injEq] at later
      rw [← later]
      exact ⟨aligned, by omega⟩
  | succ j ih =>
      obtain ⟨state, before, stateFresh, inside, notZeroed, moved⟩ := fresh_before later fresh
      obtain ⟨stateAligned, stateOffset⟩ := ih before stateFresh
      have next := nextRecord_forward small inside stateAligned
        (forward _ inside stateAligned notZeroed)
      rw [← moved] at next
      refine ⟨next.1, ?_⟩
      rw [Nat.mul_succ, ← Nat.add_assoc]
      exact (Nat.add_le_add_right stateOffset 512).trans next.2

end Lemmas

end MmdOS
