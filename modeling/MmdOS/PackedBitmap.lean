import MmdOS.MachineWord

/-!
# The packed page bitmap

One bit per physical page, eight pages to a byte.  A set bit marks a used
page.  The three accessors below are those of `bitmap.h`; the lemmas reduce
them to a function from page numbers to Booleans, so that no later proof looks
at bytes or shifts again.
-/

namespace MmdOS

open Function (update update_self update_of_ne)

/-- The bytes behind the `bitmap` pointer. -/
abbrev Bitmap := Nat → BitVec 8

def bitmapSet (bitmap : Bitmap) (bit : Nat) : Bitmap :=
  update bitmap (bit / 8) (bitmap (bit / 8) ||| 1#8 <<< (bit % 8))

def bitmapClear (bitmap : Bitmap) (bit : Nat) : Bitmap :=
  update bitmap (bit / 8) (bitmap (bit / 8) &&& ~~~(1#8 <<< (bit % 8)))

def bitmapGet (bitmap : Bitmap) (bit : Nat) : Bool :=
  bitmap (bit / 8) &&& 1#8 <<< (bit % 8) != 0#8

private theorem getLsbD_one_shiftLeft (shift position : Nat)
    (positionLt : position < 8) :
    (1#8 <<< shift).getLsbD position = decide (position = shift) := by
  rw [BitVec.getLsbD_shiftLeft, BitVec.getLsbD_one]
  by_cases equal : position = shift
  · subst position
    simp [positionLt]
  · simp only [equal, positionLt, decide_true, Bool.true_and, decide_false]
    by_cases below : position < shift
    · simp [below]
    · have : position - shift ≠ 0 := by omega
      simp [this]

theorem bitmapGet_eq_getLsbD (bitmap : Bitmap) (bit : Nat) :
    bitmapGet bitmap bit = (bitmap (bit / 8)).getLsbD (bit % 8) := by
  have shiftLt : bit % 8 < 8 := Nat.mod_lt _ (by omega)
  cases marked : (bitmap (bit / 8)).getLsbD (bit % 8) with
  | true =>
      rw [bitmapGet, bne_iff_ne]
      intro isZero
      have atBit := congrArg (fun byte => byte.getLsbD (bit % 8)) isZero
      simp [BitVec.getLsbD_and, getLsbD_one_shiftLeft _ _ shiftLt, marked] at atBit
  | false =>
      rw [bitmapGet, bne_eq_false_iff_eq]
      apply BitVec.eq_of_getLsbD_eq
      intro position positionLt
      rw [BitVec.getLsbD_and, getLsbD_one_shiftLeft _ _ positionLt]
      by_cases equal : position = bit % 8
      · simp [equal, marked]
      · simp [equal]

@[simp]
theorem bitmapGet_bitmapSet (bitmap : Bitmap) (bit page : Nat) :
    bitmapGet (bitmapSet bitmap bit) page =
      (decide (page = bit) || bitmapGet bitmap page) := by
  rw [bitmapGet_eq_getLsbD, bitmapGet_eq_getLsbD, bitmapSet]
  by_cases sameByte : page / 8 = bit / 8
  · rw [sameByte, update_self, BitVec.getLsbD_or,
      getLsbD_one_shiftLeft _ _ (Nat.mod_lt _ (by omega)), Bool.or_comm]
    congr 1
    simp only [decide_eq_decide]
    omega
  · rw [update_of_ne sameByte]
    have different : page ≠ bit := fun equal => sameByte (by rw [equal])
    simp [different]

@[simp]
theorem bitmapGet_bitmapClear (bitmap : Bitmap) (bit page : Nat) :
    bitmapGet (bitmapClear bitmap bit) page =
      (!decide (page = bit) && bitmapGet bitmap page) := by
  rw [bitmapGet_eq_getLsbD, bitmapGet_eq_getLsbD, bitmapClear]
  by_cases sameByte : page / 8 = bit / 8
  · have positionLt : page % 8 < 8 := Nat.mod_lt _ (by omega)
    rw [sameByte, update_self, BitVec.getLsbD_and, BitVec.getLsbD_not,
      getLsbD_one_shiftLeft _ _ positionLt, Bool.and_comm]
    have samePage : page % 8 = bit % 8 ↔ page = bit := by omega
    simp [positionLt, samePage]
  · rw [update_of_ne sameByte]
    have different : page ≠ bit := fun equal => sameByte (by rw [equal])
    simp [different]

/-- `bitmap_set` on `count` consecutive pages, in increasing order. -/
def bitmapSetRange (bitmap : Bitmap) (start : Nat) : Nat → Bitmap
  | 0 => bitmap
  | count + 1 => bitmapSetRange (bitmapSet bitmap start) (start + 1) count

@[simp]
theorem bitmapGet_bitmapSetRange (bitmap : Bitmap) (start count page : Nat) :
    bitmapGet (bitmapSetRange bitmap start count) page =
      (decide (start ≤ page ∧ page < start + count) || bitmapGet bitmap page) := by
  induction count generalizing bitmap start with
  | zero => simp [bitmapSetRange]
  | succ count ih =>
      rw [bitmapSetRange, ih, bitmapGet_bitmapSet, ← Bool.or_assoc]
      congr 1
      rw [← Bool.decide_or, decide_eq_decide]
      omega

end MmdOS
