import MmdOS.Formatter
import MmdOS.Numerals

/-!
# Formatted numbers

The digits are produced from the last one on and then written in the other order.
For unsigned numbers this gives the numeral in base ten or sixteen.  `format_int`
uses the same loops on a signed number; C rounds quotients towards zero, so for a
negative number every remainder is negative, and no sign is written.
-/

namespace MmdOS

open CString Numeral

section Digits

theorem ofInt_add_zeroChar {digit : Nat} (digitLt : digit < 10) :
    BitVec.ofInt 8 ((digit : Int) + 0x30) = digitChar digit := by
  rw [digitChar, if_pos digitLt, Nat.add_comm, ← BitVec.ofInt_natCast]
  rfl

/-- The first loop counts the digits, whatever the sign is. -/
theorem decimalLength_eq {left : Nat} {integer : Int} (small : integer.natAbs < 10 ^ left) :
    decimalLength left integer = (Nat.digits 10 integer.natAbs).length := by
  induction left generalizing integer with
  | zero =>
      have isZero : integer.natAbs = 0 := Nat.lt_one_iff.mp small
      rw [isZero]
      rfl
  | succ left ih =>
      have quotient : (integer.tdiv 10).natAbs = integer.natAbs / 10 := Int.natAbs_tdiv integer 10
      rw [decimalLength]
      by_cases nonzero : integer ≠ 0
      · have smaller : (integer.tdiv 10).natAbs < 10 ^ left := by
          rw [Nat.pow_succ, Nat.mul_comm] at small
          rw [quotient]
          exact Nat.div_lt_of_lt_mul small
        rw [if_pos nonzero, ih smaller, quotient,
          Nat.digits_def' (by decide) (Int.natAbs_pos.mpr nonzero), List.length_cons]
      · rw [if_neg nonzero, not_ne_iff.mp nonzero]
        rfl

theorem length_decimalNumber (len : Nat) (integer : Int) :
    (decimalNumber len integer).length = len := by
  induction len generalizing integer with
  | zero => rfl
  | succ len ih => rw [decimalNumber, List.length_cons, ih]

theorem decimalNumber_eq (n : Nat) :
    decimalNumber (Nat.digits 10 n).length (n : Int) = (Nat.digits 10 n).map digitChar := by
  induction n using Nat.strong_induction_on with
  | h n ih =>
      by_cases isZero : n = 0
      · rw [isZero]
        rfl
      · have digit : ((n : Int).tmod 10) = ((n % 10 : Nat) : Int) := rfl
        have quotient : ((n : Int).tdiv 10) = ((n / 10 : Nat) : Int) := rfl
        rw [Nat.digits_def' (by decide) (Nat.pos_of_ne_zero isZero), List.length_cons, decimalNumber,
          List.map_cons, digit, quotient, ih _ (by omega),
          ofInt_add_zeroChar (Nat.mod_lt n (by decide))]

theorem decimalText_eq {n : Nat} (small : n < 2 ^ 64) : decimalText (n : Int) = numeral 10 n := by
  have counted : decimalLength 20 (n : Int) = (Nat.digits 10 n).length :=
    decimalLength_eq (Nat.lt_of_lt_of_le small (by decide))
  unfold decimalText numeral
  by_cases isZero : n = 0
  · simp [isZero, digitChar]
  · rw [if_neg (by omega), if_neg isZero, counted, decimalNumber_eq]

/-- There is no room for a sign in what `format_int` writes. -/
theorem length_decimalText {integer : Int} (small : integer.natAbs < 2 ^ 64) :
    (decimalText integer).length = (numeral 10 integer.natAbs).length := by
  unfold decimalText numeral
  by_cases isZero : integer = 0
  · simp [isZero]
  · rw [if_neg isZero, if_neg (Int.natAbs_ne_zero.mpr isZero), List.length_reverse,
      length_decimalNumber, List.length_reverse, List.length_map,
      decimalLength_eq (Nat.lt_of_lt_of_le small (by decide))]

theorem getElem?_hexChars {digit : Nat} (digitLt : digit < 16) :
    hexChars[digit]?.getD 0#8 = digitChar digit := by
  decide +revert

theorem hexDigits_eq {left num : Nat} (small : num < 16 ^ left) :
    hexDigits left num = (Nat.digits 16 num).map digitChar := by
  induction left generalizing num with
  | zero =>
      rw [Nat.lt_one_iff.mp small]
      rfl
  | succ left ih =>
      rw [hexDigits]
      by_cases nonzero : num ≠ 0
      · have smaller : num / 16 < 16 ^ left := by
          rw [Nat.pow_succ, Nat.mul_comm] at small
          exact Nat.div_lt_of_lt_mul small
        rw [if_pos nonzero, ih smaller, getElem?_hexChars (Nat.mod_lt num (by decide)),
          Nat.digits_def' (by decide) (Nat.pos_of_ne_zero nonzero), List.map_cons]
      · rw [if_neg nonzero, not_ne_iff.mp nonzero]
        rfl

theorem hexText_eq (i : Word) : hexText i = numeral 16 i.toNat := by
  have isZero : i = 0#64 ↔ i.toNat = 0 := by simp [BitVec.toNat_eq]
  have small : i.toNat < 16 ^ 64 := Nat.lt_of_lt_of_le i.isLt (by decide)
  simp only [hexText, numeral, isZero, hexDigits_eq small]
  rfl

end Digits

/-- A routine writes the digits of a number: all of them if there is room, and
otherwise those from the first one on that fit. -/
structure Renders (base n : Nat) (format : TextBuffer → TextBuffer) (digits : List Byte) : Prop where
  parses : parse base digits = some n
  canonical : digits.head? = some 0x30#8 → n = 0
  writes : ∀ buffer : TextBuffer, buffer.offset + digits.length ≤ maxFormatted →
    buffer.Wrote digits (format buffer)
  truncates : ∀ buffer : TextBuffer, maxFormatted < buffer.offset + digits.length →
    buffer.Wrote (digits.take (maxFormatted - buffer.offset)) (format buffer)

theorem renders_numeral {base n : Nat} {format : TextBuffer → TextBuffer} (oneLt : 1 < base)
    (baseLe : base ≤ 36)
    (formatEq : ∀ buffer, format buffer = buffer.pushAll maxFormatted (numeral base n)) :
    Renders base n format (numeral base n) where
  parses := parse_numeral baseLe oneLt n
  canonical := eq_zero_of_head?_numeral baseLe oneLt
  writes := fun buffer room => by
    rw [formatEq]
    exact TextBuffer.wrote_pushAll_of_room room
  truncates := fun buffer _ => by
    rw [formatEq]
    exact TextBuffer.wrote_pushAll buffer _

/-- What `format_uint` and `format_hex` write reads as the number again. -/
theorem unsigned_formats_round_trip (n : Word) :
    Renders 10 n.toNat (formatUint n) (numeral 10 n.toNat) ∧
      Renders 16 n.toNat (formatHex n) (numeral 16 n.toNat) := by
  constructor
  · apply renders_numeral (by decide) (by decide)
    intro buffer
    rw [formatUint, formatDecimal_eq, decimalText_eq n.isLt]
  · apply renders_numeral (by decide) (by decide)
    intro buffer
    rw [formatHex_eq, hexText_eq]

section Signed

variable {integer : Word} {buffer : TextBuffer}

theorem natAbs_toInt_lt (integer : Word) : integer.toInt.natAbs < 2 ^ 64 := by
  have := integer.toInt_lt
  have := integer.le_toInt
  omega

/-- `format_int` writes a number in canonical form exactly if it has no sign. -/
theorem formatInt_canonical_iff
    (room : buffer.offset + (signedNumeral 10 integer.toInt).length ≤ maxFormatted) :
    buffer.Wrote (signedNumeral 10 integer.toInt) (formatInt integer buffer) ↔
      0 ≤ integer.toInt := by
  have small := natAbs_toInt_lt integer
  have counted := length_decimalText small
  rw [formatInt, formatDecimal_eq]
  constructor
  · -- behind a sign there would be one more character
    intro wrote
    by_contra negative
    have signed : (signedNumeral 10 integer.toInt).length =
      (decimalText integer.toInt).length + 1 := by
      rw [signedNumeral, if_pos (by omega), List.length_cons, counted]
    have unsigned := @TextBuffer.wrote_pushAll_of_room maxFormatted buffer
      (decimalText integer.toInt) (by omega)
    have tooLong := wrote.offset_eq
    rw [unsigned.offset_eq] at tooLong
    omega
  · intro nonnegative
    have isNat : integer.toInt = (integer.toInt.natAbs : Int) := by omega
    rw [signedNumeral, if_neg (by omega)] at room ⊢
    rw [isNat, decimalText_eq small, Int.natAbs_natCast] at *
    exact TextBuffer.wrote_pushAll_of_room room

theorem formatInt_canonical_forty_two :
    signedNumeral 10 42 = [0x34#8, 0x32#8] ∧
      TextBuffer.Wrote (.cleared maxFormatted fun _ => 0#8) [0x34#8, 0x32#8]
        (formatInt 42#64 (.cleared maxFormatted fun _ => 0#8)) := by
  have canonical : signedNumeral 10 42 = [0x34#8, 0x32#8] := by decide
  have wrote := (@formatInt_canonical_iff 42#64 (.cleared maxFormatted fun _ => 0#8)
    (by decide)).mpr (by decide)
  exact ⟨canonical, canonical ▸ wrote⟩

/-- The number -5 is written as a plus sign. -/
theorem formatInt_minus_five :
    signedNumeral 10 (-5) = [0x2d#8, 0x35#8] ∧
      TextBuffer.Wrote (.cleared maxFormatted fun _ => 0#8) [0x2b#8]
        (formatInt (-5#64) (.cleared maxFormatted fun _ => 0#8)) ∧
      ¬TextBuffer.Wrote (.cleared maxFormatted fun _ => 0#8) [0x2d#8, 0x35#8]
        (formatInt (-5#64) (.cleared maxFormatted fun _ => 0#8)) := by
  have digits : decimalText (-5#64).toInt = [0x2b#8] := by decide
  have wrote := @TextBuffer.wrote_pushAll_of_room maxFormatted (.cleared maxFormatted fun _ => 0#8)
    [0x2b#8] (by decide)
  rw [formatInt, formatDecimal_eq, digits]
  refine ⟨by decide, wrote, fun signed => ?_⟩
  have tooLong := signed.offset_eq.symm.trans wrote.offset_eq
  revert tooLong
  decide

end Signed

end MmdOS
