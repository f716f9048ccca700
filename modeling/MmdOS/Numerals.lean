import MmdOS.CString
import Mathlib.Data.Nat.Digits.Lemmas

/-!
# Numbers in positional notation

A numeral lists the digits of a number from the highest one on.  Digits above nine
are lower case letters.  Reading a numeral gives the number back.
-/

namespace Numeral

open CString

def digitChar (digit : Nat) : Byte :=
  if digit < 10 then BitVec.ofNat 8 (0x30 + digit) else BitVec.ofNat 8 (0x57 + digit)

def charDigit (char : Byte) : Option Nat :=
  if 0x30 ≤ char.toNat ∧ char.toNat ≤ 0x39 then some (char.toNat - 0x30)
  else if 0x61 ≤ char.toNat ∧ char.toNat ≤ 0x7a then some (char.toNat - 0x57)
  else none

example : digitChar 0 = 0x30#8 ∧ digitChar 15 = 0x66#8 := by decide

def parseFrom (base : Nat) : (value : Nat) → List Byte → Option Nat
  | value, [] => some value
  | value, char :: rest =>
      match charDigit char with
      | some digit => if digit < base then parseFrom base (value * base + digit) rest else none
      | none => none

def parse (base : Nat) (string : List Byte) : Option Nat :=
  if string = [] then none else parseFrom base 0 string

def numeral (base n : Nat) : List Byte :=
  if n = 0 then [digitChar 0] else ((Nat.digits base n).map digitChar).reverse

def signedNumeral (base : Nat) (n : Int) : List Byte :=
  if n < 0 then 0x2d#8 :: numeral base n.natAbs else numeral base n.natAbs

theorem charDigit_digitChar {digit : Nat} (digitLt : digit < 36) :
    charDigit (digitChar digit) = some digit := by
  unfold charDigit digitChar
  by_cases isNumber : digit < 10
  · have value : (BitVec.ofNat 8 (0x30 + digit)).toNat = 0x30 + digit :=
      Nat.mod_eq_of_lt (by omega)
    simp only [if_pos isNumber, value]
    rw [if_pos (by omega), Nat.add_sub_cancel_left]
  · have value : (BitVec.ofNat 8 (0x57 + digit)).toNat = 0x57 + digit :=
      Nat.mod_eq_of_lt (by omega)
    simp only [if_neg isNumber, value]
    rw [if_neg (by omega), if_pos (by omega), Nat.add_sub_cancel_left]

theorem digitChar_eq_zero {digit : Nat} (digitLt : digit < 36)
    (isZero : digitChar digit = digitChar 0) :
    digit = 0 := by
  have read := charDigit_digitChar digitLt
  rw [isZero, charDigit_digitChar (by decide)] at read
  exact (Option.some.inj read).symm

theorem parseFrom_append (base value : Nat) (first second : List Byte) :
    parseFrom base value (first ++ second) =
      (parseFrom base value first).bind fun value => parseFrom base value second := by
  induction first generalizing value with
  | nil => rfl
  | cons char first ih =>
      simp only [List.cons_append, parseFrom]
      cases charDigit char with
      | none => rfl
      | some digit =>
          dsimp only
          split
          · apply ih
          · rfl

theorem numeral_ne_nil (base n : Nat) : numeral base n ≠ [] := by
  unfold numeral
  split
  · simp
  · next nonzero => simpa [Nat.digits_ne_nil_iff_ne_zero] using nonzero

section Reading

variable {base : Nat} (baseLe : base ≤ 36)

include baseLe

theorem parseFrom_singleton {digit : Nat} (digitLt : digit < base) (value : Nat) :
    parseFrom base value [digitChar digit] = some (value * base + digit) := by
  simp [parseFrom, charDigit_digitChar (by omega : digit < 36), digitLt]

theorem parseFrom_reverse {digits : List Nat} (digitsLt : ∀ digit ∈ digits, digit < base) :
    parseFrom base 0 (digits.map digitChar).reverse = some (Nat.ofDigits base digits) := by
  induction digits with
  | nil => rfl
  | cons digit digits ih =>
      have later := ih fun other member => digitsLt other (List.mem_cons_of_mem _ member)
      have digitLt := digitsLt digit List.mem_cons_self
      rw [List.map_cons, List.reverse_cons, parseFrom_append, later, Option.bind_some,
        parseFrom_singleton baseLe digitLt, Nat.ofDigits_cons, Nat.mul_comm, Nat.add_comm]

variable (oneLt : 1 < base)

include oneLt

theorem parse_numeral (n : Nat) : parse base (numeral base n) = some n := by
  rw [parse, if_neg (numeral_ne_nil base n)]
  unfold numeral
  by_cases isZero : n = 0
  · rw [if_pos isZero, isZero]
    simpa using parseFrom_singleton baseLe (Nat.zero_lt_of_lt oneLt) 0
  · rw [if_neg isZero, parseFrom_reverse baseLe fun _ => Nat.digits_lt_base oneLt,
      Nat.ofDigits_digits]

/-- Only the numeral of zero starts with a zero. -/
theorem eq_zero_of_head?_numeral {n : Nat} (leading : (numeral base n).head? = some (digitChar 0)) :
    n = 0 := by
  by_contra nonzero
  have notNil : Nat.digits base n ≠ [] := Nat.digits_ne_nil_iff_ne_zero.mpr nonzero
  have highest := Nat.getLast_digit_ne_zero base nonzero
  rw [numeral, if_neg nonzero, List.head?_reverse, List.getLast?_map,
    List.getLast?_eq_some_getLast notNil, Option.map_some, Option.some.injEq] at leading
  have digitLt := Nat.digits_lt_base oneLt (List.getLast_mem notNil)
  exact highest (digitChar_eq_zero (by omega) leading)

end Reading

end Numeral
