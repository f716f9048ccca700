import Mathlib.Data.Nat.Digits.Lemmas
import MmdOS.KernelStrings

/-!
# Octal fields

The decoder of octal fields is followed with exact numbers: a step whose result does
not fit into its type has none.  Where this succeeds, the decoder of the kernel has the
same result, because nothing has wrapped.
-/

namespace MmdOS

open CString

variable {number : Stream} {result fuel : Nat} {size : BitVec 16} {digits : List Nat}

def fits (limit number : Nat) : Option Nat :=
  if number < limit then some number else none

/-- The loop of `kpow`; the product is an `int64_t`. -/
def kpowRun (x : Nat) : (fuel : Nat) → (y : BitVec 16) → (result : Nat) → Option Nat
  | 0, _, _ => none
  | fuel + 1, y, result =>
      if y ≠ 0#16 then (fits (2 ^ 63) (result * x)).bind (kpowRun x fuel (y - 1#16))
      else some result

/-- One digit of `oct_ascii_to_dec` is added; the product and the sum are of the type
`uint64_t`. -/
def octAdd (fuel : Nat) (char : Byte) (size : BitVec 16) (result : Nat) : Option Nat :=
  (kpowRun 8 fuel size 1).bind fun power =>
    (fits (2 ^ 64) ((octDigit char).toNat * power)).bind fun product =>
      fits (2 ^ 64) (result + product)

/-- The `do` loop of `oct_ascii_to_dec`, and the digit behind it. -/
def octRun (number : Stream) : (fuel : Nat) → (size : BitVec 16) → (position result : Nat) →
    Option Nat
  | 0, _, _, _ => none
  | fuel + 1, size, position, result =>
      (octAdd fuel (number position) size result).bind fun result =>
        if size - 1#16 ≠ 0#16 then octRun number fuel (size - 1#16) (position + 1) result
        else octAdd fuel (number (position + 1)) (size - 1#16) result

/-- `oct_ascii_to_dec` with exact numbers. -/
def octAsciiToDecRun (fuel : Nat) (number : Stream) (size : BitVec 16) : Option Nat :=
  octRun number fuel (size - 3#16) 1 0

section Refinement

theorem fits_eq_some {limit number : Nat} :
    fits limit number = some result ↔ number < limit ∧ number = result := by
  unfold fits
  split
  · next small => simp [small]
  · next large => simp [large]

theorem fits_of_lt {limit number : Nat} (small : number < limit) :
    fits limit number = some number :=
  if_pos small

theorem kpow_of_kpowRun {x power : Nat} {y : BitVec 16} (ran : kpowRun x fuel y result = some power) :
    BitVec.ofNat 64 power = BitVec.ofNat 64 result * kpow (BitVec.ofNat 64 x) y.toNat := by
  induction fuel generalizing y result with
  | zero => cases ran
  | succ fuel induction =>
      rw [kpowRun] at ran
      split at ran
      · next more =>
        obtain ⟨product, fitting, ran⟩ := Option.bind_eq_some_iff.mp ran
        obtain ⟨-, rfl⟩ := fits_eq_some.mp fitting
        have positive := toNat_pos_of_ne_zero more
        have step : y.toNat = y.toNat - 1 + 1 := by omega
        rw [induction ran, toNat_sub_one positive, step, kpow, Nat.add_sub_cancel, BitVec.ofNat_mul,
          BitVec.mul_assoc, BitVec.mul_comm (BitVec.ofNat 64 x)]
      · next stops =>
        rw [not_not.mp stops, ← Option.some.inj ran]
        exact (BitVec.mul_one _).symm

theorem add_of_octAdd {sum : Nat} {char : Byte} (ran : octAdd fuel char size result = some sum) :
    BitVec.ofNat 64 sum =
      BitVec.ofNat 64 result + octDigit char * kpow 8#64 size.toNat := by
  obtain ⟨power, powerEq, ran⟩ := Option.bind_eq_some_iff.mp ran
  obtain ⟨product, productFits, ran⟩ := Option.bind_eq_some_iff.mp ran
  obtain ⟨-, rfl⟩ := fits_eq_some.mp productFits
  obtain ⟨-, rfl⟩ := fits_eq_some.mp ran
  have powerIs := kpow_of_kpowRun powerEq
  rw [BitVec.one_mul] at powerIs
  rw [BitVec.ofNat_add, BitVec.ofNat_mul, BitVec.ofNat_toNat, BitVec.setWidth_eq, powerIs]

def octRounds (size : BitVec 16) : Nat :=
  if size = 0#16 then 2 ^ 16 else size.toNat

theorem octRounds_succ (size : BitVec 16) :
    ∃ left, octRounds size = left + 1 ∧ (left + 1) % 2 ^ 16 = size.toNat ∧
      (size - 1#16 ≠ 0#16 → octRounds (size - 1#16) = left) ∧
      (size - 1#16 = 0#16 → left = 0) := by
  have sizeLt := size.isLt
  by_cases isZero : size = 0#16
  · subst isZero
    refine ⟨2 ^ 16 - 1, by decide, by decide, fun _ => by decide, ?_⟩
    intro impossible
    cases impossible
  · have positive := toNat_pos_of_ne_zero isZero
    have before := toNat_sub_one positive
    refine ⟨size.toNat - 1, ?_, by omega, fun more => ?_, fun last => ?_⟩
    · rw [octRounds, if_neg isZero]
      omega
    · rw [octRounds, if_neg more, before]
    · rw [last] at before
      exact before.symm

theorem octLoop_of_octRun {position final : Nat}
    (ran : octRun number fuel size position result = some final) :
    octLoop number (octRounds size) position (BitVec.ofNat 64 result) = BitVec.ofNat 64 final := by
  induction fuel generalizing size position result with
  | zero => cases ran
  | succ fuel induction =>
      obtain ⟨sum, added, ran⟩ := Option.bind_eq_some_iff.mp ran
      obtain ⟨left, rounds, exponent, next, last⟩ := octRounds_succ size
      rw [rounds, octLoop, exponent, ← add_of_octAdd added]
      split at ran
      · next more =>
        rw [← next more]
        exact induction ran
      · next stops =>
        have isLast := not_not.mp stops
        rw [isLast] at ran
        rw [last isLast, octLoop, add_of_octAdd ran]
        rfl

theorem octAsciiToDec_of_run {final : Nat} (ran : octAsciiToDecRun fuel number size = some final) :
    octAsciiToDec number size = BitVec.ofNat 64 final := by
  unfold octAsciiToDec
  exact octLoop_of_octRun ran

end Refinement

def octalValue (digits : List Nat) : Nat :=
  Nat.ofDigits 8 digits.reverse

/-- A field of a given size: the character `0`, octal digits and a zero byte. -/
structure OctalField (size : Nat) (digits : List Nat) (number : Stream) : Prop where
  length : digits.length + 2 = size
  octal : ∀ digit ∈ digits, digit < 8
  first : number 0 = 0x30#8
  chars : ∀ i digit, digits[i]? = some digit → number (1 + i) = octalChar digit
  ends : number (size - 1) = 0#8

section Values

theorem octalValue_cons (digit : Nat) (digits : List Nat) :
    octalValue (digit :: digits) = octalValue digits + digit * 8 ^ digits.length := by
  rw [octalValue, List.reverse_cons, Nat.ofDigits_append, List.length_reverse,
    Nat.ofDigits_singleton, Nat.mul_comm]
  rfl

theorem octalValue_lt (octal : ∀ digit ∈ digits, digit < 8) :
    octalValue digits < 8 ^ digits.length := by
  rw [← List.length_reverse]
  apply Nat.ofDigits_lt_base_pow_length (by decide)
  intro digit member
  exact octal digit (List.mem_reverse.mp member)

end Values

section Decoding

theorem kpowRun_eight {y : BitVec 16} (enough : y.toNat < fuel)
    (small : result * 8 ^ y.toNat < 2 ^ 63) :
    kpowRun 8 fuel y result = some (result * 8 ^ y.toNat) := by
  induction fuel generalizing y result with
  | zero => omega
  | succ fuel induction =>
      rw [kpowRun]
      by_cases isZero : y = 0#16
      · rw [if_neg (not_not.mpr isZero), isZero]
        simp
      · have positive := toNat_pos_of_ne_zero isZero
        have before := toNat_sub_one positive
        have power : result * 8 * 8 ^ (y - 1#16).toNat = result * 8 ^ y.toNat := by
          rw [before, Nat.mul_assoc, ← Nat.pow_succ', Nat.succ_eq_add_one,
            Nat.sub_add_cancel positive]
        have product : result * 8 < 2 ^ 63 := by
          apply Nat.lt_of_le_of_lt _ small
          rw [← power]
          exact Nat.le_mul_of_pos_right _ (by positivity)
        rw [if_pos isZero, fits_of_lt product, Option.bind_some, induction (by omega) (by omega),
          power]

theorem octAdd_eq {digit : Nat} (enough : size.toNat < fuel) (octal : digit < 8)
    (sizeLe : size.toNat ≤ 20) (small : result + digit * 8 ^ size.toNat < 2 ^ 64) :
    octAdd fuel (octalChar digit) size result = some (result + digit * 8 ^ size.toNat) := by
  have powerLe : 8 ^ size.toNat ≤ 8 ^ 20 := Nat.pow_le_pow_right (by decide) sizeLe
  have digitEq : (octDigit (octalChar digit)).toNat = digit := by
    rw [octDigit_octalChar octal, BitVec.toNat_ofNat]
    omega
  rw [octAdd, kpowRun_eight enough (by omega), Option.bind_some, digitEq, Nat.one_mul,
    fits_of_lt (by omega), Option.bind_some, fits_of_lt small]

theorem octRun_digits {position digit : Nat} {rest : List Nat}
    (octal : ∀ other ∈ digit :: rest, other < 8)
    (chars : ∀ i other, (digit :: rest)[i]? = some other → number (position + i) = octalChar other)
    (nonempty : rest ≠ []) (short : rest.length ≤ 20) (enough : rest.length + 1 < fuel)
    (small : result + octalValue (digit :: rest) < 2 ^ 64) :
    octRun number fuel (BitVec.ofNat 16 rest.length) position result =
      some (result + octalValue (digit :: rest)) := by
  induction rest generalizing digit position result fuel with
  | nil => exact absurd rfl nonempty
  | cons next rest induction =>
      obtain ⟨fuel, rfl⟩ : ∃ left, fuel = left + 1 := ⟨fuel - 1, by omega⟩
      rw [List.length_cons] at short enough ⊢
      have size : (BitVec.ofNat 16 (rest.length + 1)).toNat = rest.length + 1 := by
        rw [BitVec.toNat_ofNat]
        omega
      have lower : BitVec.ofNat 16 (rest.length + 1) - 1#16 = BitVec.ofNat 16 rest.length := by
        rw [BitVec.ofNat_add]
        exact BitVec.add_sub_cancel _ _
      have first : number position = octalChar digit := chars 0 digit rfl
      rw [octalValue_cons, List.length_cons] at small ⊢
      rw [octRun, first, octAdd_eq (by omega) (octal digit List.mem_cons_self) (by omega)
        (by rw [size]; omega), Option.bind_some, size, lower]
      have octalRest : ∀ other ∈ next :: rest, other < 8 := fun other member =>
        octal other (List.mem_cons_of_mem _ member)
      have sum : result + digit * 8 ^ (rest.length + 1) + octalValue (next :: rest) =
          result + (octalValue (next :: rest) + digit * 8 ^ (rest.length + 1)) := by
        omega
      by_cases last : rest = []
      · -- The digit behind the loop has the exponent zero.
        subst last
        have second : number (position + 1) = octalChar next := chars 1 next rfl
        have value : octalValue [next] = next := by
          simp [octalValue]
        have zero : (BitVec.ofNat 16 ([] : List Nat).length).toNat = 0 := rfl
        rw [value] at sum small ⊢
        rw [if_neg (by simp), second, octAdd_eq (by rw [zero]; omega)
          (octalRest next List.mem_cons_self) (by rw [zero]; omega)
          (by rw [zero, Nat.pow_zero]; omega), zero, Nat.pow_zero, Nat.mul_one, sum]
      · have positive := List.length_pos_of_ne_nil last
        have more : BitVec.ofNat 16 rest.length ≠ 0#16 := by
          intro zero
          have := congrArg BitVec.toNat zero
          rw [BitVec.toNat_ofNat, BitVec.toNat_ofNat] at this
          omega
        rw [if_pos more, induction octalRest _ last (by omega) (by omega) (by omega), sum]
        intro i other here
        rw [← chars (i + 1) other here]
        exact congrArg number (by omega)

/-- A field of up to 23 bytes has a value that fits into a signed number of 64 bits. -/
theorem OctalField.value_lt {size : Nat} (field : OctalField size digits number) (upper : size ≤ 23) :
    octalValue digits < 2 ^ 63 := by
  have length := field.length
  calc octalValue digits < 8 ^ digits.length := octalValue_lt field.octal
    _ ≤ 8 ^ 21 := Nat.pow_le_pow_right (by decide) (by omega)
    _ = 2 ^ 63 := by decide

theorem OctalField.run {size : Nat} (field : OctalField size digits number) (lower : 4 ≤ size)
    (upper : size ≤ 23) :
    octAsciiToDecRun size number (BitVec.ofNat 16 size) = some (octalValue digits) := by
  have length := field.length
  have valueLt := field.value_lt upper
  cases digits with
  | nil =>
      rw [List.length_nil] at length
      omega
  | cons digit rest =>
      rw [List.length_cons] at length
      have exponent : BitVec.ofNat 16 size - 3#16 = BitVec.ofNat 16 rest.length := by
        apply BitVec.eq_of_toNat_eq
        rw [BitVec.toNat_sub, BitVec.toNat_ofNat, BitVec.toNat_ofNat, BitVec.toNat_ofNat]
        omega
      have nonempty : rest ≠ [] := by
        intro isNil
        rw [isNil, List.length_nil] at length
        omega
      rw [octAsciiToDecRun, exponent, octRun_digits field.octal field.chars nonempty (by omega)
        (by omega) (by omega), Nat.zero_add]

end Decoding

section Headers

def headerDigits (value : Nat) : List Nat :=
  (List.range 10).map fun i => value / 8 ^ (9 - i) % 8

theorem octalField_headerDigits {value : Nat} (valueLt : value < 8 ^ 10)
    (encoded : ∀ i < 12, (octalField value)[i]? = some (number i)) :
    OctalField 12 (headerDigits value) number where
  length := by simp [headerDigits]
  octal := by
    intro digit member
    obtain ⟨i, -, rfl⟩ := List.mem_map.mp member
    exact Nat.mod_lt _ (by decide)
  first := by
    rw [octalField_char encoded (by decide), Nat.sub_zero, Nat.div_eq_of_lt valueLt]
    rfl
  chars := by
    intro i digit here
    have below : i < 10 := by
      have inside := (List.getElem?_eq_some_iff.mp here).1
      simpa [headerDigits] using inside
    have exponent : 10 - (1 + i) = 9 - i := by omega
    rw [headerDigits, List.getElem?_map, List.getElem?_range below, Option.map_some,
      Option.some.injEq] at here
    rw [octalField_char encoded (by omega), exponent, here]
  ends := by
    have entry := encoded 11 (by decide)
    rw [octalField, List.getElem?_append_right (by simp)] at entry
    simpa using entry.symm

theorem octalValue_headerDigits {value : Nat} (valueLt : value < 8 ^ 10) :
    octalValue (headerDigits value) = value := by
  -- Both decoders read the encoding of the value, and neither of them overflows.
  have encoded : ∀ i < 12, (octalField value)[i]? =
      some ((octalField value)[i]?.getD 0#8) := by
    intro i below
    have inside : i < (octalField value).length := by
      simpa [octalField] using below
    rw [List.getElem?_eq_getElem inside, Option.getD_some]
  have field := octalField_headerDigits valueLt encoded
  have decoded := octAsciiToDec_of_run (field.run (by decide) (by decide))
  rw [octAsciiToDec_octalField valueLt encoded] at decoded
  have digitsLt := field.value_lt (by decide)
  have same := congrArg BitVec.toNat decoded
  rw [BitVec.toNat_ofNat, BitVec.toNat_ofNat] at same
  rw [Nat.mod_eq_of_lt (by omega), Nat.mod_eq_of_lt (by omega)] at same
  exact same.symm

end Headers

/-- The call ends with a value; no product and no sum on the way exceeds its type. -/
def DecodesTo (number : Stream) (size value : Nat) : Prop :=
  (∃ fuel, octAsciiToDecRun fuel number (BitVec.ofNat 16 size) = some value) ∧
    (octAsciiToDec number (BitVec.ofNat 16 size)).toNat = value

theorem OctalField.decodesTo {size : Nat} (field : OctalField size digits number) (lower : 4 ≤ size)
    (upper : size ≤ 23) :
    DecodesTo number size (octalValue digits) := by
  have ran := field.run lower upper
  have valueLt := field.value_lt upper
  refine ⟨⟨size, ran⟩, ?_⟩
  rw [octAsciiToDec_of_run ran, BitVec.toNat_ofNat, Nat.mod_eq_of_lt (by omega)]

/-- `oct_ascii_to_dec` decodes the fields of all sizes up to 23, and inverts the encoding
of file sizes. -/
theorem octal_fields_decode :
    (∀ size digits number, 4 ≤ size → size ≤ 23 → OctalField size digits number →
      DecodesTo number size (octalValue digits)) ∧
    ∀ value number, value < 8 ^ 10 → (∀ i < 12, (octalField value)[i]? = some (number i)) →
      DecodesTo number 12 value := by
  constructor
  · intro size digits number lower upper field
    exact field.decodesTo lower upper
  · intro value number valueLt encoded
    have decodes := (octalField_headerDigits valueLt encoded).decodesTo (by decide) (by decide)
    rwa [octalValue_headerDigits valueLt] at decodes

theorem octal_fields_decode_two :
    DecodesTo (fun i => [0x30#8, 0x31#8, 0x37#8, 0x37#8, 0#8][i]?.getD 0#8) 5 127 ∧
      DecodesTo (fun i => (octalField 10)[i]?.getD 0#8) 12 10 := by
  constructor
  · refine octal_fields_decode.1 5 [1, 7, 7] _ (by decide) (by decide)
      ⟨rfl, by decide, rfl, ?_, rfl⟩
    intro i digit here
    have below : i < 3 := (List.getElem?_eq_some_iff.mp here).1
    interval_cases i <;> cases here <;> rfl
  · refine octal_fields_decode.2 10 _ (by decide) ?_
    intro i below
    interval_cases i <;> rfl

end MmdOS
