import MmdOS.MachineWord
import MmdOS.CString
import Mathlib.Algebra.Group.Basic
import Mathlib.Tactic.IntervalCases

/-!
# String and number helpers

The functions of `util.c` that work on characters: bounded copy, bounded
comparison, and the decoding of the octal size field of an archive header.
-/

namespace MmdOS

open CString

/-- `kstrcpy` to the position `start` of an array; the bound counts down. -/
def kstrcpy (dest : Stream) (start : Nat) (src : Stream) : (size : Nat) → Stream
  | 0 => dest
  | size + 1 =>
      let dest := Function.update dest start (src 0)
      if src 0 = 0#8 then dest else kstrcpy dest (start + 1) (advance 1 src) size

/-- The loop of `kstrcmp` with `count` characters left to compare.  The loop
returns early when the last of them is equal too. -/
def kstrcmpLoop (str1 str2 : Stream) : (count : Nat) → Bool
  | 0 => true
  | count + 1 =>
      if str1 0 ≠ 0#8 ∧ str2 0 ≠ 0#8 then
        if str1 0 ≠ str2 0 then false
        else kstrcmpLoop (advance 1 str1) (advance 1 str2) count
      else decide (str1 0 = 0#8 ∧ str2 0 = 0#8)

/-- `kstrcmp`.  The bound is a `uint32_t` that is compared with one before it
is decremented, so that zero stands for `2 ^ 32` characters. -/
def kstrcmp (str1 str2 : Stream) (len : BitVec 32) : Bool :=
  kstrcmpLoop str1 str2 ((len - 1#32).toNat + 1)

def kpow (x : Word) : (y : Nat) → Word
  | 0 => 1#64
  | y + 1 => kpow x y * x

/-- `(uint64_t) (*number - '0')`, where `char` is signed. -/
def octDigit (char : Byte) : Word :=
  char.signExtend 64 - 48#64

/-- The rounds of `oct_ascii_to_dec` that are left, with the position of the
next character.  The exponent of the last round is zero. -/
def octLoop (number : Stream) : (size : Nat) → (position : Nat) → Word → Word
  | 0, position, result => result + octDigit (number position) * kpow 8#64 0
  | size + 1, position, result =>
      octLoop number size (position + 1)
        (result + octDigit (number position) * kpow 8#64 ((size + 1) % 2 ^ 16))

/-- `oct_ascii_to_dec`.  Its `do` loop tests a `uint16_t` after decrementing
it, and therefore makes `2 ^ 16` rounds when it starts at zero. -/
@[irreducible]
def octAsciiToDec (number : Stream) (size : BitVec 16) : Word :=
  let rounds := if size - 3#16 = 0#16 then 2 ^ 16 else (size - 3#16).toNat
  octLoop number rounds 1 0#64

theorem kstrcpy_apply (dest : Stream) (start : Nat) (src : Stream) (size i : Nat) :
    kstrcpy dest start src size i =
      if start ≤ i ∧ i < start + size ∧ i ≤ start + (text size src).length then src (i - start)
      else dest i := by
  induction size generalizing dest start src with
  | zero => rw [kstrcpy, if_neg (by omega)]
  | succ size ih =>
      by_cases ends : src 0 = 0#8
      · rw [kstrcpy, if_pos ends, text_succ_of_zero ends, List.length_nil]
        by_cases here : i = start
        · rw [here, Function.update_self, if_pos (by omega), Nat.sub_self]
        · rw [Function.update_of_ne here, if_neg (by omega)]
      · rw [kstrcpy, if_neg ends, ih, text_succ_of_ne ends, List.length_cons]
        by_cases here : i = start
        · rw [here, if_neg (by omega), Function.update_self, if_pos (by omega), Nat.sub_self]
        · rw [Function.update_of_ne here]
          by_cases inside : start + 1 ≤ i ∧ i < start + 1 + size ∧
              i ≤ start + 1 + (text size (advance 1 src)).length
          · rw [if_pos inside, if_pos (by omega), advance_apply]
            congr 1
            omega
          · rw [if_neg inside, if_neg (by omega)]

/-- `kstrcmp` compares the strings cut off after `count` characters. -/
theorem kstrcmpLoop_eq (str1 str2 : Stream) (count : Nat) :
    kstrcmpLoop str1 str2 count = decide (text count str1 = text count str2) := by
  induction count generalizing str1 str2 with
  | zero => rfl
  | succ count ih =>
      rw [kstrcmpLoop]
      by_cases ends1 : str1 0 = 0#8
      · rw [if_neg (fun both => both.1 ends1), text_succ_of_zero ends1]
        by_cases ends2 : str2 0 = 0#8
        · rw [text_succ_of_zero ends2, decide_eq_true ⟨ends1, ends2⟩, decide_eq_true rfl]
        · rw [text_succ_of_ne ends2, decide_eq_false (fun both => ends2 both.2)]
          rfl
      · by_cases ends2 : str2 0 = 0#8
        · rw [if_neg (fun both => both.2 ends2), text_succ_of_zero ends2, text_succ_of_ne ends1,
            decide_eq_false (fun both => ends1 both.1)]
          rfl
        · rw [if_pos ⟨ends1, ends2⟩, text_succ_of_ne ends1, text_succ_of_ne ends2]
          by_cases same : str1 0 = str2 0
          · rw [if_neg (fun differ => differ same), ih, same]
            simp
          · rw [if_pos same]
            simp [same]

/-- With a positive bound below `2 ^ 32`, the bound is the number of characters
compared. -/
theorem kstrcmp_eq_true {str1 str2 : Stream} {len : Nat} (positive : 1 ≤ len)
    (bounded : len < 2 ^ 32) :
    kstrcmp str1 str2 (BitVec.ofNat 32 len) = true ↔ text len str1 = text len str2 := by
  have countEq : (BitVec.ofNat 32 len - 1#32).toNat + 1 = len := by
    rw [BitVec.toNat_sub, BitVec.toNat_ofNat, BitVec.toNat_ofNat]
    omega
  rw [kstrcmp, countEq, kstrcmpLoop_eq, decide_eq_true_iff]

theorem kstrcmp_zero {first second : Stream} {firstString secondString : List Byte}
    (firstHolds : Holds first firstString) (secondHolds : Holds second secondString)
    (firstShort : firstString.length < 2 ^ 32) (secondShort : secondString.length < 2 ^ 32) :
    kstrcmp first second 0#32 = decide (firstString = secondString) := by
  have count : (0#32 - 1#32).toNat + 1 = 2 ^ 32 := rfl
  rw [kstrcmp, count, kstrcmpLoop_eq, firstHolds.text_eq, secondHolds.text_eq,
    List.take_of_length_le (Nat.le_of_lt firstShort),
    List.take_of_length_le (Nat.le_of_lt secondShort)]

theorem kpow_eight (y : Nat) : kpow 8#64 y = BitVec.ofNat 64 (8 ^ y) := by
  induction y with
  | zero => rfl
  | succ y ih => rw [kpow, ih, ← BitVec.ofNat_mul, pow_succ]

def octalChar (digit : Nat) : Byte :=
  BitVec.ofNat 8 (48 + digit)

theorem octDigit_octalChar {digit : Nat} (isOctal : digit < 8) :
    octDigit (octalChar digit) = BitVec.ofNat 64 digit := by
  interval_cases digit <;> decide

theorem octLoop_digits {number : Stream} {value size position : Nat} (sizeLt : size < 2 ^ 16)
    (digits : ∀ k ≤ size, number (position + k) = octalChar (value / 8 ^ (size - k) % 8))
    (result : Word) :
    octLoop number size position result =
      result + BitVec.ofNat 64 (value % 8 ^ (size + 1)) := by
  induction size generalizing position result with
  | zero =>
      have last := digits 0 le_rfl
      rw [Nat.add_zero, Nat.sub_zero, pow_zero, Nat.div_one] at last
      rw [octLoop, last, octDigit_octalChar (Nat.mod_lt _ (by omega)), kpow, BitVec.mul_one,
        pow_one]
  | succ size ih =>
      have first := digits 0 (Nat.zero_le _)
      rw [Nat.add_zero, Nat.sub_zero] at first
      have rest : ∀ k ≤ size,
          number (position + 1 + k) = octalChar (value / 8 ^ (size - k) % 8) := by
        intro k kLe
        have next := digits (k + 1) (Nat.succ_le_succ kLe)
        rwa [Nat.add_sub_add_right, Nat.add_comm k, ← Nat.add_assoc] at next
      have split : value % 8 ^ (size + 1 + 1) =
          value / 8 ^ (size + 1) % 8 * 8 ^ (size + 1) + value % 8 ^ (size + 1) := by
        rw [pow_succ 8 (size + 1), Nat.mod_mul, Nat.add_comm, Nat.mul_comm (8 ^ (size + 1))]
      rw [octLoop, first, octDigit_octalChar (Nat.mod_lt _ (by omega)), Nat.mod_eq_of_lt sizeLt,
        kpow_eight, ih (by omega) rest, split, ← BitVec.ofNat_mul, BitVec.ofNat_add,
        BitVec.add_assoc]

def octalField (value : Nat) : List Byte :=
  (List.range 11).map (fun i => octalChar (value / 8 ^ (10 - i) % 8)) ++ [0#8]

theorem octalField_char {number : Stream} {value i : Nat}
    (encoded : ∀ i < 12, (octalField value)[i]? = some (number i)) (below : i < 11) :
    number i = octalChar (value / 8 ^ (10 - i) % 8) := by
  have entry := encoded i (by omega)
  rw [octalField, List.getElem?_append_left (by simp; omega), List.getElem?_map,
    List.getElem?_range below, Option.map_some, Option.some.injEq] at entry
  exact entry.symm

/-- The decoder inverts the zero-padded octal encoding; it skips the first
digit, which is zero for every number below `8 ^ 10`. -/
theorem octAsciiToDec_octalField {number : Stream} {value : Nat} (valueLt : value < 8 ^ 10)
    (encoded : ∀ i < 12, (octalField value)[i]? = some (number i)) :
    octAsciiToDec number 12#16 = BitVec.ofNat 64 value := by
  have digits : ∀ k ≤ 9, number (1 + k) = octalChar (value / 8 ^ (9 - k) % 8) := by
    intro k kLe
    have exponent : 10 - (1 + k) = 9 - k := by omega
    rw [octalField_char encoded (by omega), exponent]
  have rounds : octAsciiToDec number 12#16 = octLoop number 9 1 0#64 := by
    unfold octAsciiToDec
    rfl
  rw [rounds, octLoop_digits (by omega) digits, BitVec.zero_add, Nat.mod_eq_of_lt valueLt]

end MmdOS
