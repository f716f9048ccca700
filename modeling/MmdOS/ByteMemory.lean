import Mathlib.Data.Nat.Bitwise
import Mathlib.Tactic.Common

/-!
# Byte-addressed memory with little-endian words

A memory is a function from byte addresses to bytes.  Words of 64 bits are
read and written as eight consecutive bytes, least significant first, at any
alignment.  The lemmas are the usual read-over-write rules, for word writes
and for filling a range with one byte.
-/

namespace ByteMemory

variable {address position count : Nat}

abbrev Memory := Nat → BitVec 8

def readWord (memory : Memory) (address : Nat) : BitVec 64 :=
  BitVec.ofNat 64
    ((memory address).toNat + (memory (address + 1)).toNat * 2 ^ 8 +
      (memory (address + 2)).toNat * 2 ^ 16 + (memory (address + 3)).toNat * 2 ^ 24 +
      (memory (address + 4)).toNat * 2 ^ 32 + (memory (address + 5)).toNat * 2 ^ 40 +
      (memory (address + 6)).toNat * 2 ^ 48 + (memory (address + 7)).toNat * 2 ^ 56)

def writeWord (memory : Memory) (address : Nat) (word : BitVec 64) : Memory :=
  fun position =>
    if address ≤ position ∧ position < address + 8 then
      BitVec.ofNat 8 (word.toNat / 2 ^ (8 * (position - address)))
    else memory position

def fill (memory : Memory) (address count : Nat) (byte : BitVec 8) : Memory :=
  fun position =>
    if address ≤ position ∧ position < address + count then byte else memory position

theorem readWord_congr {first second : Memory}
    (agree : ∀ position, address ≤ position → position < address + 8 →
      first position = second position) :
    readWord first address = readWord second address := by
  simp only [readWord]
  rw [agree address (by omega) (by omega), agree (address + 1) (by omega) (by omega),
    agree (address + 2) (by omega) (by omega), agree (address + 3) (by omega) (by omega),
    agree (address + 4) (by omega) (by omega), agree (address + 5) (by omega) (by omega),
    agree (address + 6) (by omega) (by omega), agree (address + 7) (by omega) (by omega)]

variable {memory : Memory}

theorem writeWord_of_outside (outside : position < address ∨ address + 8 ≤ position)
    (word : BitVec 64) :
    writeWord memory address word position = memory position := by
  rw [writeWord, if_neg (by omega)]

theorem fill_of_outside (outside : position < address ∨ address + count ≤ position)
    (byte : BitVec 8) :
    fill memory address count byte position = memory position := by
  rw [fill, if_neg (by omega)]

private theorem writeWord_byte (memory : Memory) (address : Nat) (word : BitVec 64)
    (offset : Nat) (offsetLt : offset < 8) :
    (writeWord memory address word (address + offset)).toNat =
      word.toNat / 2 ^ (8 * offset) % 2 ^ 8 := by
  rw [writeWord, if_pos (by omega), BitVec.toNat_ofNat]
  congr 4
  omega

@[simp]
theorem readWord_writeWord_self (memory : Memory) (address : Nat) (word : BitVec 64) :
    readWord (writeWord memory address word) address = word := by
  have byte0 := writeWord_byte memory address word 0 (by omega)
  have byte1 := writeWord_byte memory address word 1 (by omega)
  have byte2 := writeWord_byte memory address word 2 (by omega)
  have byte3 := writeWord_byte memory address word 3 (by omega)
  have byte4 := writeWord_byte memory address word 4 (by omega)
  have byte5 := writeWord_byte memory address word 5 (by omega)
  have byte6 := writeWord_byte memory address word 6 (by omega)
  have byte7 := writeWord_byte memory address word 7 (by omega)
  have wordLt := word.isLt
  apply BitVec.eq_of_toNat_eq
  rw [readWord, BitVec.toNat_ofNat, byte1, byte2, byte3, byte4, byte5, byte6, byte7]
  rw [Nat.add_zero] at byte0
  rw [byte0]
  omega

theorem readWord_writeWord_of_disjoint {other : Nat}
    (disjoint : other + 8 ≤ address ∨ address + 8 ≤ other) (word : BitVec 64) :
    readWord (writeWord memory address word) other = readWord memory other := by
  apply readWord_congr
  intro position positionGe positionLt
  exact writeWord_of_outside (by omega) word

theorem readWord_fill_zero {other : Nat} (lower : address ≤ other)
    (upper : other + 8 ≤ address + count) :
    readWord (fill memory address count 0#8) other = 0#64 := by
  have zeros : readWord (fill memory address count 0#8) other =
      readWord (fun _ => 0#8) other := by
    apply readWord_congr
    intro position positionGe positionLt
    rw [fill, if_pos (by omega)]
  rw [zeros]
  simp [readWord]

end ByteMemory
