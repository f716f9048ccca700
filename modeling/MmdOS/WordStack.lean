import MmdOS.ByteMemory

/-!
# Stacks of words in an address space that wraps around

Addresses have 64 bits, and the byte behind the last address is the first one.
A stack grows downwards: a push lowers its top by eight and stores a word there.
`Stacked` lists the words on a stack from the top on.
-/

namespace WordStack

open ByteMemory

variable {address position top : BitVec 64} {words : List (BitVec 64)}

abbrev RawMemory := BitVec 64 → BitVec 8

def view (space : RawMemory) (address : BitVec 64) : Memory :=
  fun offset => space (address + BitVec.ofNat 64 offset)

def loadWord (space : RawMemory) (address : BitVec 64) : BitVec 64 :=
  readWord (view space address) 0

def storeWord (space : RawMemory) (address word : BitVec 64) : RawMemory :=
  fun position => writeWord (view space address) 0 word (position - address).toNat

def slot (base : BitVec 64) (index : Nat) : BitVec 64 :=
  base + BitVec.ofNat 64 (8 * index)

@[simp]
theorem slot_zero (base : BitVec 64) : slot base 0 = base :=
  BitVec.add_zero base

theorem slot_slot (base : BitVec 64) (i j : Nat) : slot (slot base i) j = slot base (i + j) := by
  rw [slot, slot, slot, BitVec.add_assoc, ← BitVec.ofNat_add, Nat.mul_add]

theorem slot_sub_eight (top : BitVec 64) (index : Nat) :
    slot (top - 8#64) (index + 1) = slot top index := by
  have shifted : BitVec.ofNat 64 (8 * (index + 1)) = 8#64 + BitVec.ofNat 64 (8 * index) := by
    rw [Nat.mul_add, Nat.add_comm, BitVec.ofNat_add]
  rw [slot, slot, shifted, ← BitVec.add_assoc, BitVec.sub_add_cancel]

theorem view_storeWord (space : RawMemory) (address other word : BitVec 64) (offset : Nat) :
    view (storeWord space address word) other offset =
      writeWord (view space address) 0 word (other + BitVec.ofNat 64 offset - address).toNat :=
  rfl

theorem loadWord_storeWord_self (space : RawMemory) (address word : BitVec 64) :
    loadWord (storeWord space address word) address = word := by
  have same : loadWord (storeWord space address word) address =
      readWord (writeWord (view space address) 0 word) 0 := by
    apply readWord_congr
    intro position _ below
    have offset : (address + BitVec.ofNat 64 position - address).toNat = position := by
      rw [BitVec.add_comm, BitVec.add_sub_cancel, BitVec.toNat_ofNat]
      omega
    rw [view_storeWord, offset]
  rw [same, readWord_writeWord_self]

variable {space : RawMemory}

theorem storeWord_of_outside (outside : 8 ≤ (position - address).toNat) (word : BitVec 64) :
    storeWord space address word position = space position := by
  rw [storeWord, writeWord_of_outside (.inr outside), view, BitVec.ofNat_toNat,
    BitVec.setWidth_eq, BitVec.add_comm, BitVec.sub_add_cancel]

theorem loadWord_storeWord_of_apart {other : BitVec 64} (behind : 8 ≤ (other - address).toNat)
    (before : (other - address).toNat + 8 ≤ 2 ^ 64) (word : BitVec 64) :
    loadWord (storeWord space address word) other = loadWord space other := by
  apply readWord_congr
  intro position _ below
  apply storeWord_of_outside
  have offset : other + BitVec.ofNat 64 position - address =
      other - address + BitVec.ofNat 64 position := by
    rw [BitVec.sub_eq_add_neg, BitVec.sub_eq_add_neg, BitVec.add_assoc,
      BitVec.add_comm (BitVec.ofNat 64 position), ← BitVec.add_assoc]
  rw [offset, BitVec.toNat_add, BitVec.toNat_ofNat]
  omega

theorem loadWord_congr {first second : RawMemory}
    (agree : ∀ offset < 8, first (address + BitVec.ofNat 64 offset) =
      second (address + BitVec.ofNat 64 offset)) :
    loadWord first address = loadWord second address := by
  apply readWord_congr
  intro offset _ below
  exact agree offset (by omega)

theorem loadWord_update_of_outside (outside : 8 ≤ (position - address).toNat) (byte : BitVec 8) :
    loadWord (Function.update space position byte) address = loadWord space address := by
  apply readWord_congr
  intro offset _ below
  apply Function.update_of_ne
  rintro rfl
  rw [BitVec.add_comm, BitVec.add_sub_cancel, BitVec.toNat_ofNat] at outside
  omega

/-- Words at different indices behind one address do not overlap. -/
theorem loadWord_storeWord_slot {base : BitVec 64} {i j : Nat} (iLt : i < 2 ^ 61)
    (jLt : j < 2 ^ 61) (space : RawMemory) (word : BitVec 64) :
    loadWord (storeWord space (slot base i) word) (slot base j) =
      if j = i then word else loadWord space (slot base j) := by
  by_cases same : j = i
  · rw [if_pos same, same, loadWord_storeWord_self]
  · rw [if_neg same]
    have distance : (slot base j - slot base i).toNat = (2 ^ 64 - 8 * i + 8 * j) % 2 ^ 64 := by
      have := base.isLt
      rw [BitVec.toNat_sub, slot, slot, BitVec.toNat_add, BitVec.toNat_add, BitVec.toNat_ofNat,
        BitVec.toNat_ofNat]
      omega
    apply loadWord_storeWord_of_apart
    · rw [distance]
      omega
    · rw [distance]
      omega

def Stacked (space : RawMemory) (top : BitVec 64) (words : List (BitVec 64)) : Prop :=
  ∀ index word, words[index]? = some word → loadWord space (slot top index) = word

def pushAll : List (BitVec 64) → RawMemory → BitVec 64 → RawMemory × BitVec 64
  | [], space, top => (space, top)
  | word :: rest, space, top => pushAll rest (storeWord space (top - 8#64) word) (top - 8#64)

theorem pushAll_append (first second : List (BitVec 64)) (space : RawMemory) (top : BitVec 64) :
    pushAll (first ++ second) space top =
      pushAll second (pushAll first space top).1 (pushAll first space top).2 := by
  induction first generalizing space top with
  | nil => rfl
  | cons word rest ih => exact ih _ _

theorem pushAll_top (words : List (BitVec 64)) (space : RawMemory) (top : BitVec 64) :
    (pushAll words space top).2 = top - BitVec.ofNat 64 (8 * words.length) := by
  induction words generalizing space top with
  | nil => exact (BitVec.sub_zero top).symm
  | cons word rest ih =>
      rw [pushAll, ih, List.length_cons, Nat.mul_add, BitVec.ofNat_add]
      bv_omega

theorem pushAll_of_outside
    (outside : 8 * words.length ≤ (position - (pushAll words space top).2).toNat) :
    (pushAll words space top).1 position = space position := by
  induction words generalizing space top with
  | nil => rfl
  | cons word rest ih =>
      rw [pushAll] at outside ⊢
      rw [List.length_cons] at outside
      rw [ih (by omega)]
      apply storeWord_of_outside
      rw [pushAll_top] at outside
      have distance : position - (top - 8#64) =
          position - (top - 8#64 - BitVec.ofNat 64 (8 * rest.length)) -
            BitVec.ofNat 64 (8 * rest.length) := by
        bv_omega
      have lengthLt := (position - (top - 8#64 - BitVec.ofNat 64 (8 * rest.length))).isLt
      rw [distance, BitVec.toNat_sub, BitVec.toNat_ofNat]
      omega

theorem Stacked.nil (space : RawMemory) (top : BitVec 64) : Stacked space top [] := by
  intro index word found
  simp at found

theorem Stacked.push (stacked : Stacked space top words) (fits : words.length + 1 < 2 ^ 61)
    (word : BitVec 64) :
    Stacked (storeWord space (top - 8#64) word) (top - 8#64) (word :: words) := by
  intro index found foundEq
  cases index with
  | zero =>
      rw [List.getElem?_cons_zero, Option.some.injEq] at foundEq
      rw [slot_zero, loadWord_storeWord_self, foundEq]
  | succ index =>
      rw [List.getElem?_cons_succ] at foundEq
      have below : index < words.length := (List.getElem?_eq_some_iff.mp foundEq).1
      have kept := @loadWord_storeWord_slot (top - 8#64) 0 (index + 1) (by omega) (by omega)
        space word
      rw [slot_zero, if_neg (Nat.succ_ne_zero index), slot_sub_eight] at kept
      rw [slot_sub_eight, kept]
      exact stacked index found foundEq

theorem Stacked.pushAll (stacked : Stacked space top words) (new : List (BitVec 64))
    (fits : new.length + words.length < 2 ^ 61) :
    Stacked (pushAll new space top).1 (pushAll new space top).2 (new.reverse ++ words) := by
  induction new generalizing space top words with
  | nil => exact stacked
  | cons word rest ih =>
      rw [List.length_cons] at fits
      have pushed := ih (stacked.push (by omega) word) (by rw [List.length_cons]; omega)
      rw [List.reverse_cons, List.append_assoc]
      exact pushed

end WordStack
