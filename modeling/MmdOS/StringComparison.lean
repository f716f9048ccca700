import MmdOS.CommonPrefix
import MmdOS.UstarLookup

/-!
# Bounded comparison

The loop of `kstrcmp` is followed character by character, with the positions that it
reads in the two strings.  The bound is tested for one behind the comparison, so a bound
of zero is passed at first and comes round again after `2 ^ 32` characters.
-/

namespace MmdOS

open CString

inductive StringRead
  | first (position : Nat)
  | second (position : Nat)
  deriving DecidableEq

section Loop

variable (str1 str2 : Stream)

/-- The loop of `kstrcmp` and the test behind it. -/
def kstrcmpRun : (fuel position : Nat) → (len : BitVec 32) → Option Bool
  | 0, _, _ => none
  | fuel + 1, position, len =>
      if str1 position ≠ 0#8 ∧ str2 position ≠ 0#8 then
        if str1 position ≠ str2 position then some false
        else if len = 1#32 then some true
        else kstrcmpRun fuel (position + 1) (len - 1#32)
      else if str1 position = 0#8 ∧ str2 position = 0#8 then some true
      else some false

/-- What the first rounds of the loop read.  The second operand of a conjunction is not
read when the first one is false. -/
def kstrcmpReads : (fuel position : Nat) → (len : BitVec 32) → List StringRead
  | 0, _, _ => []
  | fuel + 1, position, len =>
      .first position ::
        if str1 position ≠ 0#8 then
          .second position ::
            if str2 position ≠ 0#8 then
              .first position :: .second position ::
                if str1 position ≠ str2 position then []
                else if len = 1#32 then []
                else kstrcmpReads fuel (position + 1) (len - 1#32)
            else [.first position]
        else [.first position, .second position]

end Loop

def StringRead.Inside (string1 string2 : List Byte) : StringRead → Prop
  | .first position => position ≤ string1.length
  | .second position => position ≤ string2.length

/-- Two strings agree on their first characters; one that ends earlier ends at the same
position as the other. -/
def AgreeUpTo (len : Nat) (string1 string2 : List Byte) : Prop :=
  ∀ i < len, string1[i]? = string2[i]?

section Comparison

variable {str1 str2 : Stream} {string1 string2 : List Byte}
variable {len : BitVec 32} {fuel position : Nat}

theorem agreeUpTo_iff_take {len : Nat} :
    AgreeUpTo len string1 string2 ↔ string1.take len = string2.take len := by
  constructor
  · intro agree
    apply List.ext_getElem?
    intro i
    by_cases below : i < len
    · rw [List.getElem?_take_of_lt below, List.getElem?_take_of_lt below, agree i below]
    · simp [below]
  · intro same i below
    rw [← List.getElem?_take_of_lt below, same, List.getElem?_take_of_lt below]

theorem toNat_count (more : len ≠ 1#32) :
    (len - 1#32).toNat = (len - 1#32 - 1#32).toNat + 1 := by
  have nonzero : len - 1#32 ≠ 0#32 := fun isZero => more (BitVec.sub_eq_iff_eq_add.mp isZero)
  have positive := toNat_pos_of_ne_zero nonzero
  rw [toNat_sub_one positive]
  omega

theorem kstrcmpRun_eq (enough : (len - 1#32).toNat < fuel) :
    kstrcmpRun str1 str2 fuel position len =
      some (kstrcmp (advance position str1) (advance position str2) len) := by
  induction fuel generalizing position len with
  | zero => omega
  | succ fuel induction =>
      have here1 : advance position str1 0 = str1 position := by simp
      have here2 : advance position str2 0 = str2 position := by simp
      rw [kstrcmpRun, kstrcmp, kstrcmpLoop, here1, here2]
      by_cases both : str1 position ≠ 0#8 ∧ str2 position ≠ 0#8
      · rw [if_pos both, if_pos both]
        by_cases differ : str1 position ≠ str2 position
        · rw [if_pos differ, if_pos differ]
        · rw [if_neg differ, if_neg differ, advance_succ, advance_succ]
          by_cases last : len = 1#32
          · subst last
            rfl
          · have count := toNat_count last
            rw [if_neg last, induction (by omega), kstrcmp, ← count]
      · rw [if_neg both, if_neg both]
        by_cases ends : str1 position = 0#8 ∧ str2 position = 0#8
        · rw [if_pos ends, decide_eq_true ends]
        · rw [if_neg ends, decide_eq_false ends]

theorem lt_length_of_ne_zero {stream : Stream} {string : List Byte} (holds : Holds stream string)
    (inside : position ≤ string.length) (nonzero : stream position ≠ 0#8) :
    position < string.length := by
  apply Nat.lt_of_le_of_ne inside
  intro atEnd
  rw [atEnd] at nonzero
  exact nonzero holds.stops

/-- No round reads behind a terminator. -/
theorem inside_of_mem_kstrcmpReads (holds1 : Holds str1 string1) (holds2 : Holds str2 string2)
    (inside1 : position ≤ string1.length) (inside2 : position ≤ string2.length) :
    ∀ read ∈ kstrcmpReads str1 str2 fuel position len, read.Inside string1 string2 := by
  induction fuel generalizing position len with
  | zero =>
      intro read member
      cases member
  | succ fuel induction =>
      have first : (StringRead.first position).Inside string1 string2 := inside1
      have second : (StringRead.second position).Inside string1 string2 := inside2
      rw [kstrcmpReads, List.forall_mem_cons]
      refine ⟨first, ?_⟩
      by_cases more1 : str1 position ≠ 0#8
      · rw [if_pos more1, List.forall_mem_cons]
        refine ⟨second, ?_⟩
        by_cases more2 : str2 position ≠ 0#8
        · rw [if_pos more2, List.forall_mem_cons, List.forall_mem_cons]
          refine ⟨first, second, ?_⟩
          split
          · simp
          · split
            · simp
            · exact induction (lt_length_of_ne_zero holds1 inside1 more1)
                (lt_length_of_ne_zero holds2 inside2 more2)
        · rw [if_neg more2]
          simpa using first
      · rw [if_neg more1]
        simpa using ⟨first, second⟩

/-- `kstrcmp` is the comparison of `strncmp` for a positive bound, and compares whole
strings for a bound of zero.  It returns, and reads nothing behind the terminators. -/
theorem kstrcmp_compares (holds1 : Holds str1 string1) (holds2 : Holds str2 string2) :
    (∀ len : BitVec 32, 1 ≤ len.toNat →
      (kstrcmp str1 str2 len = true ↔ AgreeUpTo len.toNat string1 string2)) ∧
    (string1.length < 2 ^ 32 - 1 → string2.length < 2 ^ 32 - 1 →
      (kstrcmp str1 str2 0#32 = true ↔ string1 = string2)) ∧
    (∀ len, ∃ fuel, kstrcmpRun str1 str2 fuel 0 len = some (kstrcmp str1 str2 len)) ∧
    ∀ len fuel, ∀ read ∈ kstrcmpReads str1 str2 fuel 0 len, read.Inside string1 string2 := by
  refine ⟨?_, ?_, ?_, ?_⟩
  · intro len positive
    have same : len = BitVec.ofNat 32 len.toNat := by simp
    rw [same, kstrcmp_eq_true positive len.isLt, ← same, agreeUpTo_iff_take, holds1.text_eq,
      holds2.text_eq]
  · intro short1 short2
    rw [kstrcmp_zero holds1 holds2 (by omega) (by omega), decide_eq_true_iff]
  · intro len
    exact ⟨_, kstrcmpRun_eq (Nat.lt_succ_self _)⟩
  · intro len fuel
    exact inside_of_mem_kstrcmpReads holds1 holds2 (Nat.zero_le _) (Nat.zero_le _)

end Comparison

theorem kstrcmp_compares_ab_ac :
    kstrcmp (stringStream [0x61#8, 0x62#8]) (stringStream [0x61#8, 0x63#8]) 1#32 = true ∧
      kstrcmp (stringStream [0x61#8, 0x62#8]) (stringStream [0x61#8, 0x63#8]) 0#32 ≠ true := by
  obtain ⟨bounded, whole, -, -⟩ := kstrcmp_compares
    (holds_stringStream (show 0#8 ∉ [0x61#8, 0x62#8] by decide))
    (holds_stringStream (show 0#8 ∉ [0x61#8, 0x63#8] by decide))
  constructor
  · apply (bounded 1#32 (by decide)).mpr
    intro i below
    have first : i = 0 := Nat.lt_one_iff.mp below
    rw [first]
    rfl
  · rw [Ne, whole (by decide) (by decide)]
    decide

end MmdOS
