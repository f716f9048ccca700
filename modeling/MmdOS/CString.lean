import Mathlib.Data.List.Basic
import Mathlib.Tactic.Common

/-!
# Bytes behind a pointer, read as strings

A character pointer stands for all bytes from its target on.  The string it
denotes ends before the first zero byte.  `text` also cuts it off after a given
number of characters, so that it is defined whether or not a zero byte follows.
-/

namespace CString

variable {limit : Nat}

abbrev Byte := BitVec 8

/-- The bytes from a pointer on. -/
abbrev Stream := Nat → Byte

def advance (count : Nat) (stream : Stream) : Stream :=
  fun i => stream (i + count)

/-- The characters before the first zero byte, at most `limit` of them. -/
def text : (limit : Nat) → Stream → List Byte
  | 0, _ => []
  | limit + 1, stream =>
      if stream 0 = 0#8 then [] else stream 0 :: text limit (advance 1 stream)

@[simp]
theorem advance_apply (count : Nat) (stream : Stream) (i : Nat) :
    advance count stream i = stream (i + count) :=
  rfl

variable {stream : Stream}

theorem text_succ_of_zero (ends : stream 0 = 0#8) :
    text (limit + 1) stream = [] := by
  rw [text, if_pos ends]

theorem text_succ_of_ne (continues : stream 0 ≠ 0#8) :
    text (limit + 1) stream = stream 0 :: text limit (advance 1 stream) := by
  rw [text, if_neg continues]

theorem length_text_le (limit : Nat) (stream : Stream) : (text limit stream).length ≤ limit := by
  induction limit generalizing stream with
  | zero => exact Nat.le_refl _
  | succ limit ih =>
      by_cases ends : stream 0 = 0#8
      · rw [text_succ_of_zero ends]
        exact Nat.zero_le _
      · rw [text_succ_of_ne ends, List.length_cons]
        exact Nat.succ_le_succ (ih _)

/-- What a pointer has to satisfy to denote a given string. -/
theorem text_eq_iff {string : List Byte} :
    text limit stream = string ↔
      string.length ≤ limit ∧ 0#8 ∉ string ∧
        (∀ i < string.length, string[i]? = some (stream i)) ∧
        (string.length < limit → stream string.length = 0#8) := by
  induction limit generalizing stream string with
  | zero =>
      constructor
      · rintro rfl
        exact ⟨Nat.le_refl _, List.not_mem_nil, fun i below => absurd below (Nat.not_lt_zero i),
          fun below => absurd below (Nat.lt_irrefl _)⟩
      · rintro ⟨lengthLe, -⟩
        exact (List.eq_nil_of_length_eq_zero (Nat.le_zero.mp lengthLe)).symm
  | succ limit ih =>
      by_cases ends : stream 0 = 0#8
      · rw [text_succ_of_zero ends]
        constructor
        · rintro rfl
          exact ⟨Nat.zero_le _, List.not_mem_nil, fun i below => absurd below (Nat.not_lt_zero i),
            fun _ => ends⟩
        · rintro ⟨-, noZero, chars, -⟩
          cases string with
          | nil => rfl
          | cons char rest =>
              have first := chars 0 (Nat.succ_pos _)
              rw [List.getElem?_cons_zero, Option.some.injEq, ends] at first
              exact absurd (first ▸ List.mem_cons_self) noZero
      · rw [text_succ_of_ne ends]
        cases string with
        | nil =>
            constructor
            · intro equal
              cases equal
            · rintro ⟨-, -, -, stops⟩
              exact absurd (stops (Nat.succ_pos _)) ends
        | cons char rest =>
            rw [List.cons.injEq, ih, List.length_cons, List.mem_cons, not_or]
            constructor
            · rintro ⟨rfl, lengthLe, noZero, chars, stops⟩
              refine ⟨Nat.succ_le_succ lengthLe, ⟨fun isZero => ends isZero.symm, noZero⟩, ?_, ?_⟩
              · intro i below
                cases i with
                | zero => rfl
                | succ i => exact chars i (Nat.lt_of_succ_lt_succ below)
              · intro below
                exact stops (Nat.lt_of_succ_lt_succ below)
            · rintro ⟨lengthLe, ⟨-, noZero⟩, chars, stops⟩
              have first := chars 0 (Nat.succ_pos _)
              rw [List.getElem?_cons_zero, Option.some.injEq] at first
              refine ⟨first.symm, Nat.le_of_succ_le_succ lengthLe, noZero, ?_, ?_⟩
              · intro i below
                exact chars (i + 1) (Nat.succ_lt_succ below)
              · intro below
                exact stops (Nat.succ_lt_succ below)

theorem zero_notMem_text (limit : Nat) (stream : Stream) : 0#8 ∉ text limit stream :=
  (text_eq_iff.mp rfl).2.1

theorem getElem?_text {limit i : Nat} {stream : Stream} (below : i < (text limit stream).length) :
    (text limit stream)[i]? = some (stream i) :=
  (text_eq_iff.mp rfl).2.2.1 i below

theorem text_stops (short : (text limit stream).length < limit) :
    stream (text limit stream).length = 0#8 :=
  (text_eq_iff.mp rfl).2.2.2 short

theorem ne_zero_of_lt_length_text {limit i : Nat} {stream : Stream}
    (below : i < (text limit stream).length) : stream i ≠ 0#8 := by
  intro isZero
  have member := List.mem_of_getElem? (getElem?_text below)
  rw [isZero] at member
  exact zero_notMem_text limit stream member

theorem length_text_le_of_zero {i : Nat} (limit : Nat) (isZero : stream i = 0#8) :
    (text limit stream).length ≤ i := by
  by_contra longer
  exact ne_zero_of_lt_length_text (Nat.not_le.mp longer) isZero

theorem text_congr {first second : Stream} (agree : ∀ i < limit, first i = second i) :
    text limit first = text limit second := by
  induction limit generalizing first second with
  | zero => rfl
  | succ limit ih =>
      have rest : text limit (advance 1 first) = text limit (advance 1 second) :=
        ih fun i below => agree (i + 1) (Nat.succ_lt_succ below)
      rw [text, text, agree 0 (Nat.succ_pos _), rest]

theorem text_succ_eq_nil {limit : Nat} {stream : Stream} :
    text (limit + 1) stream = [] ↔ stream 0 = 0#8 := by
  by_cases ends : stream 0 = 0#8
  · simp [text_succ_of_zero ends, ends]
  · simp [text_succ_of_ne ends, ends]

theorem text_of_short {more : Nat} (short : (text limit stream).length < limit)
    (limitLe : limit ≤ more) :
    text more stream = text limit stream := by
  rw [text_eq_iff]
  exact ⟨by omega, zero_notMem_text _ _, fun i below => getElem?_text below,
    fun _ => text_stops short⟩

/-- Characters that reach the limit are followed by those behind it. -/
theorem text_add {limit more : Nat} {stream : Stream}
    (full : (text limit stream).length = limit) :
    text (limit + more) stream = text limit stream ++ text more (advance limit stream) := by
  induction limit generalizing stream with
  | zero =>
      rw [Nat.zero_add]
      rfl
  | succ limit ih =>
      have continues : stream 0 ≠ 0#8 := by
        refine @ne_zero_of_lt_length_text (limit + 1) 0 stream ?_
        omega
      rw [text_succ_of_ne continues, List.length_cons, Nat.add_right_cancel_iff] at full
      have behind : advance limit (advance 1 stream) = advance (limit + 1) stream := rfl
      rw [Nat.succ_add, text_succ_of_ne continues, text_succ_of_ne continues, ih full,
        List.cons_append, behind]

/-- The pointer points to the string and a zero byte behind it. -/
structure Holds (stream : Stream) (string : List Byte) : Prop where
  noZero : 0#8 ∉ string
  chars : ∀ i < string.length, string[i]? = some (stream i)
  stops : stream string.length = 0#8

theorem Holds.text_eq {string : List Byte} (holds : Holds stream string) (limit : Nat) :
    text limit stream = string.take limit := by
  rw [text_eq_iff, List.length_take]
  refine ⟨Nat.min_le_left _ _, fun member => holds.noZero (List.mem_of_mem_take member), ?_, ?_⟩
  · intro i below
    rw [List.getElem?_take_of_lt (by omega)]
    exact holds.chars i (by omega)
  · intro short
    have whole : min limit string.length = string.length := by omega
    rw [whole]
    exact holds.stops

end CString
