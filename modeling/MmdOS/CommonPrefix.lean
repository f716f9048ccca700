import MmdOS.CString

/-!
# Where two strings part

Two strings that are not equal part behind their longest common initial part,
and so do two pointers that point to them: the zero byte behind the shorter
string differs from the character of the longer one.  Only equal strings agree
beyond their last character.
-/

namespace CString

theorem advance_advance (first count : Nat) (stream : Stream) :
    advance count (advance first stream) = advance (first + count) stream := by
  funext i
  exact congrArg stream (by omega)

theorem advance_succ (count : Nat) (stream : Stream) :
    advance 1 (advance count stream) = advance (count + 1) stream :=
  advance_advance count 1 stream

section Lists

variable {α : Type*} [DecidableEq α]

def shared : List α → List α → Nat
  | first :: firsts, second :: seconds => if first = second then shared firsts seconds + 1 else 0
  | _, _ => 0

@[simp]
theorem shared_nil_left (list : List α) : shared [] list = 0 := by
  cases list <;> rfl

@[simp]
theorem shared_nil_right (list : List α) : shared list [] = 0 := by
  cases list <;> rfl

theorem shared_cons_self (head : α) (firsts seconds : List α) :
    shared (head :: firsts) (head :: seconds) = shared firsts seconds + 1 := by
  rw [shared, if_pos rfl]

theorem shared_cons_of_ne {first second : α} (different : first ≠ second)
    (firsts seconds : List α) : shared (first :: firsts) (second :: seconds) = 0 := by
  rw [shared, if_neg different]

theorem shared_comm (first second : List α) : shared first second = shared second first := by
  induction first generalizing second with
  | nil => rw [shared_nil_left, shared_nil_right]
  | cons head firsts ih =>
      cases second with
      | nil => rw [shared_nil_left, shared_nil_right]
      | cons head' seconds =>
          by_cases same : head = head'
          · rw [same, shared_cons_self, shared_cons_self, ih]
          · rw [shared_cons_of_ne same, shared_cons_of_ne (Ne.symm same)]

theorem shared_le_left (first second : List α) : shared first second ≤ first.length := by
  induction first generalizing second with
  | nil => exact Nat.le_of_eq (shared_nil_left second)
  | cons head firsts ih =>
      cases second with
      | nil =>
          rw [shared_nil_right]
          exact Nat.zero_le _
      | cons head' seconds =>
          by_cases same : head = head'
          · rw [same, shared_cons_self, List.length_cons]
            exact Nat.succ_le_succ (ih seconds)
          · rw [shared_cons_of_ne same]
            exact Nat.zero_le _

theorem shared_le_right (first second : List α) : shared first second ≤ second.length := by
  rw [shared_comm]
  exact shared_le_left second first

theorem take_shared (first second : List α) :
    first.take (shared first second) = second.take (shared first second) := by
  induction first generalizing second with
  | nil => rw [shared_nil_left, List.take_zero, List.take_zero]
  | cons head firsts ih =>
      cases second with
      | nil => rw [shared_nil_right, List.take_zero, List.take_zero]
      | cons head' seconds =>
          by_cases same : head = head'
          · rw [same, shared_cons_self, List.take_succ_cons, List.take_succ_cons, ih]
          · rw [shared_cons_of_ne same, List.take_zero, List.take_zero]

theorem getElem?_shared_ne {first second : List α} (different : first ≠ second) :
    first[shared first second]? ≠ second[shared first second]? := by
  induction first generalizing second with
  | nil =>
      cases second with
      | nil => exact absurd rfl different
      | cons head' seconds => simp
  | cons head firsts ih =>
      cases second with
      | nil => simp
      | cons head' seconds =>
          by_cases same : head = head'
          · subst same
            rw [shared_cons_self, List.getElem?_cons_succ, List.getElem?_cons_succ]
            exact ih fun tails => different (by rw [tails])
          · rw [shared_cons_of_ne same]
            simpa using same

theorem shared_append_left (initial rest : List α) : shared initial (initial ++ rest) =
    initial.length := by
  induction initial with
  | nil => rw [shared_nil_left, List.length_nil]
  | cons head tail ih => rw [List.cons_append, shared_cons_self, ih, List.length_cons]

theorem shared_eq_length_iff {first second : List α} :
    shared first second = first.length ↔ first <+: second := by
  constructor
  · intro whole
    have initial := take_shared first second
    rw [whole, List.take_length] at initial
    rw [initial]
    exact List.take_prefix _ _
  · rintro ⟨rest, rfl⟩
    exact shared_append_left first rest

theorem shared_append_of_ne {first second : α} (initial firsts seconds : List α)
    (different : first ≠ second) :
    shared (initial ++ first :: firsts) (initial ++ second :: seconds) = initial.length := by
  induction initial with
  | nil => exact shared_cons_of_ne different firsts seconds
  | cons head tail ih =>
      rw [List.cons_append, List.cons_append, shared_cons_self, ih, List.length_cons]

end Lists

namespace Holds

variable {first second : Stream} {string other : List Byte}

theorem apply_eq (holds : Holds first string) {i : Nat} (inside : i ≤ string.length) :
    first i = string[i]?.getD 0#8 := by
  rcases Nat.lt_or_eq_of_le inside with below | rfl
  · rw [holds.chars i below, Option.getD_some]
  · rw [holds.stops, List.getElem?_eq_none (Nat.le_refl _), Option.getD_none]

theorem getElem?_ne_zero (holds : Holds first string) (i : Nat) : string[i]? ≠ some 0#8 :=
  fun isZero => holds.noZero (List.mem_of_getElem? isZero)

theorem char_ne_zero (holds : Holds first string) {i : Nat} (below : i < string.length) :
    first i ≠ 0#8 := by
  have nonzero := getElem?_ne_zero holds i
  rwa [holds.chars i below, Ne, Option.some.injEq] at nonzero

theorem advance (holds : Holds first string) {count : Nat} (inside : count ≤ string.length) :
    Holds (advance count first) (string.drop count) where
  noZero := fun member => holds.noZero (List.mem_of_mem_drop member)
  chars := by
    intro i below
    rw [List.length_drop] at below
    rw [List.getElem?_drop, advance_apply, Nat.add_comm i]
    exact holds.chars _ (by omega)
  stops := by
    rw [advance_apply, List.length_drop, Nat.sub_add_cancel inside]
    exact holds.stops

theorem of_cons {char : Byte} (holds : Holds first (char :: string)) :
    first 0 = char ∧ char ≠ 0#8 ∧ Holds (CString.advance 1 first) string :=
  ⟨holds.apply_eq (Nat.zero_le _), fun isZero => holds.noZero (isZero ▸ List.mem_cons_self),
    holds.advance (Nat.le_add_left 1 string.length)⟩

theorem head_eq_zero_iff (holds : Holds first string) : first 0 = 0#8 ↔ string = [] := by
  cases string with
  | nil => exact ⟨fun _ => rfl, fun _ => holds.stops⟩
  | cons char rest =>
      obtain ⟨head, nonzero, -⟩ := holds.of_cons
      rw [head]
      exact ⟨fun isZero => absurd isZero nonzero, fun isNil => absurd isNil (List.cons_ne_nil _ _)⟩

theorem unique (holds : Holds first string) (again : Holds first other) : string = other := by
  have firstText := holds.text_eq (string.length + other.length)
  rw [again.text_eq, List.take_of_length_le (by omega),
    List.take_of_length_le (by omega)] at firstText
  exact firstText.symm

theorem agree (holds : Holds first string) (holds' : Holds second other) {i : Nat}
    (below : i < shared string other) : first i = second i := by
  have leftLe := shared_le_left string other
  have rightLe := shared_le_right string other
  have same := congrArg (·[i]?) (take_shared string other)
  rw [List.getElem?_take_of_lt below, List.getElem?_take_of_lt below] at same
  rw [holds.apply_eq (by omega), holds'.apply_eq (by omega), same]

theorem differ (holds : Holds first string) (holds' : Holds second other)
    (different : string ≠ other) :
    first (shared string other) ≠ second (shared string other) := by
  have notSame := getElem?_shared_ne different
  rw [holds.apply_eq (shared_le_left string other), holds'.apply_eq (shared_le_right string other)]
  intro same
  have firstNe := holds.getElem?_ne_zero (shared string other)
  have secondNe := holds'.getElem?_ne_zero (shared string other)
  cases firstChar : string[shared string other]? with
  | none =>
      cases secondChar : other[shared string other]? with
      | none => exact notSame (firstChar.trans secondChar.symm)
      | some char =>
          rw [firstChar, secondChar, Option.getD_none, Option.getD_some] at same
          exact secondNe (secondChar.trans (congrArg some same.symm))
  | some char =>
      cases secondChar : other[shared string other]? with
      | none =>
          rw [firstChar, secondChar, Option.getD_none, Option.getD_some] at same
          exact firstNe (firstChar.trans (congrArg some same))
      | some char' =>
          rw [firstChar, secondChar, Option.getD_some, Option.getD_some] at same
          exact notSame (by rw [firstChar, secondChar, same])

end Holds

end CString
