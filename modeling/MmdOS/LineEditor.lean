import Mathlib.Data.List.Induction
import Mathlib.Tactic.Common

/-!
# A line that is typed

A line is typed with keys, one of which erases the last character.  A character is
appended if the line has room for it.  Erasing does nothing on an empty line.
-/

namespace LineEditor

variable {α : Type} [DecidableEq α] (erase : α) (fits : Nat → Bool)

def press (line : List α) (key : α) : List α :=
  if key = erase then line.dropLast else if fits line.length then line ++ [key] else line

def edited (keys : List α) : List α :=
  keys.foldl (press erase fits) []

/-- One more key, counted if it erases the last character of an empty line. -/
def countStray (state : List α × Nat) (key : α) : List α × Nat :=
  (press erase fits state.1 key, if key = erase ∧ state.1 = [] then state.2 + 1 else state.2)

def strays (keys : List α) : Nat :=
  (keys.foldl (countStray erase fits) ([], 0)).2

section Keys

variable {erase fits}

theorem edited_nil : edited erase fits [] = [] :=
  rfl

theorem edited_concat (keys : List α) (key : α) :
    edited erase fits (keys ++ [key]) = press erase fits (edited erase fits keys) key := by
  simp [edited]

theorem foldl_countStray_fst (keys : List α) (state : List α × Nat) :
    (keys.foldl (countStray erase fits) state).1 = keys.foldl (press erase fits) state.1 := by
  induction keys generalizing state with
  | nil => rfl
  | cons key keys ih => exact ih (countStray erase fits state key)

theorem strays_concat (keys : List α) (key : α) :
    strays erase fits (keys ++ [key]) =
      if key = erase ∧ edited erase fits keys = [] then strays erase fits keys + 1
      else strays erase fits keys := by
  have line : (keys.foldl (countStray erase fits) ([], 0)).1 = edited erase fits keys :=
    foldl_countStray_fst keys ([], 0)
  rw [strays, List.foldl_append, List.foldl_cons, List.foldl_nil, countStray, line, ← strays]

theorem press_erase (line : List α) : press erase fits line erase = line.dropLast :=
  if_pos rfl

theorem press_char {line : List α} {key : α} (notErase : key ≠ erase)
    (room : fits line.length = true) :
    press erase fits line key = line ++ [key] := by
  rw [press, if_neg notErase, if_pos room]

theorem length_edited_le (keys : List α) : (edited erase fits keys).length ≤ keys.length := by
  induction keys using List.reverseRecOn with
  | nil => simp [edited_nil]
  | append_singleton keys key ih =>
      rw [edited_concat, List.length_append, List.length_singleton, press]
      split
      · rw [List.length_dropLast]
        omega
      · split
        · rw [List.length_append, List.length_singleton]
          omega
        · omega

theorem erase_notMem_edited (keys : List α) : erase ∉ edited erase fits keys := by
  induction keys using List.reverseRecOn with
  | nil => simp [edited_nil]
  | append_singleton keys key ih =>
      rw [edited_concat]
      by_cases isErase : key = erase
      · rw [isErase, press_erase]
        intro member
        exact ih (List.dropLast_subset _ member)
      · rw [press, if_neg isErase]
        split
        · simp [ih, Ne.symm isErase]
        · exact ih

omit [DecidableEq α] in
theorem forall_prefix_concat {P : List α → Prop} {keys : List α} {key : α} :
    (∀ typed, typed <+: keys ++ [key] → P typed) ↔
      (∀ typed, typed <+: keys → P typed) ∧ P (keys ++ [key]) := by
  simp only [List.prefix_concat_iff]
  constructor
  · intro all
    exact ⟨fun typed isPrefix => all typed (.inr isPrefix), all _ (.inl rfl)⟩
  · rintro ⟨before, last⟩ typed (rfl | isPrefix)
    · exact last
    · exact before typed isPrefix

end Keys

end LineEditor
