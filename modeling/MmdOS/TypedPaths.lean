import MmdOS.LineEditor
import MmdOS.PathEntry
import Mathlib.Data.List.Infix

/-!
# The path that has been typed

What `cat` and `ls` keep of the keys differs from the line that was typed by at most
one character: a backspace on an empty line stays at the front until the next
backspace on an empty line.  Behind the line the array has zeros where characters
have been erased, and otherwise what it had at the start.
-/

namespace MmdOS

open CString LineEditor
open Function (update_of_ne update_apply)

def pathLine (keys : List Byte) : List Byte :=
  edited 0x08#8 (fun _ => true) keys

def strayBackspaces (keys : List Byte) : Nat :=
  strays 0x08#8 (fun _ => true) keys

def keptLine (keys : List Byte) : List Byte :=
  if strayBackspaces keys % 2 = 1 then 0x08#8 :: pathLine keys else pathLine keys

def keptLength (keys : List Byte) : Nat :=
  (pathLine keys).length + strayBackspaces keys % 2

section Lines

theorem length_keptLine (keys : List Byte) : (keptLine keys).length = keptLength keys := by
  rw [keptLine, keptLength]
  split
  · rw [List.length_cons]
    omega
  · omega

theorem pathLine_concat (keys : List Byte) (key : Byte) :
    pathLine (keys ++ [key]) =
      if key = 0x08#8 then (pathLine keys).dropLast else pathLine keys ++ [key] := by
  rw [pathLine, edited_concat, press, if_pos rfl]
  rfl

theorem strayBackspaces_concat (keys : List Byte) (key : Byte) :
    strayBackspaces (keys ++ [key]) =
      if key = 0x08#8 ∧ pathLine keys = [] then strayBackspaces keys + 1
      else strayBackspaces keys :=
  strays_concat keys key

theorem keptLine_of_odd {keys : List Byte} (odd : strayBackspaces keys % 2 = 1) :
    keptLine keys = 0x08#8 :: pathLine keys :=
  if_pos odd

theorem keptLine_of_even {keys : List Byte} (even : strayBackspaces keys % 2 = 0) :
    keptLine keys = pathLine keys :=
  if_neg (by omega)

theorem keptLine_concat (keys : List Byte) (key : Byte) :
    keptLine (keys ++ [key]) =
      if key = 0x08#8 ∧ keptLine keys ≠ [] then (keptLine keys).dropLast
      else keptLine keys ++ [key] := by
  have line := pathLine_concat keys key
  have strays := strayBackspaces_concat keys key
  by_cases isErase : key = 0x08#8
  · rw [if_pos isErase] at line
    by_cases isEmpty : pathLine keys = []
    · -- a backspace on an empty line
      rw [if_pos ⟨isErase, isEmpty⟩] at strays
      rcases Nat.mod_two_eq_zero_or_one (strayBackspaces keys) with even | odd
      · rw [keptLine_of_odd (by omega), keptLine_of_even even, line, isEmpty, isErase]
        simp
      · rw [keptLine_of_even (by omega), keptLine_of_odd odd, line, isEmpty, isErase]
        simp
    · rw [if_neg (fun both => isEmpty both.2)] at strays
      rcases Nat.mod_two_eq_zero_or_one (strayBackspaces keys) with even | odd
      · rw [keptLine_of_even (by omega), keptLine_of_even even, line, if_pos ⟨isErase, isEmpty⟩]
      · rw [keptLine_of_odd (by omega), keptLine_of_odd odd, line,
          if_pos ⟨isErase, List.cons_ne_nil _ _⟩, List.dropLast_cons_of_ne_nil isEmpty]
  · rw [if_neg isErase] at line
    rw [if_neg (fun both => isErase both.1)] at strays ⊢
    rcases Nat.mod_two_eq_zero_or_one (strayBackspaces keys) with even | odd
    · rw [keptLine_of_even (by omega), keptLine_of_even even, line]
    · rw [keptLine_of_odd (by omega), keptLine_of_odd odd, line, List.cons_append]

end Lines

def Touched (keys : List Byte) (i : Nat) : Prop :=
  ∃ typed, typed <+: keys ∧ i < keptLength typed

structure PathBuffer.Keeps (buffer : PathBuffer) (initial : Stream) (keys : List Byte) : Prop where
  index_eq : buffer.index.toNat = keptLength keys
  chars : ∀ i < keptLength keys, (keptLine keys)[i]? = some (buffer.path i)
  erased : ∀ i, keptLength keys ≤ i → Touched keys i → buffer.path i = 0#8
  untouched : ∀ i, ¬Touched keys i → buffer.path i = initial i

section Arrays

variable {initial : Stream} {keys : List Byte} {key : Byte} {buffer : PathBuffer}

theorem touched_concat {i : Nat} :
    Touched (keys ++ [key]) i ↔ Touched keys i ∨ i < keptLength (keys ++ [key]) := by
  simp only [Touched, List.prefix_concat_iff]
  constructor
  · rintro ⟨typed, rfl | isPrefix, below⟩
    · exact .inr below
    · exact .inl ⟨typed, isPrefix, below⟩
  · rintro (⟨typed, isPrefix, below⟩ | below)
    · exact ⟨typed, .inr isPrefix, below⟩
    · exact ⟨keys ++ [key], .inl rfl, below⟩

theorem touched_of_lt {i : Nat} (below : i < keptLength keys) : Touched keys i :=
  ⟨keys, List.prefix_rfl, below⟩

theorem keeps_start (initial : Stream) : PathBuffer.Keeps ⟨initial, 0#16⟩ initial [] where
  index_eq := rfl
  chars := fun i below => absurd below (Nat.not_lt_zero i)
  erased := by
    rintro i - ⟨typed, isPrefix, below⟩
    rw [List.prefix_nil.mp isPrefix] at below
    exact absurd below (Nat.not_lt_zero i)
  untouched := fun _ _ => rfl

theorem PathBuffer.Keeps.append (keeps : buffer.Keeps initial keys) (room : keptLength keys < 65535)
    (kept : keptLine (keys ++ [key]) = keptLine keys ++ [key]) :
    (buffer.append key).Keeps initial (keys ++ [key]) := by
  have lengthEq : keptLength (keys ++ [key]) = keptLength keys + 1 := by
    rw [← length_keptLine, kept, List.length_append, List.length_singleton, length_keptLine]
  have index := keeps.index_eq
  have indexEq : (buffer.index + 1#16).toNat = keptLength keys + 1 := by
    have wrapped : (buffer.index + 1#16).toNat = (buffer.index.toNat + 1) % 65536 :=
      BitVec.toNat_add _ _
    rw [wrapped, index, Nat.mod_eq_of_lt (by omega)]
  refine ⟨?_, ?_, ?_, ?_⟩
  · rw [lengthEq]
    exact indexEq
  · intro i below
    rw [lengthEq] at below
    rw [kept, PathBuffer.append, index]
    rcases Nat.lt_or_eq_of_le (Nat.lt_succ_iff.mp below) with earlier | rfl
    · rw [List.getElem?_append_left (by rwa [length_keptLine]), keeps.chars i earlier]
      exact congrArg some (update_of_ne (by omega) _ _).symm
    · rw [← length_keptLine, List.getElem?_append_right (Nat.le_refl _), Nat.sub_self]
      simp
  · intro i behind touched
    rw [lengthEq] at behind
    rw [touched_concat, lengthEq] at touched
    rw [PathBuffer.append, index]
    dsimp only
    rw [update_of_ne (by omega)]
    exact keeps.erased i (by omega) (touched.resolve_right (by omega))
  · intro i untouched
    rw [touched_concat, lengthEq, not_or] at untouched
    rw [PathBuffer.append, index]
    dsimp only
    rw [update_of_ne (by omega)]
    exact keeps.untouched i untouched.1

theorem PathBuffer.Keeps.erase (keeps : buffer.Keeps initial keys) (positive : 0 < keptLength keys)
    (kept : keptLine (keys ++ [key]) = (keptLine keys).dropLast) :
    buffer.erase.Keeps initial (keys ++ [key]) := by
  have lengthEq : keptLength (keys ++ [key]) = keptLength keys - 1 := by
    rw [← length_keptLine, kept, List.length_dropLast, length_keptLine]
  have index := keeps.index_eq
  have indexEq : (buffer.index - 1#16).toNat = keptLength keys - 1 := by
    rw [toNat_sub_one (by rwa [index]), index]
  have touchedIff : ∀ i, Touched (keys ++ [key]) i ↔ Touched keys i := by
    intro i
    rw [touched_concat, lengthEq]
    constructor
    · rintro (touched | below)
      · exact touched
      · exact touched_of_lt (by omega)
    · exact .inl
  refine ⟨?_, ?_, ?_, ?_⟩
  · rw [lengthEq]
    exact indexEq
  · intro i below
    rw [lengthEq] at below
    rw [kept, PathBuffer.erase, indexEq, List.getElem?_dropLast,
      if_pos (by rwa [length_keptLine]), keeps.chars i (by omega)]
    exact congrArg some (update_of_ne (by omega) _ _).symm
  · intro i behind touched
    rw [lengthEq] at behind
    rw [touchedIff] at touched
    rw [PathBuffer.erase, indexEq]
    dsimp only
    rw [update_apply]
    split
    · rfl
    · exact keeps.erased i (by omega) touched
  · intro i untouched
    rw [touchedIff] at untouched
    have outside : i ≠ keptLength keys - 1 := fun same => untouched (touched_of_lt (by omega))
    rw [PathBuffer.erase, indexEq]
    dsimp only
    rw [update_of_ne outside]
    exact keeps.untouched i untouched

theorem PathBuffer.Keeps.press (keeps : buffer.Keeps initial keys) (room : keptLength keys < 65535) :
    (buffer.press key).Keeps initial (keys ++ [key]) := by
  have kept := keptLine_concat keys key
  have nonempty : keptLine keys ≠ [] ↔ 0 < buffer.index.toNat := by
    rw [keeps.index_eq, ← length_keptLine, List.length_pos_iff]
  rw [PathBuffer.press]
  by_cases erases : key = 0x08#8 ∧ 0 < buffer.index.toNat
  · rw [if_pos erases]
    rw [if_pos ⟨erases.1, nonempty.mpr erases.2⟩] at kept
    exact keeps.erase (by rw [← keeps.index_eq]; exact erases.2) kept
  · rw [if_neg erases]
    rw [if_neg (fun both => erases ⟨both.1, nonempty.mp both.2⟩)] at kept
    exact keeps.append room kept

theorem typeKeys_concat (initial : Stream) (keys : List Byte) (key : Byte) :
    typeKeys initial (keys ++ [key]) = (typeKeys initial keys).press key := by
  simp [typeKeys]

theorem keeps_typeKeys (short : ∀ typed, typed <+: keys → keptLength typed ≤ 511) :
    (typeKeys initial keys).Keeps initial keys := by
  induction keys using List.reverseRecOn with
  | nil => exact keeps_start initial
  | append_singleton keys key ih =>
      have before := (forall_prefix_concat.mp short).1
      have room := before keys List.prefix_rfl
      rw [typeKeys_concat]
      exact (ih before).press (by omega)

/-- The index stays in the array exactly if no more than 511 characters are kept. -/
theorem index_le_iff :
    (∀ typed, typed <+: keys → (typeKeys initial typed).index.toNat ≤ 511) ↔
      ∀ typed, typed <+: keys → keptLength typed ≤ 511 := by
  constructor
  · intro inside
    induction keys using List.reverseRecOn with
    | nil =>
        intro typed isPrefix
        rw [List.prefix_nil.mp isPrefix]
        decide
    | append_singleton keys key ih =>
        rw [forall_prefix_concat] at inside ⊢
        have before := ih inside.1
        have room := before keys List.prefix_rfl
        have keeps : (typeKeys initial (keys ++ [key])).Keeps initial (keys ++ [key]) := by
          rw [typeKeys_concat]
          exact (keeps_typeKeys before).press (by omega)
        exact ⟨before, by rw [← keeps.index_eq]; exact inside.2⟩
  · intro short typed isPrefix
    have keeps := @keeps_typeKeys initial typed fun other otherPrefix =>
      short other (otherPrefix.trans isPrefix)
    rw [keeps.index_eq]
    exact short typed isPrefix

/-- What is passed on is the line, if no stray backspace is kept and a zero byte ends
the line. -/
theorem PathBuffer.Keeps.holds_iff (keeps : buffer.Keeps initial keys) :
    Holds buffer.path (pathLine keys) ↔
      strayBackspaces keys % 2 = 0 ∧
        (initial (pathLine keys).length = 0#8 ∨ Touched keys (pathLine keys).length) ∧
        0#8 ∉ pathLine keys := by
  have chars := keeps.chars
  constructor
  · intro holds
    have even : strayBackspaces keys % 2 = 0 := by
      by_contra odd
      -- the backspace at the front is no character of a line
      have first := chars 0 (by rw [keptLength]; omega)
      rw [keptLine_of_odd (by omega), List.getElem?_cons_zero, Option.some.injEq] at first
      cases line : pathLine keys with
      | nil =>
          have ends := holds.stops
          rw [line, List.length_nil, ← first] at ends
          exact absurd ends (by decide)
      | cons char rest =>
          have shown := holds.chars 0 (by simp [line])
          rw [line, List.getElem?_cons_zero, Option.some.injEq, ← first] at shown
          have member : 0x08#8 ∈ pathLine keys := by simp [line, shown]
          exact erase_notMem_edited keys member
    refine ⟨even, ?_, holds.noZero⟩
    by_cases touched : Touched keys (pathLine keys).length
    · exact .inr touched
    · left
      rw [← keeps.untouched _ touched]
      exact holds.stops
  · rintro ⟨even, ended, noZero⟩
    have lengthEq : keptLength keys = (pathLine keys).length := by
      rw [keptLength, even, Nat.add_zero]
    rw [lengthEq, keptLine_of_even even] at chars
    refine ⟨noZero, chars, ?_⟩
    by_cases touched : Touched keys (pathLine keys).length
    · exact keeps.erased _ (by omega) touched
    · rw [keeps.untouched _ touched]
      exact ended.resolve_right touched

end Arrays

/-- The keys are stored as they should be: backspaces on an empty line come in pairs, at
most 511 characters are ever kept, and behind the line there is a zero byte from the
start or from a character that was erased. -/
structure EntersLine (initial : Stream) (keys : List Byte) : Prop where
  even : strayBackspaces keys % 2 = 0
  short : ∀ typed, typed <+: keys → keptLength typed ≤ 511
  ended : initial (pathLine keys).length = 0#8 ∨
    ∃ typed, typed <+: keys ∧ (pathLine keys).length < keptLength typed
  noZero : 0#8 ∉ pathLine keys

/-- `cat` opens and `ls` lists the line that was typed, without leaving the array,
exactly under this condition. -/
theorem typed_path_iff {keys : List Byte} (session : Session keys) (noEnter : 0x0a#8 ∉ keys)
    (initial : Stream) (printed : Answer) :
    ((∃ path, (catRun initial (session.answers ++ [printed])).call = some (.openFile path) ∧
        Holds path (pathLine keys)) ∧
      (∃ path, (lsRun initial session.answers).call = some (.readDir path 1023#64) ∧
        Holds path (pathLine keys)) ∧
      ∀ typed, typed <+: keys → (typeKeys initial typed).index.toNat ≤ 511) ↔
      EntersLine initial keys := by
  rw [call_catRun session noEnter, call_lsRun session noEnter, index_le_iff]
  constructor
  · rintro ⟨⟨path, called, holds⟩, -, short⟩
    cases called
    obtain ⟨even, ended, noZero⟩ := (keeps_typeKeys short).holds_iff.mp holds
    exact ⟨even, short, ended, noZero⟩
  · rintro ⟨even, short, ended, noZero⟩
    have holds := (@keeps_typeKeys initial keys short).holds_iff.mpr ⟨even, ended, noZero⟩
    exact ⟨⟨_, rfl, holds⟩, ⟨_, rfl, holds⟩, short⟩

section Example

def plainAnswer (value : Word) : Answer :=
  ⟨value, fun _ => 0#8⟩

def quickTyping (keys : List Byte) : List Answer :=
  keys.flatMap fun c => [plainAnswer (c.setWidth 64), plainAnswer 0#64]

theorem typing_quickTyping (keys : List Byte) : Typing keys (quickTyping keys) := by
  induction keys with
  | nil => exact .nothing
  | cons c keys ih => exact .key rfl ih

theorem forall_mem_nil_busy : ∀ answer ∈ ([] : List Answer), answer.value = 0#64 := by
  simp

theorem plainAnswer_one_ne : (plainAnswer 1#64).value ≠ 0#64 := by
  decide

def quickSession (keys : List Byte) : Session keys where
  busy := []
  allBusy := forall_mem_nil_busy
  locked := plainAnswer 1#64
  isLocked := plainAnswer_one_ne
  typing := quickTyping keys
  types := typing_quickTyping keys
  enter := plainAnswer 0x0a#64
  isEnter := rfl

/-- After `ab` and a backspace the path is `a`: in an array that is not zero, the
character that was erased has left a zero byte behind it. -/
theorem typed_path_erased :
    (∃ path, (catRun (fun _ => 0x78#8)
        ((quickSession [0x61#8, 0x62#8, 0x08#8]).answers ++ [plainAnswer 0#64])).call =
          some (.openFile path) ∧ Holds path [0x61#8]) ∧
    ∃ path, (lsRun (fun _ => 0x78#8) (quickSession [0x61#8, 0x62#8, 0x08#8]).answers).call =
      some (.readDir path 1023#64) ∧ Holds path [0x61#8] := by
  have short : ∀ typed ∈ List.inits [0x61#8, 0x62#8, 0x08#8], keptLength typed ≤ 511 := by decide
  have exactly := (typed_path_iff (quickSession [0x61#8, 0x62#8, 0x08#8]) (by decide)
    (fun _ => 0x78#8) (plainAnswer 0#64)).mpr ⟨by decide,
      fun typed isPrefix => short typed ((List.mem_inits _ _).mpr isPrefix),
      .inr ⟨[0x61#8, 0x62#8], by decide, by decide⟩, by decide⟩
  exact ⟨exactly.1, exactly.2.1⟩

/-- In an array that is not zero, the path `a` runs on. -/
theorem typed_path_runs_on :
    ∃ path, (catRun (fun _ => 0x78#8)
        ((quickSession [0x61#8]).answers ++ [plainAnswer 0#64])).call = some (.openFile path) ∧
      pathLine [0x61#8] = [0x61#8] ∧ path 0 = 0x61#8 ∧ path 1 = 0x78#8 ∧ ¬Holds path [0x61#8] := by
  refine ⟨_, call_catRun _ (by decide) _ _, by decide, by decide, by decide, fun holds => ?_⟩
  have ends := holds.stops
  exact absurd ends (by decide)

end Example

end MmdOS
