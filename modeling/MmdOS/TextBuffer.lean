import MmdOS.CString

/-!
# A buffer that is filled from the left

Characters are written one after the other until the buffer is full; what comes
later is dropped.  The buffer is zero at first, so the text in it ends with a zero
byte unless it fills the buffer.
-/

namespace CString

open Function (update update_self update_of_ne update_apply)

structure TextBuffer where
  bytes : Stream
  offset : Nat

namespace TextBuffer

variable (limit : Nat)

def cleared (behind : Stream) : TextBuffer :=
  ⟨fun i => if i < limit then 0#8 else behind i, 0⟩

def push (buffer : TextBuffer) (char : Byte) : TextBuffer :=
  if buffer.offset < limit then
    ⟨update buffer.bytes buffer.offset char, buffer.offset + 1⟩
  else buffer

def pushAll (buffer : TextBuffer) (chars : List Byte) : TextBuffer :=
  chars.foldl (push limit) buffer

structure Shows (buffer : TextBuffer) (shown : List Byte) : Prop where
  offset_eq : buffer.offset = shown.length
  length_le : shown.length ≤ limit
  chars : ∀ i < shown.length, shown[i]? = some (buffer.bytes i)
  zeros : ∀ i, shown.length ≤ i → i < limit → buffer.bytes i = 0#8

structure Wrote (buffer : TextBuffer) (chars : List Byte) (after : TextBuffer) : Prop where
  offset_eq : after.offset = buffer.offset + chars.length
  written : ∀ i < chars.length, chars[i]? = some (after.bytes (buffer.offset + i))
  others : ∀ i, i < buffer.offset ∨ buffer.offset + chars.length ≤ i →
    after.bytes i = buffer.bytes i

variable {limit} {buffer : TextBuffer} {shown : List Byte}

theorem shows_cleared (behind : Stream) : Shows limit (cleared limit behind) [] where
  offset_eq := rfl
  length_le := Nat.zero_le limit
  chars := fun i below => absurd below (Nat.not_lt_zero i)
  zeros := fun _ _ inside => if_pos inside

theorem push_of_le {char : Byte} (full : limit ≤ buffer.offset) :
    push limit buffer char = buffer := by
  rw [push, if_neg (Nat.not_lt.mpr full)]

theorem pushAll_nil (buffer : TextBuffer) : pushAll limit buffer [] = buffer :=
  rfl

theorem pushAll_cons (buffer : TextBuffer) (char : Byte) (chars : List Byte) :
    pushAll limit buffer (char :: chars) = pushAll limit (push limit buffer char) chars :=
  rfl

theorem pushAll_of_le {chars : List Byte} (full : limit ≤ buffer.offset) :
    pushAll limit buffer chars = buffer := by
  induction chars with
  | nil => rfl
  | cons char chars ih => rw [pushAll_cons, push_of_le full, ih]

theorem wrote_nil (buffer : TextBuffer) : buffer.Wrote [] buffer where
  offset_eq := rfl
  written := fun i below => absurd below (Nat.not_lt_zero i)
  others := fun _ _ => rfl

theorem Wrote.cons {chars : List Byte} {after : TextBuffer} {char : Byte}
    (wrote : Wrote ⟨update buffer.bytes buffer.offset char, buffer.offset + 1⟩ chars after) :
    buffer.Wrote (char :: chars) after where
  offset_eq := by
    rw [wrote.offset_eq, List.length_cons]
    dsimp only
    omega
  written := by
    intro i below
    cases i with
    | zero =>
        rw [List.getElem?_cons_zero, Nat.add_zero, wrote.others _ (.inl (Nat.lt_succ_self _))]
        simp
    | succ i =>
        rw [List.getElem?_cons_succ, wrote.written i (Nat.lt_of_succ_lt_succ below)]
        dsimp only
        rw [Nat.add_assoc, Nat.add_comm 1 i]
  others := by
    intro i outside
    rw [List.length_cons] at outside
    rw [wrote.others i (by dsimp only; omega)]
    exact update_of_ne (by omega) _ _

theorem wrote_pushAll (buffer : TextBuffer) (chars : List Byte) :
    buffer.Wrote (chars.take (limit - buffer.offset)) (pushAll limit buffer chars) := by
  induction chars generalizing buffer with
  | nil =>
      rw [List.take_nil, pushAll_nil]
      exact wrote_nil buffer
  | cons char chars ih =>
      by_cases room : buffer.offset < limit
      · have left : limit - buffer.offset = limit - (buffer.offset + 1) + 1 := by omega
        rw [left, List.take_succ_cons, pushAll_cons, push, if_pos room]
        apply Wrote.cons
        apply ih
      · have full : limit - buffer.offset = 0 := by omega
        rw [full, List.take_zero, pushAll_of_le (Nat.not_lt.mp room)]
        exact wrote_nil buffer

theorem wrote_pushAll_of_room {chars : List Byte} (room : buffer.offset + chars.length ≤ limit) :
    buffer.Wrote chars (pushAll limit buffer chars) := by
  have wrote := @wrote_pushAll limit buffer chars
  rwa [List.take_of_length_le (by omega)] at wrote

namespace Shows

section

variable (shows : Shows limit buffer shown)
include shows

theorem push_of_room (room : shown.length < limit) (char : Byte) :
    Shows limit (push limit buffer char) (shown ++ [char]) := by
  have offsetLt : buffer.offset < limit := by
    rw [shows.offset_eq]
    exact room
  rw [push, if_pos offsetLt]
  refine ⟨?_, ?_, ?_, ?_⟩
  · rw [List.length_append, List.length_singleton, shows.offset_eq]
  · rw [List.length_append, List.length_singleton]
    exact room
  · intro i below
    rw [List.length_append, List.length_singleton] at below
    dsimp only
    rcases Nat.lt_or_eq_of_le (Nat.lt_succ_iff.mp below) with earlier | rfl
    · rw [List.getElem?_append_left earlier, update_of_ne (by rw [shows.offset_eq]; omega)]
      exact shows.chars i earlier
    · rw [← shows.offset_eq, update_self, shows.offset_eq,
        List.getElem?_append_right (Nat.le_refl _), Nat.sub_self, List.getElem?_cons_zero]
  · intro i behind inside
    rw [List.length_append, List.length_singleton] at behind
    dsimp only
    rw [update_of_ne (by rw [shows.offset_eq]; omega)]
    exact shows.zeros i (by omega) inside

theorem pop (nonempty : shown ≠ []) :
    Shows limit ⟨update buffer.bytes (buffer.offset - 1) 0#8, buffer.offset - 1⟩
      shown.dropLast := by
  have positive : 0 < shown.length := List.length_pos_of_ne_nil nonempty
  have lengthLe := shows.length_le
  refine ⟨?_, ?_, ?_, ?_⟩
  · rw [List.length_dropLast, shows.offset_eq]
  · rw [List.length_dropLast]
    omega
  · intro i below
    rw [List.length_dropLast] at below
    dsimp only
    rw [List.getElem?_dropLast, if_pos below, update_of_ne (by rw [shows.offset_eq]; omega)]
    exact shows.chars i (by omega)
  · intro i behind inside
    rw [List.length_dropLast] at behind
    dsimp only
    rw [shows.offset_eq, update_apply]
    split
    · rfl
    · exact shows.zeros i (by omega) inside

theorem pushAll (chars : List Byte) :
    Shows limit (TextBuffer.pushAll limit buffer chars) ((shown ++ chars).take limit) := by
  induction chars generalizing buffer shown with
  | nil =>
      rw [pushAll_nil, List.append_nil, List.take_of_length_le shows.length_le]
      exact shows
  | cons char chars ih =>
      rw [pushAll_cons]
      rcases Nat.lt_or_eq_of_le shows.length_le with room | full
      · rw [← List.singleton_append, ← List.append_assoc]
        exact ih (shows.push_of_room room char)
      · rw [push_of_le (Nat.le_of_eq (full.symm.trans shows.offset_eq.symm))]
        have same := ih shows
        rwa [List.take_append_of_le_length (Nat.le_of_eq full.symm)] at same ⊢

/-- A zero byte ends the text, unless the text fills the buffer without one. -/
theorem exists_zero_iff :
    (∃ i < limit, buffer.bytes i = 0#8) ↔ shown.length < limit ∨ 0#8 ∈ shown := by
  constructor
  · rintro ⟨i, inside, isZero⟩
    by_cases below : i < shown.length
    · right
      have char := shows.chars i below
      rw [isZero] at char
      exact List.mem_of_getElem? char
    · left
      omega
  · rintro (room | member)
    · exact ⟨shown.length, room, shows.zeros _ (Nat.le_refl _) room⟩
    · obtain ⟨i, below, isZero⟩ := List.mem_iff_getElem.mp member
      have char := shows.chars i below
      rw [List.getElem?_eq_getElem below, isZero, Option.some.injEq] at char
      have lengthLe := shows.length_le
      exact ⟨i, by omega, char.symm⟩

/-- The buffer holds a text that leaves room and has no zero byte. -/
theorem holds (room : shown.length < limit) (noZero : 0#8 ∉ shown) : Holds buffer.bytes shown :=
  ⟨noZero, shows.chars, shows.zeros _ (Nat.le_refl _) room⟩

/-- A character other than zero in the buffer is one of the text. -/
theorem mem_of_ne_zero {i : Nat} (inside : i < limit) (nonzero : buffer.bytes i ≠ 0#8) :
    buffer.bytes i ∈ shown := by
  by_cases below : i < shown.length
  · exact List.mem_of_getElem? (shows.chars i below)
  · exact absurd (shows.zeros i (by omega) inside) nonzero

end

end Shows

end TextBuffer

end CString
