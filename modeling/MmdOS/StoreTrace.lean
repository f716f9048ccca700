import MmdOS.TextBuffer

/-!
# What is stored in a buffer

The stores of a program are listed with the position and the value of each of them,
and the list can be replayed on an array.  A part of a program that fills a text
buffer stores between its offset and the end of the buffer, and moves the offset no
further than to the end.
-/

namespace StoreTrace

variable {α : Type*}

def replay (stores : List (Nat × α)) (cells : Nat → α) : Nat → α :=
  stores.foldl (fun cells store => Function.update cells store.1 store.2) cells

@[simp]
theorem replay_nil (cells : Nat → α) : replay [] cells = cells :=
  rfl

@[simp]
theorem replay_cons (store : Nat × α) (stores : List (Nat × α)) (cells : Nat → α) :
    replay (store :: stores) cells =
      replay stores (Function.update cells store.1 store.2) :=
  rfl

theorem replay_append (first second : List (Nat × α)) (cells : Nat → α) :
    replay (first ++ second) cells = replay second (replay first cells) := by
  simp [replay]

def fillStores (count : Nat) (value : α) : List (Nat × α) :=
  (List.range count).map fun position => (position, value)

theorem replay_fillStores (count : Nat) (value : α) (cells : Nat → α) :
    replay (fillStores count value) cells =
      fun position => if position < count then value else cells position := by
  induction count with
  | zero => rfl
  | succ count induction =>
      rw [fillStores, List.range_succ, List.map_append, replay_append, ← fillStores, induction]
      funext position
      simp only [List.map_cons, List.map_nil, replay_cons, replay_nil, Function.update_apply]
      by_cases last : position = count
      · simp [last]
      · have before : position < count + 1 ↔ position < count := by omega
        simp [last, before]

theorem lt_of_mem_fillStores {count : Nat} {value : α} {store : Nat × α}
    (member : store ∈ fillStores count value) : store.1 < count := by
  obtain ⟨position, inRange, rfl⟩ := List.mem_map.mp member
  exact List.mem_range.mp inRange

end StoreTrace

namespace CString.TextBuffer

open StoreTrace

/-- The stores lead from one buffer to the next, inside the room that is left. -/
structure Stored (limit : Nat) (buffer : TextBuffer) (stores : List (Nat × Byte))
    (after : TextBuffer) : Prop where
  bytes : after.bytes = replay stores buffer.bytes
  inside : ∀ store ∈ stores, buffer.offset ≤ store.1 ∧ store.1 < limit
  grows : buffer.offset ≤ after.offset
  fits : buffer.offset ≤ limit → after.offset ≤ limit

variable {limit : Nat} {buffer middle after : TextBuffer} {first second : List (Nat × Byte)}

theorem stored_nil (buffer : TextBuffer) : Stored limit buffer [] buffer where
  bytes := rfl
  inside := fun _ member => absurd member List.not_mem_nil
  grows := Nat.le_refl _
  fits := id

theorem Stored.append (before : Stored limit buffer first middle)
    (later : Stored limit middle second after) : Stored limit buffer (first ++ second) after where
  bytes := by rw [later.bytes, before.bytes, replay_append]
  inside := by
    intro store member
    obtain here | there := List.mem_append.mp member
    · exact before.inside store here
    · have inside := later.inside store there
      exact ⟨Nat.le_trans before.grows inside.1, inside.2⟩
  grows := Nat.le_trans before.grows later.grows
  fits := fun room => later.fits (before.fits room)

theorem stored_char (room : buffer.offset < limit) (char : Byte) :
    Stored limit buffer [(buffer.offset, char)]
      ⟨Function.update buffer.bytes buffer.offset char, buffer.offset + 1⟩ where
  bytes := rfl
  inside := by
    intro store member
    rw [List.mem_singleton.mp member]
    exact ⟨Nat.le_refl _, room⟩
  grows := Nat.le_succ _
  fits := fun _ => room

theorem Stored.cons {char : Byte} (room : buffer.offset < limit)
    (later : Stored limit ⟨Function.update buffer.bytes buffer.offset char, buffer.offset + 1⟩
      second after) :
    Stored limit buffer ((buffer.offset, char) :: second) after :=
  (stored_char room char).append later

end CString.TextBuffer
