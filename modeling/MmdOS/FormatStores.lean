import MmdOS.FormattedOutput
import MmdOS.StoreTrace

/-!
# The stores of the formatter

Every routine of the formatter is followed store by store.  The routines have tests
of their own, and the callers store characters without them; none of them leaves the
buffer.

A string argument may point anywhere, even into the buffer.  The memory from which
strings are read is therefore another one for every directive.  Within a directive
each byte is read once, so that one memory is enough for it.
-/

namespace MmdOS

open CString StoreTrace

section Routines

def formatCharStores (c : Byte) (offset : Nat) : List (Nat × Byte) :=
  if offset < maxFormatted then [(offset, c)] else []

def formatStringLoopStores : (left : Nat) → (s : Stream) → (offset : Nat) → List (Nat × Byte)
  | 0, _, _ => []
  | left + 1, s, offset =>
      if s 0 ≠ 0#8 ∧ offset < maxFormatted then
        (offset, s 0) :: formatStringLoopStores left (advance 1 s) (offset + 1)
      else []

def formatStringStores (s : Stream) (offset : Nat) : List (Nat × Byte) :=
  formatStringLoopStores maxFormatted s offset

def writeNumberStores : List Byte → (offset : Nat) → List (Nat × Byte)
  | [], _ => []
  | digit :: digits, offset =>
      if offset < maxFormatted then (offset, digit) :: writeNumberStores digits (offset + 1)
      else []

def formatDecimalStores (integer : Int) (offset : Nat) : List (Nat × Byte) :=
  if integer = 0 then
    if offset < maxFormatted then [(offset, 0x30#8)] else []
  else writeNumberStores (decimalNumber (decimalLength 20 integer) integer).reverse offset

def formatUintStores (uint : Word) (offset : Nat) : List (Nat × Byte) :=
  formatDecimalStores (uint.toNat : Int) offset

def formatIntStores (integer : Word) (offset : Nat) : List (Nat × Byte) :=
  formatDecimalStores integer.toInt offset

/-- `format_hex`; the scratch buffer of `int_to_hex` is another one. -/
def formatHexStores (hexInt : Word) (offset : Nat) : List (Nat × Byte) :=
  formatStringStores (intToHex hexInt fun _ => 0#8) offset

end Routines

section Calls

variable (args : Nat → Word)

def formatHandlerStores (space : ByteSpace) (format : Byte) (state : FormatState) :
    List (Nat × Byte) :=
  match conversion format with
  | .int => formatIntStores (args state.taken) state.buffer.offset
  | .uint => formatUintStores (args state.taken) state.buffer.offset
  | .hex =>
      if state.buffer.offset + 2 < maxFormatted then
        (state.buffer.offset, 0x30#8) :: (state.buffer.offset + 1, 0x78#8) ::
          formatHexStores (args state.taken) (state.buffer.offset + 2)
      else []
  | .char => formatCharStores ((args state.taken).setWidth 8) state.buffer.offset
  | .string => formatStringStores (deref space (args state.taken)) state.buffer.offset
  | .nothing => []

/-- The first rounds of the loop of `vkprintf`, of `vklog` and of `panic`. -/
def formatLoopStores : (fuel : Nat) → (spaces : Nat → ByteSpace) → (fmt : Stream) → FormatState →
    List (Nat × Byte)
  | 0, _, _, _ => []
  | fuel + 1, spaces, fmt, state =>
      if fmt 0 ≠ 0#8 ∧ state.buffer.offset < maxFormatted then
        if fmt 0 = 0x25#8 then
          formatHandlerStores args (spaces 0) (fmt 1) state ++
            formatLoopStores fuel (fun round => spaces (round + 1)) (advance 2 fmt)
              (formatHandler (spaces 0) args (fmt 1) state)
        else
          (state.buffer.offset, fmt 0) ::
            formatLoopStores fuel (fun round => spaces (round + 1)) (advance 1 fmt)
              ⟨⟨Function.update state.buffer.bytes state.buffer.offset (fmt 0),
                state.buffer.offset + 1⟩, state.taken⟩
      else []

def prefixLoopStores : (left : Nat) → (newPrefix : Stream) → (i : Nat) → List (Nat × Byte)
  | 0, _, _ => []
  | left + 1, newPrefix, i =>
      if newPrefix 0 ≠ 0#8 then
        (i, newPrefix 0) :: prefixLoopStores left (advance 1 newPrefix) (i + 1)
      else []

/-- The first part of `vklog`, which stores in the array `prefix`. -/
def setPrefixStores (newPrefix : Option Stream) (logPrefix : Stream) : List (Nat × Byte) :=
  match newPrefix with
  | none => []
  | some newPrefix =>
      let i := (prefixLoop 30 newPrefix logPrefix 0).2
      prefixLoopStores 30 newPrefix 0 ++ [(i, 0x20#8), (i + 1, 0#8)]

variable (fuel : Nat) (spaces : Nat → ByteSpace) (stack fmt : Stream)

def vkprintfStores : List (Nat × Byte) :=
  fillStores maxFormatted 0#8 ++ formatLoopStores args fuel spaces fmt (startFormat stack)

/-- The buffer of `vklog`, which begins with the prefix. -/
def vklogStores (newPrefix : Option Stream) (logPrefix : Stream) : List (Nat × Byte) :=
  fillStores maxFormatted 0#8 ++ formatStringStores (setPrefix newPrefix logPrefix) 0 ++
    formatLoopStores args fuel spaces fmt (startLog stack newPrefix logPrefix)

def panicStores : List (Nat × Byte) :=
  fillStores maxFormatted 0#8 ++ formatLoopStores args fuel spaces fmt (startFormat stack)

end Calls

section Routines

variable (buffer : TextBuffer)

theorem stored_formatChar (c : Byte) :
    buffer.Stored maxFormatted (formatCharStores c buffer.offset) (formatChar c buffer) := by
  unfold formatCharStores formatChar
  split
  · next room => exact TextBuffer.stored_char room c
  · exact TextBuffer.stored_nil buffer

theorem stored_formatStringLoop (left : Nat) (s : Stream) :
    buffer.Stored maxFormatted (formatStringLoopStores left s buffer.offset)
      (formatStringLoop left s buffer) := by
  induction left generalizing s buffer with
  | zero => exact TextBuffer.stored_nil buffer
  | succ left induction =>
      rw [formatStringLoopStores, formatStringLoop]
      split
      · next more =>
        apply TextBuffer.Stored.cons more.2
        apply induction
      · exact TextBuffer.stored_nil buffer

theorem stored_formatString (s : Stream) :
    buffer.Stored maxFormatted (formatStringStores s buffer.offset) (formatString s buffer) :=
  stored_formatStringLoop buffer maxFormatted s

theorem stored_writeNumber (digits : List Byte) :
    buffer.Stored maxFormatted (writeNumberStores digits buffer.offset)
      (writeNumber digits buffer) := by
  induction digits generalizing buffer with
  | nil => exact TextBuffer.stored_nil buffer
  | cons digit digits induction =>
      rw [writeNumberStores, writeNumber]
      split
      · next room =>
        apply TextBuffer.Stored.cons room
        apply induction
      · exact TextBuffer.stored_nil buffer

theorem stored_formatDecimal (integer : Int) :
    buffer.Stored maxFormatted (formatDecimalStores integer buffer.offset)
      (formatDecimal integer buffer) := by
  unfold formatDecimalStores formatDecimal
  split
  · exact stored_formatChar buffer 0x30#8
  · apply stored_writeNumber

/-- The prefix of a hexadecimal number needs two bytes, and the test asks for three. -/
theorem stored_formatHex {buffer : TextBuffer} (room : buffer.offset + 2 < maxFormatted)
    (hexInt : Word) :
    buffer.Stored maxFormatted
      ((buffer.offset, 0x30#8) :: (buffer.offset + 1, 0x78#8) ::
        formatHexStores hexInt (buffer.offset + 2))
      (formatHex hexInt
        ⟨Function.update (Function.update buffer.bytes buffer.offset 0x30#8) (buffer.offset + 1)
          0x78#8, buffer.offset + 2⟩) := by
  have first : buffer.offset < maxFormatted := by omega
  have second : buffer.offset + 1 < maxFormatted := by omega
  apply TextBuffer.Stored.cons first
  apply TextBuffer.Stored.cons second
  apply stored_formatString

end Routines

/-- A loop of 1024 rounds comes to the end of the string or of the buffer. -/
theorem formatStringLoopStores_add {left offset : Nat} (enough : maxFormatted ≤ left + offset)
    (more : Nat) (s : Stream) :
    formatStringLoopStores (left + more) s offset = formatStringLoopStores left s offset := by
  induction left generalizing s offset with
  | zero =>
      rw [Nat.zero_add] at enough ⊢
      cases more with
      | zero => rfl
      | succ more =>
          rw [formatStringLoopStores, formatStringLoopStores, if_neg]
          intro both
          omega
  | succ left induction =>
      rw [Nat.succ_add, formatStringLoopStores, formatStringLoopStores, induction (by omega)]

section Loop

variable {args : Nat → Word} {state : FormatState}

theorem stored_formatHandler (space : ByteSpace) (format : Byte) :
    state.buffer.Stored maxFormatted (formatHandlerStores args space format state)
      (formatHandler space args format state).buffer := by
  unfold formatHandlerStores formatHandler
  cases conversion format with
  | int => exact stored_formatDecimal state.buffer _
  | uint => exact stored_formatDecimal state.buffer _
  | hex =>
      dsimp only
      split
      · next room => exact stored_formatHex room _
      · exact TextBuffer.stored_nil state.buffer
  | char => exact stored_formatChar state.buffer _
  | string => exact stored_formatString state.buffer _
  | nothing => exact TextBuffer.stored_nil state.buffer

theorem formatLoopStores_inside (fuel : Nat) (spaces : Nat → ByteSpace) (fmt : Stream) :
    ∀ store ∈ formatLoopStores args fuel spaces fmt state,
      state.buffer.offset ≤ store.1 ∧ store.1 < maxFormatted := by
  induction fuel generalizing spaces fmt state with
  | zero =>
      intro store member
      cases member
  | succ fuel induction =>
      intro store member
      rw [formatLoopStores] at member
      split at member
      · next more =>
        split at member
        · have handled := @stored_formatHandler args state (spaces 0) (fmt 1)
          obtain here | later := List.mem_append.mp member
          · exact handled.inside store here
          · have inside := induction _ _ store later
            exact ⟨Nat.le_trans handled.grows inside.1, inside.2⟩
        · obtain rfl | later := List.mem_cons.mp member
          · exact ⟨Nat.le_refl _, more.2⟩
          · have inside := induction _ _ store later
            exact ⟨Nat.le_trans (Nat.le_succ _) inside.1, inside.2⟩
      · cases member

/-- Where the loop ends, the list has all its stores. -/
theorem stored_formatLoop {space : ByteSpace} {fuel : Nat} {fmt : Stream} {final : FormatState}
    (ended : formatLoop space args fuel fmt state = some final) :
    state.buffer.Stored maxFormatted (formatLoopStores args fuel (fun _ => space) fmt state)
      final.buffer := by
  induction fuel generalizing fmt state with
  | zero => cases ended
  | succ fuel induction =>
      rw [formatLoop] at ended
      rw [formatLoopStores]
      split at ended
      · next more =>
        rw [if_pos more]
        split at ended
        · next isPercent =>
          rw [if_pos isPercent]
          exact (stored_formatHandler space (fmt 1)).append (induction ended)
        · next notPercent =>
          rw [if_neg notPercent]
          exact TextBuffer.Stored.cons more.2 (induction ended)
      · next stops =>
        rw [if_neg stops, ← Option.some.inj ended]
        exact TextBuffer.stored_nil state.buffer

end Loop

section Calls

variable {args : Nat → Word} {space : ByteSpace} {fuel : Nat} {stack fmt logPrefix : Stream}
  {newPrefix : Option Stream} {bytes : Stream}

theorem replay_clear (stack : Stream) :
    replay (fillStores maxFormatted 0#8) stack = (TextBuffer.cleared maxFormatted stack).bytes :=
  replay_fillStores maxFormatted 0#8 stack

theorem replay_vkprintfStores (returned : vkprintf space stack fuel fmt args = some bytes) :
    replay (vkprintfStores args fuel (fun _ => space) stack fmt) stack = bytes := by
  obtain ⟨final, ended, rfl⟩ := vkprintf_eq_some.mp returned
  rw [vkprintfStores, replay_append, replay_clear]
  exact (stored_formatLoop ended).bytes.symm

theorem replay_vklogStores {left : Stream}
    (returned : vklog space stack fuel newPrefix logPrefix fmt args = some (bytes, left)) :
    replay (vklogStores args fuel (fun _ => space) stack fmt newPrefix logPrefix) stack = bytes := by
  obtain ⟨final, ended, rfl, -⟩ := vklog_eq_some.mp returned
  have begun := stored_formatString (TextBuffer.cleared maxFormatted stack)
    (setPrefix newPrefix logPrefix)
  have whole := (begun.append (stored_formatLoop ended)).bytes
  rw [vklogStores, List.append_assoc, replay_append, replay_clear]
  exact whole.symm

theorem prefixLoopStores_spec (left : Nat) (newPrefix logPrefix : Stream) (i : Nat) :
    replay (prefixLoopStores left newPrefix i) logPrefix =
        (prefixLoop left newPrefix logPrefix i).1 ∧
      (∀ store ∈ prefixLoopStores left newPrefix i, store.1 < i + left) ∧
      (prefixLoop left newPrefix logPrefix i).2 ≤ i + left := by
  induction left generalizing newPrefix logPrefix i with
  | zero => simp [prefixLoopStores, prefixLoop]
  | succ left induction =>
      rw [prefixLoopStores, prefixLoop]
      split
      · obtain ⟨copied, inside, indexLe⟩ := induction (advance 1 newPrefix)
          (Function.update logPrefix i (newPrefix 0)) (i + 1)
        refine ⟨copied, ?_, by omega⟩
        rw [List.forall_mem_cons]
        refine ⟨by dsimp only; omega, ?_⟩
        intro store member
        have before := inside store member
        omega
      · simp

theorem replay_setPrefixStores (newPrefix : Option Stream) (logPrefix : Stream) :
    replay (setPrefixStores newPrefix logPrefix) logPrefix = setPrefix newPrefix logPrefix := by
  cases newPrefix with
  | none => rfl
  | some newPrefix =>
      have copied := (prefixLoopStores_spec 30 newPrefix logPrefix 0).1
      simp only [setPrefixStores, setPrefix, replay_append, copied, replay_cons, replay_nil]

/-- The prefix, a blank and a zero byte fit into 32 bytes. -/
theorem setPrefixStores_inside (newPrefix : Option Stream) (logPrefix : Stream) :
    ∀ store ∈ setPrefixStores newPrefix logPrefix, store.1 < 32 := by
  cases newPrefix with
  | none => simp [setPrefixStores]
  | some newPrefix =>
      obtain ⟨-, inside, indexLe⟩ := prefixLoopStores_spec 30 newPrefix logPrefix 0
      intro store member
      obtain copied | ended := List.mem_append.mp member
      · have before := inside store copied
        omega
      · simp only [List.mem_cons, List.not_mem_nil, or_false] at ended
        obtain rfl | rfl := ended
        · dsimp only
          omega
        · dsimp only
          omega

theorem replay_panicStores {printStack logStack printed : Stream} {prodMode : Bool}
    {printArgs logArgs : Nat → Word} {logged : Option Stream}
    (returned : panic space stack printStack logStack prodMode fuel logPrefix fmt args printArgs
      logArgs = some (printed, logged)) :
    ∃ message left, replay (panicStores args fuel (fun _ => space) stack fmt) stack = message ∧
      kprintf space printStack fuel message printArgs = some printed ∧
      klog space logStack prodMode fuel none logPrefix message logArgs = some (logged, left) := by
  rw [panic, Option.bind_eq_bind, Option.bind_eq_some_iff] at returned
  obtain ⟨final, ended, returned⟩ := returned
  obtain ⟨printed', prints, returned⟩ := Option.bind_eq_some_iff.mp returned
  obtain ⟨⟨logged', left⟩, logs, both⟩ := Option.bind_eq_some_iff.mp returned
  cases both
  refine ⟨final.buffer.bytes, left, ?_, prints, logs⟩
  rw [panicStores, replay_append, replay_clear]
  exact (stored_formatLoop ended).bytes.symm

/-- The stores of `format_handler` are between the offset and the end of the buffer, and
the new offset is there too.  The three functions that call it store in their buffers
only, and `vklog` in the array of the prefix, for every format and whatever the arguments
are.  With these stores they make the text that they print and log, and `panic` the
message that it hands to `kprintf` and `klog`. -/
theorem formatter_stores_inside (args : Nat → Word) {state : FormatState}
    (offsetLe : state.buffer.offset ≤ maxFormatted) (space : ByteSpace) (format : Byte)
    (fuel : Nat) (spaces : Nat → ByteSpace) (stack fmt logPrefix : Stream)
    (newPrefix : Option Stream) :
    ((∀ store ∈ formatHandlerStores args space format state,
        state.buffer.offset ≤ store.1 ∧ store.1 < maxFormatted) ∧
      (formatHandler space args format state).buffer.bytes =
        replay (formatHandlerStores args space format state) state.buffer.bytes ∧
      state.buffer.offset ≤ (formatHandler space args format state).buffer.offset ∧
      (formatHandler space args format state).buffer.offset ≤ maxFormatted) ∧
    ((∀ store ∈ vkprintfStores args fuel spaces stack fmt, store.1 < maxFormatted) ∧
      ∀ bytes, vkprintf space stack fuel fmt args = some bytes →
        replay (vkprintfStores args fuel (fun _ => space) stack fmt) stack = bytes) ∧
    ((∀ store ∈ vklogStores args fuel spaces stack fmt newPrefix logPrefix,
        store.1 < maxFormatted) ∧
      (∀ store ∈ setPrefixStores newPrefix logPrefix, store.1 < 32) ∧
      ∀ bytes left, vklog space stack fuel newPrefix logPrefix fmt args = some (bytes, left) →
        replay (vklogStores args fuel (fun _ => space) stack fmt newPrefix logPrefix) stack =
            bytes ∧
          replay (setPrefixStores newPrefix logPrefix) logPrefix = left) ∧
    (∀ store ∈ panicStores args fuel spaces stack fmt, store.1 < maxFormatted) ∧
    ∀ printStack logStack prodMode printArgs logArgs printed logged,
      panic space stack printStack logStack prodMode fuel logPrefix fmt args printArgs logArgs =
        some (printed, logged) →
      ∃ message left, replay (panicStores args fuel (fun _ => space) stack fmt) stack = message ∧
        kprintf space printStack fuel message printArgs = some printed ∧
        klog space logStack prodMode fuel none logPrefix message logArgs = some (logged, left) := by
  have handled := @stored_formatHandler args state space format
  have printed : ∀ store ∈ vkprintfStores args fuel spaces stack fmt, store.1 < maxFormatted := by
    intro store member
    obtain cleared | looped := List.mem_append.mp member
    · exact lt_of_mem_fillStores cleared
    · exact (formatLoopStores_inside fuel spaces fmt store looped).2
  refine ⟨⟨handled.inside, handled.bytes, handled.grows, handled.fits offsetLe⟩,
    ⟨printed, fun _ => replay_vkprintfStores⟩,
    ⟨?_, setPrefixStores_inside newPrefix logPrefix, ?_⟩, printed,
    fun _ _ _ _ _ _ _ => replay_panicStores⟩
  · intro store member
    obtain begun | looped := List.mem_append.mp member
    · obtain cleared | shown := List.mem_append.mp begun
      · exact lt_of_mem_fillStores cleared
      · exact ((stored_formatString (TextBuffer.cleared maxFormatted stack) _).inside store
          shown).2
    · exact (formatLoopStores_inside fuel spaces fmt store looped).2
  · intro bytes left returned
    obtain ⟨final, -, -, leftEq⟩ := vklog_eq_some.mp returned
    exact ⟨replay_vklogStores returned, (replay_setPrefixStores newPrefix logPrefix).trans leftEq⟩

theorem formatter_stores_last_byte :
    formatHandlerStores (fun _ => 0#64) (fun _ => 0x61#8) 0x73#8 ⟨⟨fun _ => 0#8, 1023⟩, 0⟩ =
        [(1023, 0x61#8)] ∧
      (formatHandler (fun _ => 0x61#8) (fun _ => 0#64) 0x73#8
        ⟨⟨fun _ => 0#8, 1023⟩, 0⟩).buffer.offset ≤ maxFormatted := by
  have inside := @formatter_stores_inside (fun _ => 0#64)
    ⟨⟨fun _ => 0#8, 1023⟩, 0⟩ (by decide) (fun _ => 0x61#8) 0x73#8 0
    (fun _ _ => 0#8) (fun _ => 0#8) (fun _ => 0#8) (fun _ => 0#8) none
  exact ⟨by decide, inside.1.2.2.2⟩

end Calls

end MmdOS
