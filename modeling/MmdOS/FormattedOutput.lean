import MmdOS.FormatRuns
import MmdOS.UstarLookup

/-!
# Printing, logging and panics

`vkprintf`, `vklog` and `panic` format into a zeroed buffer on the stack, which
`vklog` begins with its prefix.  The system call `print` passes the string of a
program as the format, without arguments, so that a directive in it takes what the
registers and the stack hold.
-/

namespace MmdOS

open CString
open Function (update update_self update_of_ne)

/-- The loop that copies a new prefix, with `left` of its characters left. -/
def prefixLoop : (left : Nat) → (newPrefix logPrefix : Stream) → (i : Nat) → Stream × Nat
  | 0, _, logPrefix, i => (logPrefix, i)
  | left + 1, newPrefix, logPrefix, i =>
      if newPrefix 0 ≠ 0#8 then
        prefixLoop left (advance 1 newPrefix) (update logPrefix i (newPrefix 0)) (i + 1)
      else (logPrefix, i)

/-- The prefix after the first part of `vklog`; `LOGGER_PREFIX_LENGTH` is 32. -/
def setPrefix (newPrefix : Option Stream) (logPrefix : Stream) : Stream :=
  match newPrefix with
  | none => logPrefix
  | some newPrefix =>
      let (logPrefix, i) := prefixLoop 30 newPrefix logPrefix 0
      update (update logPrefix i 0x20#8) (i + 1) 0#8

section Calls

variable (space : ByteSpace) (stack : Stream)

def startFormat : FormatState :=
  ⟨TextBuffer.cleared maxFormatted stack, 0⟩

def startLog (newPrefix : Option Stream) (logPrefix : Stream) : FormatState :=
  ⟨formatString (setPrefix newPrefix logPrefix) (TextBuffer.cleared maxFormatted stack), 0⟩

/-- `vkprintf`: what it passes to `limine_write`. -/
def vkprintf (fuel : Nat) (fmt : Stream) (args : Nat → Word) : Option Stream := do
  let final ← formatLoop space args fuel fmt (startFormat stack)
  some final.buffer.bytes

def kprintf (fuel : Nat) (fmt : Stream) (args : Nat → Word) : Option Stream :=
  vkprintf space stack fuel fmt args

/-- `print_syscall`; nothing is passed for the arguments of the format. -/
def printSyscall (fuel : Nat) (str : Stream) (registers : Nat → Word) : Option Stream :=
  kprintf space stack fuel str registers

/-- `vklog`: what it passes to `log_to_serial`, and the prefix that it leaves. -/
def vklog (fuel : Nat) (newPrefix : Option Stream) (logPrefix fmt : Stream) (args : Nat → Word) :
    Option (Stream × Stream) := do
  let final ← formatLoop space args fuel fmt (startLog stack newPrefix logPrefix)
  some (final.buffer.bytes, setPrefix newPrefix logPrefix)

def klog (prodMode : Bool) (fuel : Nat) (newPrefix : Option Stream) (logPrefix fmt : Stream)
    (args : Nat → Word) : Option (Option Stream × Stream) :=
  if prodMode then some (none, logPrefix)
  else do
    let (buffer, logPrefix) ← vklog space stack fuel newPrefix logPrefix fmt args
    some (some buffer, logPrefix)

/-- `panic`: what it prints and logs before it halts.  The formatted message is
the format of both calls, which have stacks and arguments of their own. -/
def panic (printStack logStack : Stream) (prodMode : Bool) (fuel : Nat) (logPrefix fmt : Stream)
    (args printArgs logArgs : Nat → Word) : Option (Stream × Option Stream) := do
  let final ← formatLoop space args fuel fmt (startFormat stack)
  let printed ← kprintf space printStack fuel final.buffer.bytes printArgs
  let (logged, _) ← klog space logStack prodMode fuel none logPrefix final.buffer.bytes logArgs
  some (printed, logged)

def vkprintfReads (fuel : Nat) (fmt : Stream) (args : Nat → Word) : List Nat :=
  formatReads space args fuel 0 fmt (startFormat stack)

def vklogReads (fuel : Nat) (newPrefix : Option Stream) (logPrefix fmt : Stream)
    (args : Nat → Word) : List Nat :=
  formatReads space args fuel 0 fmt (startLog stack newPrefix logPrefix)

def panicReads (fuel : Nat) (fmt : Stream) (args : Nat → Word) : List Nat :=
  formatReads space args fuel 0 fmt (startFormat stack)

end Calls

def logStart (newPrefix : Option Stream) (logPrefix : Stream) : Formatted :=
  ⟨text maxFormatted (setPrefix newPrefix logPrefix), 0⟩

section Start

variable (stack : Stream)

theorem startFormat_shows : (startFormat stack).Shows ⟨[], 0⟩ :=
  ⟨TextBuffer.shows_cleared stack, rfl⟩

theorem startLog_shows (newPrefix : Option Stream) (logPrefix : Stream) :
    (startLog stack newPrefix logPrefix).Shows (logStart newPrefix logPrefix) := by
  refine ⟨?_, rfl⟩
  have written := (@TextBuffer.shows_cleared maxFormatted stack).pushAll
    (text maxFormatted (setPrefix newPrefix logPrefix))
  rw [List.nil_append, List.take_of_length_le (length_text_le _ _), ← formatString_eq] at written
  exact written

end Start

section NewPrefix

theorem prefixLoop_eq (left : Nat) (newPrefix logPrefix : Stream) (i : Nat) :
    (prefixLoop left newPrefix logPrefix i).2 = i + (text left newPrefix).length ∧
      ∀ k, (prefixLoop left newPrefix logPrefix i).1 k =
        if i ≤ k ∧ k < i + (text left newPrefix).length then newPrefix (k - i)
        else logPrefix k := by
  induction left generalizing newPrefix logPrefix i with
  | zero =>
      refine ⟨rfl, fun k => ?_⟩
      rw [text, List.length_nil, if_neg (by omega)]
      rfl
  | succ left ih =>
      rw [prefixLoop]
      by_cases ends : newPrefix 0 = 0#8
      · rw [if_neg (not_not.mpr ends), text_succ_of_zero ends, List.length_nil]
        refine ⟨rfl, fun k => ?_⟩
        rw [if_neg (by omega)]
      · rw [if_pos ends, text_succ_of_ne ends, List.length_cons]
        obtain ⟨indexEq, bytes⟩ := ih (advance 1 newPrefix)
          (update logPrefix i (newPrefix 0)) (i + 1)
        refine ⟨by omega, fun k => ?_⟩
        rw [bytes k]
        rcases Nat.lt_trichotomy k i with before | rfl | behind
        · rw [if_neg (by omega), if_neg (by omega), update_of_ne (by omega)]
        · rw [if_neg (by omega), if_pos (by omega), update_self, Nat.sub_self]
        · rw [update_of_ne (by omega)]
          by_cases inside : k < i + 1 + (text left (advance 1 newPrefix)).length
          · rw [if_pos (by omega), if_pos (by omega), advance_apply]
            exact congrArg newPrefix (by omega)
          · rw [if_neg (by omega), if_neg (by omega)]

theorem logStart_new (newPrefix logPrefix : Stream) :
    logStart (some newPrefix) logPrefix = ⟨text 30 newPrefix ++ [0x20#8], 0⟩ := by
  obtain ⟨indexEq, copied⟩ := prefixLoop_eq 30 newPrefix logPrefix 0
  have lengthLe := length_text_le 30 newPrefix
  rw [Nat.zero_add] at indexEq
  rw [logStart, Formatted.mk.injEq, setPrefix, text_eq_iff, List.length_append,
    List.length_singleton]
  refine ⟨?_, rfl⟩
  dsimp only
  rw [indexEq]
  refine ⟨Nat.le_trans (Nat.succ_le_succ lengthLe) (by decide), ?_, ?_, ?_⟩
  · rw [List.mem_append, not_or]
    exact ⟨zero_notMem_text 30 newPrefix, by decide⟩
  · intro i below
    rcases Nat.lt_or_eq_of_le (Nat.lt_succ_iff.mp below) with earlier | rfl
    · rw [List.getElem?_append_left earlier, update_of_ne (by omega),
        update_of_ne (by omega), copied, if_pos (by omega), Nat.sub_zero]
      exact getElem?_text earlier
    · rw [List.getElem?_append_right (Nat.le_refl _), Nat.sub_self, List.getElem?_cons_zero,
        update_of_ne (by omega), update_self]
  · intro _
    rw [update_self]

end NewPrefix

section Reads

variable {space : ByteSpace} {args : Nat → Word} {fmt stack logPrefix : Stream}
  {newPrefix : Option Stream} {state : FormatState} {formatted : Formatted} {string : List Byte}

theorem FormatState.Shows.reads_inside_iff (shows : state.Shows formatted)
    (holds : Holds fmt string) :
    (∀ fuel, ∀ read ∈ formatReads space args fuel 0 fmt state, read ≤ string.length) ↔
      ¬ Overruns space args formatted string := by
  constructor
  · intro inside overruns
    obtain ⟨fuel, member⟩ := @FormatState.Shows.reads_behind space args _ _ _ _ 0 shows holds overruns
    have le := inside fuel _ member
    omega
  · intro within fuel read member
    have le := shows.reads_le holds within read member
    omega

/-- What the call computes depends on no other position of the format. -/
def DependsOn {Result : Type} (call : Stream → Result) (fmt : Stream) (positions : List Nat) :
    Prop :=
  ∀ other : Stream, (∀ position ∈ positions, other position = fmt position) →
    call other = call fmt

theorem formatLoop_dependsOn (fuel : Nat) (fmt : Stream) (state : FormatState) :
    DependsOn (fun fmt => formatLoop space args fuel fmt state) fmt
      (formatReads space args fuel 0 fmt state) :=
  fun _ agree => @formatLoop_congr space args state fuel 0 fmt _ agree

/-- None of the three loops reads behind the format unless it ends in a percent
sign of its own, and there is room for more text when this is reached.  The
positions that they read are all that the calls depend on. -/
theorem format_reads_inside_iff (holds : Holds fmt string) :
    ((∀ fuel, ∀ read ∈ vkprintfReads space stack fuel fmt args, read ≤ string.length) ↔
      ¬ Overruns space args ⟨[], 0⟩ string) ∧
    ((∀ fuel, ∀ read ∈ vklogReads space stack fuel newPrefix logPrefix fmt args,
        read ≤ string.length) ↔
      ¬ Overruns space args (logStart newPrefix logPrefix) string) ∧
    ((∀ fuel, ∀ read ∈ panicReads space stack fuel fmt args, read ≤ string.length) ↔
      ¬ Overruns space args ⟨[], 0⟩ string) ∧
    ∀ fuel,
      DependsOn (fun fmt => vkprintf space stack fuel fmt args) fmt
        (vkprintfReads space stack fuel fmt args) ∧
      DependsOn (fun fmt => vklog space stack fuel newPrefix logPrefix fmt args) fmt
        (vklogReads space stack fuel newPrefix logPrefix fmt args) ∧
      ∀ printStack logStack prodMode printArgs logArgs,
        DependsOn (fun fmt => panic space stack printStack logStack prodMode fuel logPrefix fmt args
          printArgs logArgs) fmt (panicReads space stack fuel fmt args) := by
  refine ⟨(startFormat_shows stack).reads_inside_iff holds,
    (startLog_shows stack newPrefix logPrefix).reads_inside_iff holds,
    (startFormat_shows stack).reads_inside_iff holds, fun fuel => ⟨?_, ?_, ?_⟩⟩
  · intro other agree
    have looped := formatLoop_dependsOn fuel fmt (startFormat stack) other agree
    dsimp only at looped ⊢
    rw [vkprintf, vkprintf, looped]
  · intro other agree
    have looped := formatLoop_dependsOn fuel fmt (startLog stack newPrefix logPrefix) other agree
    dsimp only at looped ⊢
    rw [vklog, vklog, looped]
  · intro printStack logStack prodMode printArgs logArgs other agree
    have looped := formatLoop_dependsOn fuel fmt (startFormat stack) other agree
    dsimp only at looped ⊢
    rw [panic, panic, looped]

/-- A format that ends in the directive `%u`. -/
theorem format_reads_directive_inside :
    (∀ fuel, ∀ read ∈ vkprintfReads (fun _ => 0#8) (fun _ => 0#8) fuel
        (stringStream [0x61#8, 0x25#8, 0x75#8]) (fun _ => 42#64), read ≤ 3) ∧
      (∀ fuel, ∀ read ∈ vklogReads (fun _ => 0#8) (fun _ => 0#8) fuel none (fun _ => 0#8)
        (stringStream [0x61#8, 0x25#8, 0x75#8]) (fun _ => 42#64), read ≤ 3) ∧
      ∀ fuel, ∀ read ∈ panicReads (fun _ => 0#8) (fun _ => 0#8) fuel
        (stringStream [0x61#8, 0x25#8, 0x75#8]) (fun _ => 42#64), read ≤ 3 := by
  have inside := @format_reads_inside_iff (fun _ => 0#8) (fun _ => 42#64)
    (stringStream [0x61#8, 0x25#8, 0x75#8]) (fun _ => 0#8) (fun _ => 0#8) none
    [0x61#8, 0x25#8, 0x75#8] (holds_stringStream (by decide))
  have notPercent : endsInPercent [0x61#8, 0x25#8, 0x75#8] ≠ true := by decide
  exact ⟨inside.1.mpr fun overruns => notPercent overruns.1,
    inside.2.1.mpr fun overruns => notPercent overruns.1,
    inside.2.2.1.mpr fun overruns => notPercent overruns.1⟩

/-- Behind a single percent sign, all of them read on. -/
theorem format_reads_behind_percent :
    Holds (stringStream [0x25#8]) [0x25#8] ∧
      2 ∈ vkprintfReads (fun _ => 0#8) (fun _ => 0#8) 2 (stringStream [0x25#8]) (fun _ => 0#64) ∧
      2 ∈ vklogReads (fun _ => 0#8) (fun _ => 0#8) 2 none (fun _ => 0#8) (stringStream [0x25#8])
        (fun _ => 0#64) ∧
      2 ∈ panicReads (fun _ => 0#8) (fun _ => 0#8) 2 (stringStream [0x25#8]) (fun _ => 0#64) :=
  ⟨holds_stringStream (by decide), by decide, by decide, by decide⟩

end Reads

section Termination

variable {space : ByteSpace} {args : Nat → Word} {stack logPrefix : Stream}
  {newPrefix : Option Stream} {state : FormatState} {formatted : Formatted} {string : List Byte}

def NulInside (buffer : Stream) : Prop :=
  ∃ i < maxFormatted, buffer i = 0#8

variable (space args) in
/-- The text has a zero byte, or it leaves room for one and is all that the walk
writes. -/
def EndsInside (formatted : Formatted) (string : List Byte) : Prop :=
  0#8 ∈ (expand space args formatted string).shown ∨
    (expand space args formatted string).shown.length < maxFormatted ∧
      endsInPercent string = false

theorem FormatState.Shows.returns {fmt : Stream} (shows : state.Shows formatted)
    (holds : Holds fmt string) (within : ¬ Overruns space args formatted string) :
    ∃ final rounds, final.buffer.Shows maxFormatted (expand space args formatted string).shown ∧
      ∀ fuel, formatLoop space args (fuel + rounds) fmt state = some final := by
  obtain ⟨final, shown, rounds, ⟨beyond, -, -⟩ | ⟨-, loops⟩⟩ :=
    @FormatState.Shows.walk space args _ _ _ _ shows holds
  · exact absurd beyond within
  · exact ⟨final, rounds, shown, loops⟩

theorem notMem_letters {char : Byte} (different : char ≠ 0x61#8) :
    char ∉ List.replicate maxFormatted 0x61#8 :=
  fun member => different (List.eq_of_mem_replicate member)

/-- As many letters as there are bytes fill the buffer behind any text. -/
theorem FormatState.Shows.fills (shows : state.Shows formatted)
    (noZero : 0#8 ∉ formatted.shown) :
    ∃ final rounds, ¬ NulInside final.buffer.bytes ∧
      ∀ fuel, formatLoop space args (fuel + rounds)
        (stringStream (List.replicate maxFormatted 0x61#8)) state = some final := by
  have noPercent : 0x25#8 ∉ List.replicate maxFormatted 0x61#8 := notMem_letters (by decide)
  have noZeros : 0#8 ∉ List.replicate maxFormatted 0x61#8 := notMem_letters (by decide)
  obtain ⟨final, rounds, shown, loops⟩ := @FormatState.Shows.returns space args _ _ _ _ shows
    (holds_stringStream noZeros) fun overruns => by
      rw [Overruns, endsInPercent_of_noPercent noPercent] at overruns
      exact absurd overruns.1 (by decide)
  rw [expand_of_noPercent shows.buffer.length_le noPercent] at shown
  refine ⟨final, rounds, fun inside => ?_, loops⟩
  rcases shown.exists_zero_iff.mp inside with room | member
  · rw [Formatted.add, List.length_take, List.length_append, List.length_replicate] at room
    omega
  · rcases List.mem_append.mp (List.mem_of_mem_take member) with first | second
    · exact noZero first
    · exact noZeros second

theorem FormatState.Shows.terminated_iff (shows : state.Shows formatted) (noZero : 0#8 ∉ string) :
    (∀ fmt, Holds fmt string → ∀ fuel final, formatLoop space args fuel fmt state = some final →
      NulInside final.buffer.bytes) ↔ EndsInside space args formatted string := by
  constructor
  · intro terminated
    by_contra notInside
    rw [EndsInside, not_or] at notInside
    obtain ⟨noMember, notShort⟩ := notInside
    by_cases beyond : Overruns space args formatted string
    · -- what stands behind the terminator fills the buffer
      have holds := holds_stringStream_append noZero (List.replicate maxFormatted 0x61#8)
      obtain ⟨middle, -, rounds, ⟨-, middleShows, walked⟩ | ⟨within, -⟩⟩ :=
        @FormatState.Shows.walk space args _ _ _ _ shows holds
      · rw [advance_stringStream_append] at walked
        obtain ⟨final, more, notInside, loops⟩ :=
          @FormatState.Shows.fills space args _ _ middleShows noMember
        have returned := walked (0 + more)
        rw [loops] at returned
        exact notInside (terminated _ holds _ final returned)
      · exact within beyond
    · have holds := holds_stringStream noZero
      obtain ⟨final, rounds, shown, loops⟩ := shows.returns holds beyond
      rcases shown.exists_zero_iff.mp (terminated _ holds _ final (loops 0)) with room | member
      · refine notShort ⟨room, ?_⟩
        rw [Bool.eq_false_iff]
        exact fun ends => beyond ⟨ends, room⟩
      · exact noMember member
  · intro inside fmt holds fuel final returned
    obtain ⟨middle, shown, rounds, ends⟩ := @FormatState.Shows.walk space args _ _ _ _ shows holds
    have later := formatLoop_mono returned rounds
    rcases ends with ⟨beyond, middleShows, walked⟩ | ⟨-, loops⟩
    · rw [walked] at later
      obtain ⟨all, finalShows, isPrefix⟩ := middleShows.kept later
      rcases inside with member | ⟨-, notPercent⟩
      · exact finalShows.exists_zero_iff.mpr (.inr (isPrefix.subset member))
      · exact absurd (beyond.1.symm.trans notPercent) (by decide)
    · rw [loops, Option.some.injEq] at later
      rw [← later]
      rcases inside with member | ⟨room, -⟩
      · exact shown.exists_zero_iff.mpr (.inr member)
      · exact shown.exists_zero_iff.mpr (.inl room)

theorem vkprintf_eq_some {fuel : Nat} {fmt buffer : Stream} :
    vkprintf space stack fuel fmt args = some buffer ↔
      ∃ final, formatLoop space args fuel fmt (startFormat stack) = some final ∧
        final.buffer.bytes = buffer := by
  rw [vkprintf, Option.bind_eq_bind, Option.bind_eq_some_iff]
  simp only [Option.some.injEq]

theorem vklog_eq_some {fuel : Nat} {fmt buffer left : Stream} :
    vklog space stack fuel newPrefix logPrefix fmt args = some (buffer, left) ↔
      ∃ final, formatLoop space args fuel fmt (startLog stack newPrefix logPrefix) = some final ∧
        final.buffer.bytes = buffer ∧ setPrefix newPrefix logPrefix = left := by
  rw [vklog, Option.bind_eq_bind, Option.bind_eq_some_iff]
  simp only [Option.some.injEq, Prod.mk.injEq]

/-- The buffers of `vkprintf` and of `vklog` have a zero byte, whatever stands
behind the format, just where the text ends inside the buffer.  Both return if the
format does not end in a percent sign. -/
theorem format_terminated_iff (noZero : 0#8 ∉ string) :
    ((∀ fmt, Holds fmt string → ∀ fuel buffer,
        vkprintf space stack fuel fmt args = some buffer → NulInside buffer) ↔
      EndsInside space args ⟨[], 0⟩ string) ∧
    ((∀ fmt, Holds fmt string → ∀ fuel buffer left,
        vklog space stack fuel newPrefix logPrefix fmt args = some (buffer, left) →
          NulInside buffer) ↔
      EndsInside space args (logStart newPrefix logPrefix) string) ∧
    (endsInPercent string = false → ∀ fmt, Holds fmt string → ∃ rounds, ∀ fuel,
      (vkprintf space stack (fuel + rounds) fmt args).isSome ∧
        (vklog space stack (fuel + rounds) newPrefix logPrefix fmt args).isSome) := by
  refine ⟨?_, ?_, ?_⟩
  · rw [← (startFormat_shows stack).terminated_iff noZero]
    constructor
    · intro terminated fmt holds fuel final returned
      exact terminated fmt holds fuel _ (vkprintf_eq_some.mpr ⟨final, returned, rfl⟩)
    · intro terminated fmt holds fuel buffer returned
      obtain ⟨final, looped, rfl⟩ := vkprintf_eq_some.mp returned
      exact terminated fmt holds fuel final looped
  · rw [← (startLog_shows stack newPrefix logPrefix).terminated_iff noZero]
    constructor
    · intro terminated fmt holds fuel final returned
      exact terminated fmt holds fuel _ _ (vklog_eq_some.mpr ⟨final, returned, rfl, rfl⟩)
    · intro terminated fmt holds fuel buffer left returned
      obtain ⟨final, looped, rfl, -⟩ := vklog_eq_some.mp returned
      exact terminated fmt holds fuel final looped
  · intro notPercent fmt holds
    have within : ∀ formatted, ¬ Overruns space args formatted string :=
      fun formatted overruns => absurd (notPercent.symm.trans overruns.1) (by decide)
    obtain ⟨printed, printRounds, -, prints⟩ :=
      (startFormat_shows stack).returns holds (within _)
    obtain ⟨logged, logRounds, -, logs⟩ :=
      (startLog_shows stack newPrefix logPrefix).returns holds (within _)
    refine ⟨printRounds + logRounds, fun fuel => ⟨?_, ?_⟩⟩
    · have enough : fuel + (printRounds + logRounds) = fuel + logRounds + printRounds := by omega
      rw [enough, vkprintf_eq_some.mpr ⟨printed, prints _, rfl⟩]
      rfl
    · rw [← Nat.add_assoc, vklog_eq_some.mpr ⟨logged, logs _, rfl, rfl⟩]
      rfl

/-- The format `a%u`, printed, and logged behind the new prefix `L`. -/
theorem format_terminates_directive :
    (∃ buffer, vkprintf (fun _ => 0#8) (fun _ => 0#8) 3 (stringStream [0x61#8, 0x25#8, 0x75#8])
        (fun _ => 42#64) = some buffer ∧ NulInside buffer) ∧
    ∃ buffer left, vklog (fun _ => 0#8) (fun _ => 0#8) 3 (some (stringStream [0x4c#8]))
        (fun _ => 0#8) (stringStream [0x61#8, 0x25#8, 0x75#8]) (fun _ => 42#64) =
          some (buffer, left) ∧ NulInside buffer := by
  have terminated := @format_terminated_iff (fun _ => 0#8) (fun _ => 42#64) (fun _ => 0#8)
    (fun _ => 0#8) (some (stringStream [0x4c#8])) [0x61#8, 0x25#8, 0x75#8] (by decide)
  have holds : Holds (stringStream [0x61#8, 0x25#8, 0x75#8]) [0x61#8, 0x25#8, 0x75#8] :=
    holds_stringStream (by decide)
  constructor
  · exact ⟨_, rfl, terminated.1.mpr (.inr ⟨by decide, by decide⟩) _ holds 3 _ rfl⟩
  · refine ⟨_, _, rfl, terminated.2.1.mpr (.inr ⟨?_, by decide⟩) _ holds 3 _ _ rfl⟩
    rw [logStart_new]
    decide

/-- A format of 1024 letters leaves no room for the terminator. -/
theorem format_fills_buffer :
    ∃ fmt rounds printed logged left, Holds fmt (List.replicate 1024 0x61#8) ∧
      (∀ fuel, vkprintf (fun _ => 0#8) (fun _ => 0#8) (fuel + rounds) fmt (fun _ => 0#64) =
        some printed) ∧ ¬ NulInside printed ∧
      (∀ fuel, vklog (fun _ => 0#8) (fun _ => 0#8) (fuel + rounds) none (fun _ => 0#8) fmt
        (fun _ => 0#64) = some (logged, left)) ∧ ¬ NulInside logged := by
  obtain ⟨printed, printRounds, printFull, prints⟩ := @FormatState.Shows.fills (fun _ => 0#8)
    (fun _ => 0#64) _ _ (startFormat_shows fun _ => 0#8) (by decide)
  obtain ⟨logged, logRounds, logFull, logs⟩ := @FormatState.Shows.fills (fun _ => 0#8)
    (fun _ => 0#64) _ _ (startLog_shows (fun _ => 0#8) none fun _ => 0#8) (by decide)
  refine ⟨_, printRounds + logRounds, printed.buffer.bytes, logged.buffer.bytes,
    setPrefix none fun _ => 0#8, holds_stringStream (notMem_letters (by decide)), fun fuel => ?_,
    printFull, fun fuel => ?_, logFull⟩
  · have enough : fuel + (printRounds + logRounds) = fuel + logRounds + printRounds := by omega
    rw [enough]
    exact vkprintf_eq_some.mpr ⟨printed, prints _, rfl⟩
  · rw [← Nat.add_assoc]
    exact vklog_eq_some.mpr ⟨logged, logs _, rfl, rfl⟩

end Termination

section Transparency

variable {string : List Byte}

/-- Without a percent sign in the memory, no directive writes one. -/
theorem percent_notMem_conversionText (length : Nat) (kind : Conversion) (chars : List Byte)
    (written : conversionText (fun _ => 0#8) 0#64 length kind = some chars) : 0x25#8 ∉ chars := by
  cases kind with
  | int => cases written; decide
  | uint => cases written; decide
  | hex =>
      rw [conversionText] at written
      split at written
      · cases written
        decide
      · cases written
  | char => cases written; decide
  | string =>
      have empty : text maxFormatted (deref (fun _ => 0#8) 0#64) = [] := rfl
      rw [conversionText, empty] at written
      cases written
      decide
  | nothing => cases written

theorem percent_notMem_add {formatted : Formatted} {chars : List Byte}
    (before : 0x25#8 ∉ formatted.shown) (added : 0x25#8 ∉ chars) :
    0x25#8 ∉ formatted.add chars := by
  intro member
  rcases List.mem_append.mp (List.mem_of_mem_take member) with first | second
  · exact before first
  · exact added second

theorem percent_notMem_expand {formatted : Formatted} (before : 0x25#8 ∉ formatted.shown) :
    0x25#8 ∉ (expand (fun _ => 0#8) (fun _ => 0#64) formatted string).shown := by
  induction string using formatItems.induct generalizing formatted with
  | case1 => exact before
  | case2 => exact before
  | case3 format rest ih =>
      rw [expand_directive]
      apply ih
      rw [formatItem]
      split
      · next chars written =>
        exact percent_notMem_add before (percent_notMem_conversionText _ _ chars written)
      · exact before
  | case4 char rest notPercent ih =>
      rw [expand_literal notPercent]
      apply ih
      exact percent_notMem_add before fun member => notPercent (List.mem_singleton.mp member).symm

theorem FormatState.Shows.returns_of_zeros {space : ByteSpace} {args : Nat → Word}
    {state : FormatState} {formatted : Formatted} (shows : state.Shows formatted)
    (noZero : 0#8 ∉ string) :
    ∃ final rounds, final.buffer.Shows maxFormatted (expand space args formatted string).shown ∧
      ∀ fuel, formatLoop space args (fuel + rounds) (stringStream string) state = some final := by
  obtain ⟨final, shown, rounds, ⟨-, -, walked⟩ | ⟨-, loops⟩⟩ :=
    @FormatState.Shows.walk space args _ _ _ _ shows (holds_stringStream noZero)
  · refine ⟨final, 1 + rounds, shown, fun fuel => ?_⟩
    have stops : advance (string.length + 1) (stringStream string) 0 = 0#8 := by
      rw [advance_apply, stringStream, List.getElem?_eq_none (by omega), Option.getD_none]
    rw [← Nat.add_assoc, walked, formatLoop_stop (.inl stops)]
  · exact ⟨final, rounds, shown, loops⟩

/-- `print_syscall` hands on just the strings without a percent sign as they are,
whatever the memory, the registers and the stack hold. -/
theorem printSyscall_transparent_iff (noZero : 0#8 ∉ string)
    (short : string.length < maxFormatted) :
    (∀ space stack str registers, Holds str string → ∃ rounds buffer,
      (∀ fuel, printSyscall space stack (fuel + rounds) str registers = some buffer) ∧
        Holds buffer string) ↔ 0x25#8 ∉ string := by
  constructor
  · intro transparent member
    obtain ⟨rounds, buffer, returned, holds⟩ := transparent (fun _ => 0#8) (fun _ => 0#8)
      (stringStream string) (fun _ => 0#64) (holds_stringStream noZero)
    obtain ⟨final, more, shown, loops⟩ := @FormatState.Shows.returns_of_zeros string
      (fun _ => 0#8) (fun _ => 0#64) _ _ (startFormat_shows fun _ => 0#8) noZero
    have sameBuffer : final.buffer.bytes = buffer := by
      have printed : printSyscall (fun _ => 0#8) (fun _ => 0#8) (rounds + more)
          (stringStream string) (fun _ => 0#64) = some final.buffer.bytes :=
        vkprintf_eq_some.mpr ⟨final, loops rounds, rfl⟩
      rw [Nat.add_comm, returned, Option.some.injEq] at printed
      exact printed.symm
    obtain ⟨i, below, isPercent⟩ := List.mem_iff_getElem.mp member
    have char := holds.chars i below
    rw [List.getElem?_eq_getElem below, isPercent, Option.some.injEq, ← sameBuffer] at char
    have isShown := shown.mem_of_ne_zero (Nat.lt_trans below short) (by rw [← char]; decide)
    rw [← char] at isShown
    exact percent_notMem_expand List.not_mem_nil isShown
  · intro noPercent space stack str registers holds
    obtain ⟨final, rounds, shown, loops⟩ := @FormatState.Shows.returns space registers _ _ _ _
      (startFormat_shows stack) holds fun overruns => by
        rw [Overruns, endsInPercent_of_noPercent noPercent] at overruns
        exact absurd overruns.1 (by decide)
    rw [expand_of_noPercent (Nat.zero_le _) noPercent, Formatted.add, List.nil_append,
      List.take_of_length_le (Nat.le_of_lt short)] at shown
    exact ⟨rounds, final.buffer.bytes,
      fun fuel => vkprintf_eq_some.mpr ⟨final, loops fuel, rfl⟩, shown.holds short noZero⟩

theorem printSyscall_transparent_letters : ∃ rounds buffer,
    (∀ fuel, printSyscall (fun _ => 0#8) (fun _ => 0#8) (fuel + rounds)
      (stringStream [0x68#8, 0x69#8]) (fun _ => 0#64) = some buffer) ∧
    Holds buffer [0x68#8, 0x69#8] := by
  have transparent := (@printSyscall_transparent_iff [0x68#8, 0x69#8] (by decide) (by decide)).mpr
    (by decide)
  exact transparent _ _ _ _ (holds_stringStream (by decide))

/-- Of `5% `, the digit alone is printed. -/
theorem printSyscall_drops_percent :
    ∃ buffer, (∀ fuel, printSyscall (fun _ => 0#8) (fun _ => 0#8) (fuel + 3)
        (stringStream [0x35#8, 0x25#8, 0x20#8]) (fun _ => 0#64) = some buffer) ∧
      Holds (stringStream [0x35#8, 0x25#8, 0x20#8]) [0x35#8, 0x25#8, 0x20#8] ∧
      ¬ Holds buffer [0x35#8, 0x25#8, 0x20#8] ∧ Holds buffer [0x35#8] := by
  refine ⟨_, fun fuel => rfl, holds_stringStream (by decide), ?_, ?_⟩
  · intro holds
    exact absurd (holds.chars 1 (by decide)) (by decide)
  · exact ⟨by decide, by decide, by decide⟩

end Transparency

end MmdOS
