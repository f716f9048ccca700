import MmdOS.FormatRuns
import MmdOS.UstarLookup

/-!
# Directives and their arguments

Every directive is meant to take the next argument.  The handler takes the argument
before it looks for room in the buffer, with one exception: a hexadecimal number is
left out together with its argument where its prefix does not fit.  The loop goes
on while a single byte is left, so a directive behind it gets the wrong argument.
-/

namespace MmdOS

open CString

def argumentFormats : List Byte :=
  [0x64#8, 0x69#8, 0x75#8, 0x78#8, 0x58#8, 0x70#8, 0x63#8, 0x73#8]

/-- A character other than a percent sign, or a directive that has an argument. -/
def FormatItem.Plain : FormatItem → Prop
  | .literal char => char ≠ 0x25#8
  | .directive format => format ∈ argumentFormats

def FormatItem.source : FormatItem → List Byte
  | .literal char => [char]
  | .directive format => [0x25#8, format]

section Arguments

variable (space : ByteSpace) (args : Nat → Word)

def argumentText (argument : Word) : Conversion → List Byte
  | .int => decimalText argument.toInt
  | .uint => decimalText argument.toNat
  | .hex => 0x30#8 :: 0x78#8 :: hexText argument
  | .char => [argument.setWidth 8]
  | .string => text maxFormatted (deref space argument)
  | .nothing => []

structure Handled where
  format : Byte
  before : FormatState
  after : FormatState

def handledDirectives : (fuel : Nat) → (fmt : Stream) → FormatState → List Handled
  | 0, _, _ => []
  | fuel + 1, fmt, state =>
      if fmt 0 ≠ 0#8 ∧ state.buffer.offset < maxFormatted then
        if fmt 0 = 0x25#8 then
          ⟨fmt 1, state, formatHandler space args (fmt 1) state⟩ ::
            handledDirectives fuel (advance 2 fmt) (formatHandler space args (fmt 1) state)
        else
          handledDirectives fuel (advance 1 fmt)
            ⟨⟨Function.update state.buffer.bytes state.buffer.offset (fmt 0),
              state.buffer.offset + 1⟩, state.taken⟩
      else []

/-- The loop writes characters, and processes these directives in this order. -/
inductive Processes : FormatState → List Handled → FormatState → Prop
  | done (state : FormatState) : Processes state [] state
  | literal {state final : FormatState} {directives : List Handled} (char : Byte)
      (rest : Processes ⟨⟨Function.update state.buffer.bytes state.buffer.offset char,
        state.buffer.offset + 1⟩, state.taken⟩ directives final) :
      Processes state directives final
  | directive {state final : FormatState} {directives : List Handled} (format : Byte)
      (rest : Processes (formatHandler space args format state) directives final) :
      Processes state (⟨format, state, formatHandler space args format state⟩ :: directives) final

def Handled.Formats (handled : Handled) (index : Nat) : Prop :=
  handled.before.taken = index ∧
    handled.after =
      ⟨handled.before.buffer.pushAll maxFormatted
        (argumentText space (args index) (conversion handled.format)), index + 1⟩

def InStep (first : Nat) (directives : List Handled) : Prop :=
  ∀ k (handled : Handled), directives[k]? = some handled → handled.Formats space args (first + k)

/-- No hexadecimal number starts in the last two bytes of the buffer.  The text in
front of it is the one in which every directive has its own argument. -/
def RoomForHex : (index position : Nat) → List FormatItem → Prop
  | _, _, [] => True
  | index, position, .literal _ :: rest => RoomForHex index (position + 1) rest
  | index, position, .directive format :: rest =>
      (conversion format = .hex → position + 2 < maxFormatted ∨ maxFormatted ≤ position) ∧
        RoomForHex (index + 1)
          (position + (argumentText space (args index) (conversion format)).length) rest

end Arguments

variable {space : ByteSpace} {args : Nat → Word} {fmt : Stream} {state : FormatState}
  {items : List FormatItem} {index position : Nat}

section Positions

/-- Behind the end of the buffer nothing is written any more. -/
theorem roomForHex_of_le (full : maxFormatted ≤ position) :
    RoomForHex space args index position items := by
  induction items generalizing index position with
  | nil => trivial
  | cons item items ih =>
      cases item with
      | literal char => exact ih (by omega)
      | directive format => exact ⟨fun _ => .inr full, ih (by omega)⟩

/-- It does not matter how far the text reaches beyond the buffer. -/
theorem roomForHex_pushAll (buffer : TextBuffer) (chars : List Byte) :
    RoomForHex space args index (buffer.pushAll maxFormatted chars).offset items ↔
      RoomForHex space args index (buffer.offset + chars.length) items := by
  have wrote := @TextBuffer.wrote_pushAll maxFormatted buffer chars
  have offset := wrote.offset_eq
  rw [List.length_take] at offset
  by_cases fits : chars.length ≤ maxFormatted - buffer.offset
  · rw [offset, Nat.min_eq_right fits]
  · constructor
    · intro
      exact roomForHex_of_le (by omega)
    · intro
      exact roomForHex_of_le (by omega)

end Positions

section Steps

theorem inStep_nil (first : Nat) : InStep space args first [] := by
  simp [InStep]

theorem inStep_cons {first : Nat} {handled : Handled} {rest : List Handled} :
    InStep space args first (handled :: rest) ↔
      handled.Formats space args first ∧ InStep space args (first + 1) rest := by
  constructor
  · intro inStep
    refine ⟨inStep 0 handled rfl, fun k other found => ?_⟩
    have shifted := inStep (k + 1) other found
    rwa [← Nat.add_assoc, Nat.add_right_comm] at shifted
  · rintro ⟨here, later⟩ k other found
    cases k with
    | zero =>
        cases found
        exact here
    | succ k =>
        have shifted := later k other found
        rwa [Nat.add_right_comm, Nat.add_assoc] at shifted

theorem formatHandler_eq {format : Byte} (known : format ∈ argumentFormats)
    (room : conversion format = .hex → state.buffer.offset + 2 < maxFormatted) :
    formatHandler space args format state =
      ⟨state.buffer.pushAll maxFormatted
        (argumentText space (args state.taken) (conversion format)), state.taken + 1⟩ := by
  have notNothing : ∀ format ∈ argumentFormats, conversion format ≠ .nothing := by decide
  unfold formatHandler
  cases kind : conversion format with
  | int => simp only [formatInt, formatDecimal_eq, argumentText]
  | uint => simp only [formatUint, formatDecimal_eq, argumentText]
  | hex =>
      dsimp only
      rw [if_pos (room kind), ← push_hexPrefix (room kind), formatHex_eq]
      rfl
  | char => rfl
  | string => simp only [formatString_eq, argumentText]
  | nothing => exact absurd kind (notNothing format known)

/-- A directive formats its argument unless it is a hexadecimal number without
room for the prefix. -/
theorem formats_formatHandler_iff {format : Byte} (known : format ∈ argumentFormats) :
    Handled.Formats space args ⟨format, state, formatHandler space args format state⟩ state.taken ↔
      (conversion format = .hex → state.buffer.offset + 2 < maxFormatted) := by
  constructor
  · rintro ⟨-, taken⟩ kind
    by_contra noRoom
    have unchanged : formatHandler space args format state = state := by
      simp only [formatHandler, kind, if_neg noRoom]
    have counted := congrArg FormatState.taken (unchanged.symm.trans taken)
    dsimp only at counted
    omega
  · intro room
    exact ⟨rfl, formatHandler_eq known room⟩

end Steps

section Runs

theorem handledDirectives_stop (stops : fmt 0 = 0#8 ∨ maxFormatted ≤ state.buffer.offset)
    (fuel : Nat) : handledDirectives space args fuel fmt state = [] := by
  cases fuel with
  | zero => rfl
  | succ fuel =>
      rw [handledDirectives, if_neg]
      rintro ⟨nonzero, room⟩
      rcases stops with isZero | full
      · exact nonzero isZero
      · omega

theorem processes_formatLoop {fuel : Nat} {final : FormatState}
    (ended : formatLoop space args fuel fmt state = some final) :
    Processes space args state (handledDirectives space args fuel fmt state) final := by
  induction fuel generalizing fmt state with
  | zero => cases ended
  | succ fuel ih =>
      rw [formatLoop] at ended
      rw [handledDirectives]
      split at ended
      · next continues =>
        rw [if_pos continues]
        split at ended
        · next isPercent =>
          rw [if_pos isPercent]
          exact .directive (fmt 1) (ih ended)
        · next notPercent =>
          rw [if_neg notPercent]
          exact .literal (fmt 0) (ih ended)
      · next stops =>
        rw [if_neg stops, ← Option.some.inj ended]
        exact .done state

variable (space args) in
def StaysInStep (fmt : Stream) (state : FormatState) : Prop :=
  ∀ fuel, InStep space args state.taken (handledDirectives space args fuel fmt state)

theorem staysInStep_stop (stops : fmt 0 = 0#8 ∨ maxFormatted ≤ state.buffer.offset) :
    StaysInStep space args fmt state := by
  intro fuel
  rw [handledDirectives_stop stops]
  exact inStep_nil _

theorem staysInStep_literal (nonzero : fmt 0 ≠ 0#8) (notPercent : fmt 0 ≠ 0x25#8)
    (room : state.buffer.offset < maxFormatted) :
    StaysInStep space args fmt state ↔
      StaysInStep space args (advance 1 fmt)
        ⟨⟨Function.update state.buffer.bytes state.buffer.offset (fmt 0),
          state.buffer.offset + 1⟩, state.taken⟩ := by
  have round : ∀ fuel, handledDirectives space args (fuel + 1) fmt state =
      handledDirectives space args fuel (advance 1 fmt)
        ⟨⟨Function.update state.buffer.bytes state.buffer.offset (fmt 0),
          state.buffer.offset + 1⟩, state.taken⟩ := by
    intro fuel
    rw [handledDirectives, if_pos ⟨nonzero, room⟩, if_neg notPercent]
  constructor
  · intro stays fuel
    have more := stays (fuel + 1)
    rwa [round] at more
  · intro stays fuel
    cases fuel with
    | zero => exact inStep_nil _
    | succ fuel =>
        rw [round]
        exact stays fuel

theorem staysInStep_directive {format : Byte} (isPercent : fmt 0 = 0x25#8) (isFormat : fmt 1 = format)
    (known : format ∈ argumentFormats) (room : state.buffer.offset < maxFormatted) :
    StaysInStep space args fmt state ↔
      (conversion format = .hex → state.buffer.offset + 2 < maxFormatted) ∧
        StaysInStep space args (advance 2 fmt)
          ⟨state.buffer.pushAll maxFormatted
            (argumentText space (args state.taken) (conversion format)), state.taken + 1⟩ := by
  have round : ∀ fuel, handledDirectives space args (fuel + 1) fmt state =
      ⟨format, state, formatHandler space args format state⟩ ::
        handledDirectives space args fuel (advance 2 fmt)
          (formatHandler space args format state) := by
    intro fuel
    have nonzero : fmt 0 ≠ 0#8 := by
      rw [isPercent]
      decide
    rw [handledDirectives, if_pos ⟨nonzero, room⟩, if_pos isPercent, isFormat]
  have formats := @formats_formatHandler_iff space args state format known
  constructor
  · intro stays
    have hexRoom : conversion format = .hex → state.buffer.offset + 2 < maxFormatted := by
      -- One round shows whether the directive takes its argument.
      have first := stays 1
      rw [round, inStep_cons] at first
      exact formats.mp first.1
    refine ⟨hexRoom, fun fuel => ?_⟩
    have more := stays (fuel + 1)
    rw [round, inStep_cons, formatHandler_eq known hexRoom] at more
    exact more.2
  · rintro ⟨hexRoom, stays⟩ fuel
    cases fuel with
    | zero => exact inStep_nil _
    | succ fuel =>
        rw [round, inStep_cons]
        refine ⟨formats.mpr hexRoom, ?_⟩
        rw [formatHandler_eq known hexRoom]
        exact stays fuel

theorem staysInStep_iff (plain : ∀ item ∈ items, item.Plain)
    (holds : Holds fmt (items.flatMap FormatItem.source)) :
    StaysInStep space args fmt state ↔
      RoomForHex space args state.taken state.buffer.offset items := by
  induction items generalizing fmt state with
  | nil =>
      simp only [RoomForHex, iff_true]
      exact staysInStep_stop (.inl holds.stops)
  | cons item items ih =>
      have plainRest : ∀ item ∈ items, item.Plain := fun other member =>
        plain other (List.mem_cons_of_mem _ member)
      have plainItem := plain item List.mem_cons_self
      rw [List.flatMap_cons] at holds
      -- A full buffer ends the loop, whatever items are left.
      by_cases room : state.buffer.offset < maxFormatted
      · cases item with
        | literal char =>
            obtain ⟨isChar, nonzero, rest⟩ := holds.of_cons
            rw [staysInStep_literal (by rwa [isChar]) (by rwa [isChar]) room, ih plainRest rest]
            rfl
        | directive format =>
            obtain ⟨isPercent, -, rest⟩ := holds.of_cons
            obtain ⟨isFormat, -, rest⟩ := rest.of_cons
            have rest : Holds (advance 2 fmt) (items.flatMap FormatItem.source) := rest
            rw [staysInStep_directive isPercent isFormat plainItem room, ih plainRest rest,
              roomForHex_pushAll, RoomForHex]
            apply and_congr_left'
            apply imp_congr_right
            intro
            omega
      · have full := Nat.not_lt.mp room
        exact ⟨fun _ => roomForHex_of_le full, fun _ => staysInStep_stop (.inr full)⟩

/-- Directives and arguments stay in step exactly if no hexadecimal number starts in
the last two bytes of the buffer.  The directives are those that the loop processes
on its way to its result. -/
theorem directives_in_step_iff (plain : ∀ item ∈ items, item.Plain)
    (holds : Holds fmt (items.flatMap FormatItem.source)) (buffer : TextBuffer) :
    ((∀ fuel, InStep space args 0 (handledDirectives space args fuel fmt ⟨buffer, 0⟩)) ↔
      RoomForHex space args 0 buffer.offset items) ∧
    ∀ fuel final, formatLoop space args fuel fmt ⟨buffer, 0⟩ = some final →
      Processes space args ⟨buffer, 0⟩ (handledDirectives space args fuel fmt ⟨buffer, 0⟩) final :=
  ⟨staysInStep_iff plain holds, fun _ _ => processes_formatLoop⟩

theorem directives_in_step_two :
    RoomForHex (fun _ => 0#8) (fun _ => 7#64) 0 0 [.directive 0x78#8, .directive 0x75#8] ∧
      ∀ fuel, InStep (fun _ => 0#8) (fun _ => 7#64) 0
        (handledDirectives (fun _ => 0#8) (fun _ => 7#64) fuel
          (stringStream [0x25#8, 0x78#8, 0x25#8, 0x75#8])
          ⟨.cleared maxFormatted fun _ => 0#8, 0⟩) := by
  have plain : ∀ item ∈ [FormatItem.directive 0x78#8, .directive 0x75#8], item.Plain := by
    simp [FormatItem.Plain, argumentFormats]
  have room : RoomForHex (fun _ => 0#8) (fun _ => 7#64) 0 0
      [.directive 0x78#8, .directive 0x75#8] :=
    ⟨fun _ => .inl (by decide), fun isHex => absurd isHex (by decide), trivial⟩
  refine ⟨room, ?_⟩
  exact (directives_in_step_iff plain (holds_stringStream (by decide)) _).1.mpr room

/-- With two bytes left, `%x%u` formats the first argument as the second one. -/
theorem directives_out_of_step :
    (handledDirectives (fun _ => 0#8) (fun k => BitVec.ofNat 64 (k + 1)) 3
        (stringStream [0x25#8, 0x78#8, 0x25#8, 0x75#8]) ⟨⟨fun _ => 0x61#8, 1022⟩, 0⟩).map
          (fun handled => (handled.format, handled.before.taken, handled.after.taken)) =
        [(0x78#8, 0, 0), (0x75#8, 0, 1)] ∧
      ¬InStep (fun _ => 0#8) (fun k => BitVec.ofNat 64 (k + 1)) 0
        (handledDirectives (fun _ => 0#8) (fun k => BitVec.ofNat 64 (k + 1)) 3
          (stringStream [0x25#8, 0x78#8, 0x25#8, 0x75#8]) ⟨⟨fun _ => 0x61#8, 1022⟩, 0⟩) := by
  refine ⟨by decide, fun inStep => ?_⟩
  have second := (inStep 1 _ rfl).1
  revert second
  decide

end Runs

end MmdOS
