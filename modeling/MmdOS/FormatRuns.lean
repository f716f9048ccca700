import MmdOS.CommonPrefix
import MmdOS.Formatter

/-!
# The walk along a format string

The loop passes the items of the format while there is room in the buffer, and
stops at the end of the format.  A percent sign at the end is taken for a directive
with the terminator as its character, and the walk goes on behind the terminator.
-/

namespace MmdOS

open CString

variable {space : ByteSpace} {args : Nat → Word} {fmt : Stream} {state : FormatState}
  {formatted : Formatted} {string : List Byte}

section Steps

theorem formatLoop_stop (stops : fmt 0 = 0#8 ∨ maxFormatted ≤ state.buffer.offset) (fuel : Nat) :
    formatLoop space args (fuel + 1) fmt state = some state := by
  rw [formatLoop, if_neg]
  rintro ⟨nonzero, room⟩
  rcases stops with isZero | full
  · exact nonzero isZero
  · omega

theorem formatLoop_directive (isPercent : fmt 0 = 0x25#8)
    (room : state.buffer.offset < maxFormatted) (fuel : Nat) :
    formatLoop space args (fuel + 1) fmt state =
      formatLoop space args fuel (advance 2 fmt) (formatHandler space args (fmt 1) state) := by
  have nonzero : fmt 0 ≠ 0#8 := by
    rw [isPercent]
    decide
  rw [formatLoop, if_pos ⟨nonzero, room⟩, if_pos isPercent]

theorem formatLoop_mono {fuel : Nat} {final : FormatState}
    (returned : formatLoop space args fuel fmt state = some final) (more : Nat) :
    formatLoop space args (fuel + more) fmt state = some final := by
  induction fuel generalizing fmt state with
  | zero => cases returned
  | succ fuel ih =>
      rw [Nat.succ_add]
      rw [formatLoop] at returned ⊢
      split at returned
      · next continues =>
        rw [if_pos continues]
        split at returned
        · next isPercent =>
          rw [if_pos isPercent]
          exact ih returned
        · next notPercent =>
          rw [if_neg notPercent]
          exact ih returned
      · next stops =>
        rw [if_neg stops]
        exact returned

end Steps

section Prefixes

theorem prefix_add (short : formatted.shown.length ≤ maxFormatted) (chars : List Byte) :
    formatted.shown <+: formatted.add chars := by
  rw [Formatted.add, List.prefix_take_iff]
  exact ⟨List.prefix_append _ _, short⟩

theorem prefix_formatItem (short : formatted.shown.length ≤ maxFormatted) (item : FormatItem) :
    formatted.shown <+: (formatItem space args formatted item).shown := by
  cases item with
  | literal char => exact prefix_add short [char]
  | directive format =>
      rw [formatItem]
      split
      · exact prefix_add short _
      · exact List.prefix_refl _

theorem FormatState.Shows.kept {fuel : Nat} {final : FormatState} (shows : state.Shows formatted)
    (returned : formatLoop space args fuel fmt state = some final) :
    ∃ shown, final.buffer.Shows maxFormatted shown ∧ formatted.shown <+: shown := by
  induction fuel generalizing fmt state formatted with
  | zero => cases returned
  | succ fuel ih =>
      rw [formatLoop] at returned
      split at returned
      · next continues =>
        split at returned
        · obtain ⟨shown, finalShows, isPrefix⟩ := ih (shows.formatHandler (fmt 1)) returned
          exact ⟨shown, finalShows,
            (prefix_formatItem shows.buffer.length_le _).trans isPrefix⟩
        · obtain ⟨shown, finalShows, isPrefix⟩ :=
            ih (@FormatState.Shows.literal space args _ _ shows continues.2 (fmt 0)) returned
          exact ⟨shown, finalShows,
            (prefix_formatItem shows.buffer.length_le _).trans isPrefix⟩
      · cases returned
        exact ⟨formatted.shown, shows.buffer, List.prefix_refl _⟩

end Prefixes

section Walk

theorem overruns_directive {format : Byte} :
    Overruns space args formatted (0x25#8 :: format :: string) ↔
      Overruns space args (formatItem space args formatted (.directive format)) string := by
  rw [Overruns, Overruns, expand_directive, endsInPercent, if_pos rfl]

theorem overruns_literal {char : Byte} (notPercent : char ≠ 0x25#8) :
    Overruns space args formatted (char :: string) ↔
      Overruns space args (formatItem space args formatted (.literal char)) string := by
  rw [Overruns, Overruns, expand_literal notPercent, endsInPercent_literal notPercent]

theorem not_overruns_of_full (full : formatted.shown.length = maxFormatted) :
    ¬ Overruns space args formatted string := by
  rintro ⟨-, room⟩
  rw [expand_of_full full] at room
  omega

variable (space args) in
/-- How the walk along a format ends: behind the terminator, or at the end of the
format or of the buffer. -/
def Walked (fmt : Stream) (state : FormatState) (formatted : Formatted) (string : List Byte)
    (final : FormatState) : Prop :=
  final.buffer.Shows maxFormatted (expand space args formatted string).shown ∧
    ∃ rounds,
      (Overruns space args formatted string ∧ final.Shows (expand space args formatted string) ∧
        ∀ fuel, formatLoop space args (fuel + rounds) fmt state =
          formatLoop space args fuel (advance (string.length + 1) fmt) final) ∨
      (¬ Overruns space args formatted string ∧
        ∀ fuel, formatLoop space args (fuel + rounds) fmt state = some final)

theorem walked_of_full (shows : state.Shows formatted)
    (full : formatted.shown.length = maxFormatted) :
    Walked space args fmt state formatted string state := by
  refine ⟨?_, 1, .inr ⟨not_overruns_of_full full, fun fuel => formatLoop_stop (.inr ?_) fuel⟩⟩
  · rw [expand_of_full full]
    exact shows.buffer
  · rw [shows.buffer.offset_eq, full]

theorem Walked.step {next final : FormatState} {after : Formatted} {rest : List Byte} {width : Nat}
    (walked : Walked space args (advance width fmt) next after rest final)
    (text : expand space args formatted string = expand space args after rest)
    (overruns : Overruns space args formatted string ↔ Overruns space args after rest)
    (length : string.length = rest.length + width)
    (round : ∀ fuel, formatLoop space args (fuel + 1) fmt state =
      formatLoop space args fuel (advance width fmt) next) :
    Walked space args fmt state formatted string final := by
  obtain ⟨shown, rounds, ends⟩ := walked
  rw [← text] at shown
  refine ⟨shown, rounds + 1, ?_⟩
  rcases ends with ⟨beyond, shows, loops⟩ | ⟨within, loops⟩
  · have behind : advance (rest.length + 1) (advance width fmt) = advance (string.length + 1) fmt :=
      funext fun i => congrArg fmt (by omega)
    refine .inl ⟨overruns.mpr beyond, by rw [text]; exact shows, fun fuel => ?_⟩
    rw [← Nat.add_assoc, round, loops, behind]
  · refine .inr ⟨mt overruns.mp within, fun fuel => ?_⟩
    rw [← Nat.add_assoc, round, loops]

theorem FormatState.Shows.walk (shows : state.Shows formatted) (holds : Holds fmt string) :
    ∃ final, Walked space args fmt state formatted string final := by
  induction string using formatItems.induct generalizing fmt state formatted with
  | case1 =>
      refine ⟨state, shows.buffer, 1, .inr ⟨fun overruns => ?_, formatLoop_stop (.inl holds.stops)⟩⟩
      exact absurd overruns.1 (by decide)
  | case2 =>
      rcases Nat.lt_or_eq_of_le shows.buffer.length_le with room | full
      · obtain ⟨isPercent, -, rest⟩ := holds.of_cons
        have terminator : fmt 1 = 0#8 := rest.stops
        refine ⟨state, shows.buffer, 1, .inl ⟨⟨rfl, room⟩, shows, fun fuel => ?_⟩⟩
        rw [formatLoop_directive isPercent (by rw [shows.buffer.offset_eq]; exact room), terminator]
        rfl
      · exact ⟨state, walked_of_full shows full⟩
  | case3 format rest ih =>
      rcases Nat.lt_or_eq_of_le shows.buffer.length_le with room | full
      · obtain ⟨isPercent, -, tail⟩ := holds.of_cons
        obtain ⟨isFormat, -, tail⟩ := tail.of_cons
        have isFormat : fmt 1 = format := isFormat
        obtain ⟨final, walked⟩ := @ih (advance 2 fmt) _ _ (shows.formatHandler format) tail
        refine ⟨final, walked.step (expand_directive format) overruns_directive rfl fun fuel => ?_⟩
        rw [formatLoop_directive isPercent (by rw [shows.buffer.offset_eq]; exact room), isFormat]
      · exact ⟨state, walked_of_full shows full⟩
  | case4 char rest notPercent ih =>
      rcases Nat.lt_or_eq_of_le shows.buffer.length_le with room | full
      · obtain ⟨isChar, nonzero, tail⟩ := holds.of_cons
        have room : state.buffer.offset < maxFormatted := by
          rw [shows.buffer.offset_eq]
          exact room
        obtain ⟨final, walked⟩ :=
          ih (@FormatState.Shows.literal space args _ _ shows room char) tail
        refine ⟨final, walked.step (expand_literal notPercent) (overruns_literal notPercent) rfl
          fun fuel => ?_⟩
        rw [formatLoop, isChar, if_pos ⟨nonzero, room⟩, if_neg notPercent]
      · exact ⟨state, walked_of_full shows full⟩

end Walk

section Reads

variable {fuel position : Nat}

theorem formatReads_stop (stops : fmt 0 = 0#8 ∨ maxFormatted ≤ state.buffer.offset) :
    formatReads space args (fuel + 1) position fmt state = [position] := by
  rw [formatReads, if_neg]
  rintro ⟨nonzero, room⟩
  rcases stops with isZero | full
  · exact nonzero isZero
  · omega

theorem formatReads_directive (isPercent : fmt 0 = 0x25#8)
    (room : state.buffer.offset < maxFormatted) :
    formatReads space args (fuel + 1) position fmt state =
      position :: (position + 1) :: formatReads space args fuel (position + 2) (advance 2 fmt)
        (formatHandler space args (fmt 1) state) := by
  have nonzero : fmt 0 ≠ 0#8 := by
    rw [isPercent]
    decide
  rw [formatReads, if_pos ⟨nonzero, room⟩, if_pos isPercent]

theorem formatReads_literal (nonzero : fmt 0 ≠ 0#8) (notPercent : fmt 0 ≠ 0x25#8)
    (room : state.buffer.offset < maxFormatted) :
    formatReads space args (fuel + 1) position fmt state =
      position :: formatReads space args fuel (position + 1) (advance 1 fmt)
        ⟨⟨Function.update state.buffer.bytes state.buffer.offset (fmt 0),
          state.buffer.offset + 1⟩, state.taken⟩ := by
  rw [formatReads, if_pos ⟨nonzero, room⟩, if_neg notPercent]

theorem formatReads_of_full (full : maxFormatted ≤ state.buffer.offset) {read : Nat}
    (member : read ∈ formatReads space args fuel position fmt state) : read = position := by
  cases fuel with
  | zero => cases member
  | succ fuel =>
      rw [formatReads_stop (.inr full)] at member
      exact List.mem_singleton.mp member

/-- No other character of the format has an influence on the loop. -/
theorem formatLoop_congr {base other : Stream}
    (agree : ∀ read ∈ formatReads space args fuel position (advance position base) state,
      other read = base read) :
    formatLoop space args fuel (advance position other) state =
      formatLoop space args fuel (advance position base) state := by
  induction fuel generalizing position state with
  | zero => rfl
  | succ fuel ih =>
      rw [formatReads, List.forall_mem_cons] at agree
      obtain ⟨here, later⟩ := agree
      have first : advance position other 0 = advance position base 0 := by
        rwa [advance_apply, advance_apply, Nat.zero_add]
      rw [formatLoop, formatLoop, first]
      split
      · next continues =>
        rw [if_pos continues] at later
        split
        · next isPercent =>
          rw [if_pos isPercent, List.forall_mem_cons, advance_advance] at later
          have second : advance position other 1 = advance position base 1 := by
            rw [advance_apply, advance_apply, Nat.add_comm]
            exact later.1
          rw [second, advance_advance, advance_advance]
          exact ih later.2
        · next notPercent =>
          rw [if_neg notPercent, advance_advance] at later
          rw [advance_advance, advance_advance]
          exact ih later
      · rfl

/-- A walk that does not overrun the format reads nothing behind its terminator. -/
theorem FormatState.Shows.reads_le (shows : state.Shows formatted) (holds : Holds fmt string)
    (within : ¬ Overruns space args formatted string) :
    ∀ read ∈ formatReads space args fuel position fmt state, read ≤ position + string.length := by
  induction string using formatItems.induct generalizing fmt state formatted fuel position with
  | case1 =>
      intro read member
      cases fuel with
      | zero => cases member
      | succ fuel =>
          rw [formatReads_stop (.inl holds.stops)] at member
          exact Nat.le_of_eq (List.mem_singleton.mp member)
  | case2 =>
      intro read member
      have full : maxFormatted ≤ state.buffer.offset := by
        rw [shows.buffer.offset_eq]
        exact Nat.not_lt.mp fun room => within ⟨rfl, room⟩
      rw [formatReads_of_full full member]
      exact Nat.le_add_right _ _
  | case3 format rest ih =>
      intro read member
      by_cases room : state.buffer.offset < maxFormatted
      · cases fuel with
        | zero => cases member
        | succ fuel =>
            obtain ⟨isPercent, -, tail⟩ := holds.of_cons
            obtain ⟨isFormat, -, tail⟩ := tail.of_cons
            have isFormat : fmt 1 = format := isFormat
            have later := @ih (advance 2 fmt) _ _ fuel (position + 2) (shows.formatHandler format)
              tail (mt overruns_directive.mpr within) read
            rw [formatReads_directive isPercent room, isFormat, List.mem_cons, List.mem_cons]
              at member
            rw [List.length_cons, List.length_cons]
            rcases member with rfl | rfl | member
            · omega
            · omega
            · have bound := later member
              omega
      · rw [formatReads_of_full (Nat.not_lt.mp room) member]
        exact Nat.le_add_right _ _
  | case4 char rest notPercent ih =>
      intro read member
      by_cases room : state.buffer.offset < maxFormatted
      · cases fuel with
        | zero => cases member
        | succ fuel =>
            obtain ⟨isChar, nonzero, tail⟩ := holds.of_cons
            have later := @ih _ _ _ fuel (position + 1)
              (@FormatState.Shows.literal space args _ _ shows room char) tail
              (mt (overruns_literal notPercent).mpr within) read
            rw [formatReads_literal (by rw [isChar]; exact nonzero)
              (by rw [isChar]; exact notPercent) room, isChar, List.mem_cons] at member
            rw [List.length_cons]
            rcases member with rfl | member
            · omega
            · have bound := later member
              omega
      · rw [formatReads_of_full (Nat.not_lt.mp room) member]
        exact Nat.le_add_right _ _

theorem FormatState.Shows.room_of_overruns (shows : state.Shows formatted)
    (overruns : Overruns space args formatted string) : state.buffer.offset < maxFormatted := by
  rw [shows.buffer.offset_eq]
  exact Nat.lt_of_le_of_ne shows.buffer.length_le fun full => not_overruns_of_full full overruns

/-- A walk that overruns the format reads the byte behind its terminator. -/
theorem FormatState.Shows.reads_behind (shows : state.Shows formatted) (holds : Holds fmt string)
    (overruns : Overruns space args formatted string) :
    ∃ fuel, position + string.length + 1 ∈ formatReads space args fuel position fmt state := by
  induction string using formatItems.induct generalizing fmt state formatted position with
  | case1 => exact absurd overruns.1 (by decide)
  | case2 =>
      obtain ⟨isPercent, -, -⟩ := holds.of_cons
      refine ⟨2, ?_⟩
      rw [formatReads_directive isPercent (shows.room_of_overruns overruns), formatReads]
      exact List.mem_cons_of_mem _ (List.mem_cons_of_mem _ List.mem_cons_self)
  | case3 format rest ih =>
      obtain ⟨isPercent, -, tail⟩ := holds.of_cons
      obtain ⟨isFormat, -, tail⟩ := tail.of_cons
      have isFormat : fmt 1 = format := isFormat
      obtain ⟨fuel, member⟩ := @ih (advance 2 fmt) _ _ (position + 2) (shows.formatHandler format)
        tail (overruns_directive.mp overruns)
      refine ⟨fuel + 1, ?_⟩
      rw [formatReads_directive isPercent (shows.room_of_overruns overruns), isFormat]
      apply List.mem_cons_of_mem
      apply List.mem_cons_of_mem
      have shift : position + (rest.length + 2) + 1 = position + 2 + rest.length + 1 := by omega
      rw [List.length_cons, List.length_cons, shift]
      exact member
  | case4 char rest notPercent ih =>
      have room := shows.room_of_overruns overruns
      obtain ⟨isChar, nonzero, tail⟩ := holds.of_cons
      obtain ⟨fuel, member⟩ := @ih _ _ _ (position + 1)
        (@FormatState.Shows.literal space args _ _ shows room char) tail
        ((overruns_literal notPercent).mp overruns)
      refine ⟨fuel + 1, ?_⟩
      rw [formatReads_literal (by rw [isChar]; exact nonzero) (by rw [isChar]; exact notPercent)
        room, isChar]
      apply List.mem_cons_of_mem
      have shift : position + (rest.length + 1) + 1 = position + 1 + rest.length + 1 := by omega
      rw [List.length_cons, shift]
      exact member

end Reads

end MmdOS
