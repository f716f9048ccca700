import MmdOS.TextBuffer
import MmdOS.UstarArchive

/-!
# Format strings

The formatter walks along a format string and writes to a buffer of 1024 bytes.
Every routine stops where the buffer is full.  A directive consists of a percent
sign and the character behind it; the walk passes both, whatever the character is.

The text that a format stands for is described without the buffer, item by item.
The buffer is a new object of the caller, so no argument points into it.
-/

namespace MmdOS

open CString
open Function (update update_self update_of_ne)

/-- `MAX_STRING_FORMATTER_BUFFER_SIZE` -/
def maxFormatted : Nat := 1024

section Numbers

def hexChars : List Byte :=
  [0x30#8, 0x31#8, 0x32#8, 0x33#8, 0x34#8, 0x35#8, 0x36#8, 0x37#8, 0x38#8, 0x39#8, 0x61#8, 0x62#8,
    0x63#8, 0x64#8, 0x65#8, 0x66#8]

/-- The first loop of `int_to_hex`, which writes the last digit first. -/
def hexLoop : (left num : Nat) → (buffer : Stream) → (index : Nat) → Stream × Nat
  | 0, _, buffer, index => (buffer, index)
  | left + 1, num, buffer, index =>
      if num ≠ 0 then
        hexLoop left (num / 16) (update buffer index (hexChars[num % 16]?.getD 0#8))
          (index + 1)
      else (buffer, index)

/-- The second loop of `int_to_hex`, which reverses the digits. -/
def swapLoop : (left k j : Nat) → (buffer : Stream) → Stream
  | 0, _, _, buffer => buffer
  | left + 1, k, j, buffer =>
      if k < j then
        swapLoop left (k + 1) (j - 1)
          (update (update buffer k (buffer j)) j (buffer k))
      else buffer

/-- `int_to_hex`; the buffer has `MAX_HEX_HANDLER_BUFFER_SIZE` bytes. -/
def intToHex (i : Word) (buffer : Stream) : Stream :=
  if i = 0#64 then update buffer 0 0x30#8
  else
    let (buffer, index) := hexLoop 64 i.toNat buffer 0
    swapLoop 64 0 (index - 1) buffer

/-- The first loop of `format_int` and of `format_uint`: the number of digits. -/
def decimalLength : (left : Nat) → (remainder : Int) → Nat
  | 0, _ => 0
  | left + 1, remainder =>
      if remainder ≠ 0 then decimalLength left (remainder.tdiv 10) + 1 else 0

/-- The second loop: the digits, the last one first.  The remainder of a negative
number is negative. -/
def decimalNumber : (len : Nat) → (integer : Int) → List Byte
  | 0, _ => []
  | len + 1, integer =>
      BitVec.ofInt 8 (integer.tmod 10 + 0x30) :: decimalNumber len (integer.tdiv 10)

def decimalText (integer : Int) : List Byte :=
  if integer = 0 then [0x30#8] else (decimalNumber (decimalLength 20 integer) integer).reverse

def hexDigits : (left num : Nat) → List Byte
  | 0, _ => []
  | left + 1, num =>
      if num ≠ 0 then hexChars[num % 16]?.getD 0#8 :: hexDigits left (num / 16) else []

def hexText (i : Word) : List Byte :=
  if i = 0#64 then [0x30#8] else (hexDigits 64 i.toNat).reverse

end Numbers

section Routines

def formatChar (c : Byte) (buffer : TextBuffer) : TextBuffer :=
  if buffer.offset < maxFormatted then
    ⟨update buffer.bytes buffer.offset c, buffer.offset + 1⟩
  else buffer

def formatStringLoop : (left : Nat) → (s : Stream) → TextBuffer → TextBuffer
  | 0, _, buffer => buffer
  | left + 1, s, buffer =>
      if s 0 ≠ 0#8 ∧ buffer.offset < maxFormatted then
        formatStringLoop left (advance 1 s)
          ⟨update buffer.bytes buffer.offset (s 0), buffer.offset + 1⟩
      else buffer

/-- `format_string`; every round writes a byte. -/
def formatString (s : Stream) (buffer : TextBuffer) : TextBuffer :=
  formatStringLoop maxFormatted s buffer

/-- The last loop of `format_int` and of `format_uint`, over the digits from the
first one on. -/
def writeNumber : List Byte → TextBuffer → TextBuffer
  | [], buffer => buffer
  | digit :: digits, buffer =>
      if buffer.offset < maxFormatted then
        writeNumber digits ⟨update buffer.bytes buffer.offset digit, buffer.offset + 1⟩
      else buffer

/-- What `format_int` and `format_uint` have in common. -/
def formatDecimal (integer : Int) (buffer : TextBuffer) : TextBuffer :=
  if integer = 0 then
    if buffer.offset < maxFormatted then
      ⟨update buffer.bytes buffer.offset 0x30#8, buffer.offset + 1⟩
    else buffer
  else writeNumber (decimalNumber (decimalLength 20 integer) integer).reverse buffer

def formatUint (uint : Word) (buffer : TextBuffer) : TextBuffer :=
  formatDecimal (uint.toNat : Int) buffer

def formatInt (integer : Word) (buffer : TextBuffer) : TextBuffer :=
  formatDecimal integer.toInt buffer

def formatHex (hexInt : Word) (buffer : TextBuffer) : TextBuffer :=
  formatString (intToHex hexInt fun _ => 0#8) buffer

end Routines

inductive Conversion
  | int
  | uint
  | hex
  | char
  | string
  | nothing
  deriving DecidableEq

def conversion (format : Byte) : Conversion :=
  if format = 0x64#8 ∨ format = 0x69#8 then .int
  else if format = 0x75#8 then .uint
  else if format = 0x58#8 ∨ format = 0x70#8 ∨ format = 0x78#8 then .hex
  else if format = 0x63#8 then .char
  else if format = 0x73#8 then .string
  else .nothing

structure FormatState where
  buffer : TextBuffer
  taken : Nat

section Loop

variable (space : ByteSpace) (args : Nat → Word)

def formatHandler (format : Byte) (state : FormatState) : FormatState :=
  match conversion format with
  | .int => ⟨formatInt (args state.taken) state.buffer, state.taken + 1⟩
  | .uint => ⟨formatUint (args state.taken) state.buffer, state.taken + 1⟩
  | .hex =>
      if state.buffer.offset + 2 < maxFormatted then
        let buffer : TextBuffer :=
          ⟨update (update state.buffer.bytes state.buffer.offset 0x30#8)
            (state.buffer.offset + 1) 0x78#8, state.buffer.offset + 2⟩
        ⟨formatHex (args state.taken) buffer, state.taken + 1⟩
      else state
  | .char => ⟨formatChar ((args state.taken).setWidth 8) state.buffer, state.taken + 1⟩
  | .string => ⟨formatString (deref space (args state.taken)) state.buffer, state.taken + 1⟩
  | .nothing => state

/-- The loop of `vkprintf`, of `vklog` and of `panic`. -/
def formatLoop : (fuel : Nat) → (fmt : Stream) → FormatState → Option FormatState
  | 0, _, _ => none
  | fuel + 1, fmt, state =>
      if fmt 0 ≠ 0#8 ∧ state.buffer.offset < maxFormatted then
        if fmt 0 = 0x25#8 then
          formatLoop fuel (advance 2 fmt) (formatHandler space args (fmt 1) state)
        else
          formatLoop fuel (advance 1 fmt)
            ⟨⟨update state.buffer.bytes state.buffer.offset (fmt 0),
              state.buffer.offset + 1⟩, state.taken⟩
      else some state

/-- The positions of the format string that the first rounds of the loop read. -/
def formatReads : (fuel position : Nat) → (fmt : Stream) → FormatState → List Nat
  | 0, _, _, _ => []
  | fuel + 1, position, fmt, state =>
      position ::
        if fmt 0 ≠ 0#8 ∧ state.buffer.offset < maxFormatted then
          if fmt 0 = 0x25#8 then
            (position + 1) :: formatReads fuel (position + 2) (advance 2 fmt)
              (formatHandler space args (fmt 1) state)
          else
            formatReads fuel (position + 1) (advance 1 fmt)
              ⟨⟨update state.buffer.bytes state.buffer.offset (fmt 0),
                state.buffer.offset + 1⟩, state.taken⟩
        else []

end Loop

section HexDigits

theorem hexLoop_eq (left num : Nat) (buffer : Stream) (index : Nat) :
    (hexLoop left num buffer index).2 = index + (hexDigits left num).length ∧
      ∀ i, (hexLoop left num buffer index).1 i =
        if index ≤ i ∧ i < index + (hexDigits left num).length then
          (hexDigits left num)[i - index]?.getD 0#8
        else buffer i := by
  induction left generalizing num buffer index with
  | zero =>
      refine ⟨rfl, fun i => ?_⟩
      rw [hexDigits, List.length_nil, if_neg (by omega)]
      rfl
  | succ left ih =>
      rw [hexLoop, hexDigits]
      by_cases more : num ≠ 0
      · rw [if_pos more, if_pos more, List.length_cons]
        obtain ⟨indexEq, bytes⟩ := ih (num / 16)
          (update buffer index (hexChars[num % 16]?.getD 0#8)) (index + 1)
        refine ⟨by omega, fun i => ?_⟩
        rw [bytes i]
        rcases Nat.lt_trichotomy i index with before | rfl | behind
        · rw [if_neg (by omega), if_neg (by omega), update_of_ne (by omega)]
        · rw [if_neg (by omega), if_pos (by omega), update_self, Nat.sub_self,
            List.getElem?_cons_zero, Option.getD_some]
        · obtain ⟨k, rfl⟩ : ∃ k, i = index + 1 + k := ⟨i - (index + 1), by omega⟩
          have offset : index + 1 + k - index = k + 1 := by omega
          rw [offset, List.getElem?_cons_succ, Nat.add_sub_cancel_left,
            update_of_ne (by omega)]
          by_cases inside : k < (hexDigits left (num / 16)).length
          · rw [if_pos (by omega), if_pos (by omega)]
          · rw [if_neg (by omega), if_neg (by omega)]
      · rw [if_neg more, if_neg more, List.length_nil]
        refine ⟨rfl, fun i => ?_⟩
        rw [if_neg (by omega)]

/-- The swaps reverse the bytes between the two positions. -/
theorem swapLoop_apply {left k j : Nat} (enough : j < k + 2 * left) (buffer : Stream) (i : Nat) :
    swapLoop left k j buffer i = if k ≤ i ∧ i ≤ j then buffer (k + j - i) else buffer i := by
  induction left generalizing k j buffer with
  | zero =>
      rw [if_neg (by omega)]
      rfl
  | succ left ih =>
      rw [swapLoop]
      by_cases apart : k < j
      · rw [if_pos apart, ih (by omega)]
        by_cases isFirst : i = k
        · rw [isFirst, if_neg (by omega), if_pos (by omega), update_of_ne (by omega),
            update_self, Nat.add_sub_cancel_left]
        by_cases isLast : i = j
        · rw [isLast, if_neg (by omega), if_pos (by omega), update_self,
            Nat.add_sub_cancel]
        by_cases inside : k ≤ i ∧ i ≤ j
        · have mirrored : k + 1 + (j - 1) - i = k + j - i := by omega
          rw [if_pos (by omega), if_pos inside, mirrored, update_of_ne (by omega),
            update_of_ne (by omega)]
        · rw [if_neg (by omega), if_neg inside, update_of_ne isLast,
            update_of_ne isFirst]
      · rw [if_neg apart]
        by_cases inside : k ≤ i ∧ i ≤ j
        · rw [if_pos inside]
          exact congrArg buffer (by omega)
        · rw [if_neg inside]

theorem length_hexDigits_le (left num : Nat) : (hexDigits left num).length ≤ left := by
  induction left generalizing num with
  | zero => exact Nat.le_refl _
  | succ left ih =>
      rw [hexDigits]
      split
      · rw [List.length_cons]
        exact Nat.succ_le_succ (ih _)
      · exact Nat.zero_le _

theorem hexDigits_pos {left num : Nat} (nonzero : num ≠ 0) :
    0 < (hexDigits (left + 1) num).length := by
  rw [hexDigits, if_pos nonzero, List.length_cons]
  exact Nat.succ_pos _

theorem mem_hexChars_of_mem_hexDigits {left num : Nat} {char : Byte}
    (member : char ∈ hexDigits left num) : char ∈ hexChars := by
  induction left generalizing num with
  | zero => cases member
  | succ left ih =>
      rw [hexDigits] at member
      split at member
      · rcases List.mem_cons.mp member with rfl | later
        · have below : num % 16 < hexChars.length := Nat.mod_lt num (by decide)
          rw [List.getElem?_eq_getElem below, Option.getD_some]
          exact List.getElem_mem below
        · exact ih later
      · cases member

theorem mem_hexChars_of_mem_hexText {i : Word} {char : Byte} (member : char ∈ hexText i) :
    char ∈ hexChars := by
  unfold hexText at member
  split at member
  · rw [List.mem_singleton.mp member]
    decide
  · exact mem_hexChars_of_mem_hexDigits (List.mem_reverse.mp member)

theorem length_hexText_le (i : Word) : (hexText i).length ≤ 64 := by
  unfold hexText
  split
  · decide
  · rw [List.length_reverse]
    exact length_hexDigits_le 64 i.toNat

theorem holds_intToHex (i : Word) : Holds (intToHex i fun _ => 0#8) (hexText i) := by
  have noZero : 0#8 ∉ hexText i := fun member =>
    absurd (mem_hexChars_of_mem_hexText member) (by decide)
  by_cases isZero : i = 0#64
  · rw [intToHex, hexText, if_pos isZero, if_pos isZero] at *
    refine ⟨noZero, fun j below => ?_, rfl⟩
    obtain rfl : j = 0 := Nat.lt_one_iff.mp below
    rfl
  · rw [hexText, if_neg isZero] at noZero
    have nonzero : i.toNat ≠ 0 := fun zero => isZero (BitVec.eq_of_toNat_eq zero)
    obtain ⟨indexEq, bytes⟩ := hexLoop_eq 64 i.toNat (fun _ => 0#8) 0
    have lengthLe := length_hexDigits_le 64 i.toNat
    have positive : 0 < (hexDigits 64 i.toNat).length := hexDigits_pos nonzero
    rw [Nat.zero_add] at indexEq
    rw [intToHex, hexText, if_neg isZero, if_neg isZero]
    dsimp only
    rw [indexEq]
    refine ⟨noZero, fun j below => ?_, ?_⟩
    · rw [List.length_reverse] at below
      rw [swapLoop_apply (by omega), if_pos (by omega), bytes, if_pos (by omega),
        List.getElem?_reverse below, Nat.zero_add, Nat.sub_zero,
        List.getElem?_eq_getElem (by omega), Option.getD_some]
    · rw [List.length_reverse, swapLoop_apply (by omega), if_neg (by omega), bytes,
        if_neg (by omega)]

end HexDigits

section DecimalDigits

/-- The count of the digits has ended after as many rounds as there are digits. -/
theorem decimalLength_add {left : Nat} {integer : Int} (small : integer.natAbs < 10 ^ left)
    (more : Nat) : decimalLength (left + more) integer = decimalLength left integer := by
  induction left generalizing integer with
  | zero =>
      have isZero : integer = 0 := by
        rw [Nat.pow_zero] at small
        omega
      rw [isZero, Nat.zero_add]
      cases more with
      | zero => rfl
      | succ more => rfl
  | succ left ih =>
      have smaller : (integer.tdiv 10).natAbs < 10 ^ left := by
        have quotient : (integer.tdiv 10).natAbs = integer.natAbs / 10 := Int.natAbs_tdiv integer 10
        rw [Nat.pow_succ, Nat.mul_comm] at small
        rw [quotient]
        exact Nat.div_lt_of_lt_mul small
      rw [Nat.succ_add, decimalLength, decimalLength, ih smaller]

theorem decimalLength_of_lt {integer : Int} (small : integer.natAbs < 2 ^ 64) (more : Nat) :
    decimalLength (20 + more) integer = decimalLength 20 integer :=
  decimalLength_add (Nat.lt_of_lt_of_le small (by decide)) more

end DecimalDigits

inductive FormatItem
  | literal (char : Byte)
  | directive (format : Byte)

/-- The items of a format; a percent sign at the end is none. -/
def formatItems : List Byte → List FormatItem
  | [] => []
  | char :: rest =>
      if char = 0x25#8 then
        match rest with
        | [] => []
        | format :: rest => .directive format :: formatItems rest
      else .literal char :: formatItems rest

def endsInPercent : List Byte → Bool
  | [] => false
  | char :: rest =>
      if char = 0x25#8 then
        match rest with
        | [] => true
        | _ :: rest => endsInPercent rest
      else endsInPercent rest

structure Formatted where
  shown : List Byte
  taken : Nat

/-- The text of a directive for its argument.  For some there is none, and a
hexadecimal number is left out where its prefix does not fit. -/
def conversionText (space : ByteSpace) (argument : Word) (length : Nat) :
    Conversion → Option (List Byte)
  | .int => some (decimalText argument.toInt)
  | .uint => some (decimalText argument.toNat)
  | .hex => if length + 2 < maxFormatted then some (0x30#8 :: 0x78#8 :: hexText argument) else none
  | .char => some [argument.setWidth 8]
  | .string => some (text maxFormatted (deref space argument))
  | .nothing => none

section Text

variable (space : ByteSpace) (args : Nat → Word)

def Formatted.add (formatted : Formatted) (chars : List Byte) : List Byte :=
  (formatted.shown ++ chars).take maxFormatted

def formatItem (formatted : Formatted) : FormatItem → Formatted
  | .literal char => ⟨formatted.add [char], formatted.taken⟩
  | .directive format =>
      match conversionText space (args formatted.taken) formatted.shown.length
          (conversion format) with
      | some chars => ⟨formatted.add chars, formatted.taken + 1⟩
      | none => formatted

def expand (formatted : Formatted) (string : List Byte) : Formatted :=
  (formatItems string).foldl (formatItem space args) formatted

def Overruns (formatted : Formatted) (string : List Byte) : Prop :=
  endsInPercent string = true ∧ (expand space args formatted string).shown.length < maxFormatted

end Text

section Expansion

variable {space : ByteSpace} {args : Nat → Word} {formatted : Formatted} {string : List Byte}

theorem formatItems_literal {char : Byte} (notPercent : char ≠ 0x25#8) (string : List Byte) :
    formatItems (char :: string) = .literal char :: formatItems string := by
  cases string with
  | nil => simp [formatItems, notPercent]
  | cons next rest => rw [formatItems, if_neg notPercent]

theorem endsInPercent_literal {char : Byte} (notPercent : char ≠ 0x25#8) (string : List Byte) :
    endsInPercent (char :: string) = endsInPercent string := by
  cases string with
  | nil => simp [endsInPercent, notPercent]
  | cons next rest => rw [endsInPercent, if_neg notPercent]

theorem expand_nil : expand space args formatted [] = formatted :=
  rfl

theorem expand_directive (format : Byte) :
    expand space args formatted (0x25#8 :: format :: string) =
      expand space args (formatItem space args formatted (.directive format)) string := by
  rw [expand, formatItems, if_pos rfl, List.foldl_cons, expand]

theorem expand_literal {char : Byte} (notPercent : char ≠ 0x25#8) :
    expand space args formatted (char :: string) =
      expand space args (formatItem space args formatted (.literal char)) string := by
  rw [expand, formatItems_literal notPercent, List.foldl_cons, expand]

theorem length_add_le (formatted : Formatted) (chars : List Byte) :
    (formatted.add chars).length ≤ maxFormatted :=
  List.length_take_le _ _

theorem add_add (formatted : Formatted) (first second : List Byte) (taken : Nat) :
    Formatted.add ⟨formatted.add first, taken⟩ second = formatted.add (first ++ second) := by
  unfold Formatted.add
  dsimp only
  rw [← List.append_assoc]
  rcases Nat.le_total (formatted.shown ++ first).length maxFormatted with fits | full
  · rw [List.take_of_length_le fits]
  · rw [List.take_append_of_le_length full, List.take_append_of_le_length
      (Nat.le_of_eq (List.length_take_of_le full).symm), List.take_take, Nat.min_self]

theorem add_of_full (full : formatted.shown.length = maxFormatted) (chars : List Byte) :
    formatted.add chars = formatted.shown := by
  rw [Formatted.add, List.take_append_of_le_length (Nat.le_of_eq full.symm),
    List.take_of_length_le (Nat.le_of_eq full)]

theorem formatItem_of_full (full : formatted.shown.length = maxFormatted) (item : FormatItem) :
    (formatItem space args formatted item).shown = formatted.shown := by
  cases item with
  | literal char => exact add_of_full full [char]
  | directive format =>
      rw [formatItem]
      split
      · exact add_of_full full _
      · rfl

theorem expand_of_full (full : formatted.shown.length = maxFormatted) (string : List Byte) :
    (expand space args formatted string).shown = formatted.shown := by
  unfold expand
  generalize formatItems string = items
  induction items generalizing formatted with
  | nil => rfl
  | cons item items ih =>
      have same := @formatItem_of_full space args formatted full item
      rw [List.foldl_cons, ih (by rw [same, full]), same]

theorem expand_of_noPercent (short : formatted.shown.length ≤ maxFormatted)
    (noPercent : 0x25#8 ∉ string) :
    expand space args formatted string = ⟨formatted.add string, formatted.taken⟩ := by
  induction string generalizing formatted with
  | nil => rw [expand_nil, Formatted.add, List.append_nil, List.take_of_length_le short]
  | cons char rest ih =>
      rw [List.mem_cons, not_or] at noPercent
      rw [expand_literal (Ne.symm noPercent.1), formatItem, ih (length_add_le _ _) noPercent.2,
        add_add, List.singleton_append]

theorem endsInPercent_of_noPercent (noPercent : 0x25#8 ∉ string) :
    endsInPercent string = false := by
  induction string with
  | nil => rfl
  | cons char rest ih =>
      rw [List.mem_cons, not_or] at noPercent
      rw [endsInPercent_literal (Ne.symm noPercent.1), ih noPercent.2]

end Expansion

section Writing

theorem formatChar_eq (c : Byte) (buffer : TextBuffer) :
    formatChar c buffer = buffer.push maxFormatted c :=
  rfl

theorem formatStringLoop_eq (left : Nat) (s : Stream) (buffer : TextBuffer) :
    formatStringLoop left s buffer = buffer.pushAll maxFormatted (text left s) := by
  induction left generalizing s buffer with
  | zero => rfl
  | succ left ih =>
      rw [formatStringLoop]
      by_cases ends : s 0 = 0#8
      · rw [if_neg (fun both => both.1 ends), text_succ_of_zero ends, TextBuffer.pushAll_nil]
      · rw [text_succ_of_ne ends, TextBuffer.pushAll_cons]
        by_cases room : buffer.offset < maxFormatted
        · rw [if_pos ⟨ends, room⟩, ih, TextBuffer.push, if_pos room]
        · have full := Nat.not_lt.mp room
          rw [if_neg (fun both => room both.2), TextBuffer.push_of_le full,
            TextBuffer.pushAll_of_le full]

theorem formatString_eq (s : Stream) (buffer : TextBuffer) :
    formatString s buffer = buffer.pushAll maxFormatted (text maxFormatted s) :=
  formatStringLoop_eq maxFormatted s buffer

theorem writeNumber_eq (digits : List Byte) (buffer : TextBuffer) :
    writeNumber digits buffer = buffer.pushAll maxFormatted digits := by
  induction digits generalizing buffer with
  | nil => rfl
  | cons digit digits ih =>
      rw [writeNumber, TextBuffer.pushAll_cons]
      by_cases room : buffer.offset < maxFormatted
      · rw [if_pos room, ih, TextBuffer.push, if_pos room]
      · have full := Nat.not_lt.mp room
        rw [if_neg room, TextBuffer.push_of_le full, TextBuffer.pushAll_of_le full]

theorem formatDecimal_eq (integer : Int) (buffer : TextBuffer) :
    formatDecimal integer buffer = buffer.pushAll maxFormatted (decimalText integer) := by
  unfold formatDecimal decimalText
  by_cases isZero : integer = 0
  · rw [if_pos isZero, if_pos isZero]
    rfl
  · rw [if_neg isZero, if_neg isZero, writeNumber_eq]

theorem formatHex_eq (hexInt : Word) (buffer : TextBuffer) :
    formatHex hexInt buffer = buffer.pushAll maxFormatted (hexText hexInt) := by
  have lengthLe := length_hexText_le hexInt
  rw [formatHex, formatString_eq, (holds_intToHex hexInt).text_eq,
    List.take_of_length_le (Nat.le_trans lengthLe (by decide))]

structure FormatState.Shows (state : FormatState) (formatted : Formatted) : Prop where
  buffer : TextBuffer.Shows maxFormatted state.buffer formatted.shown
  taken : state.taken = formatted.taken

variable {space : ByteSpace} {args : Nat → Word} {state : FormatState} {formatted : Formatted}

/-- The prefix of a hexadecimal number is written without a test of its own. -/
theorem push_hexPrefix {buffer : TextBuffer} (room : buffer.offset + 2 < maxFormatted) :
    (buffer.push maxFormatted 0x30#8).push maxFormatted 0x78#8 =
      ⟨update (update buffer.bytes buffer.offset 0x30#8) (buffer.offset + 1) 0x78#8,
        buffer.offset + 2⟩ := by
  have first : buffer.push maxFormatted 0x30#8 =
      ⟨update buffer.bytes buffer.offset 0x30#8, buffer.offset + 1⟩ :=
    if_pos (by omega)
  rw [first]
  exact if_pos (by dsimp only; omega)

theorem FormatState.Shows.formatHandler (shows : state.Shows formatted) (format : Byte) :
    (MmdOS.formatHandler space args format state).Shows
      (formatItem space args formatted (.directive format)) := by
  have written : ∀ chars, FormatState.Shows
      ⟨state.buffer.pushAll maxFormatted chars, state.taken + 1⟩
      ⟨formatted.add chars, state.taken + 1⟩ :=
    fun chars => ⟨shows.buffer.pushAll chars, rfl⟩
  rw [formatItem, MmdOS.formatHandler, ← shows.taken]
  cases conversion format with
  | int =>
      dsimp only [conversionText]
      rw [formatInt, formatDecimal_eq]
      exact written _
  | uint =>
      dsimp only [conversionText]
      rw [formatUint, formatDecimal_eq]
      exact written _
  | hex =>
      dsimp only [conversionText]
      by_cases room : state.buffer.offset + 2 < maxFormatted
      · have roomText : formatted.shown.length + 2 < maxFormatted := by
          rw [← shows.buffer.offset_eq]
          exact room
        rw [if_pos room, if_pos roomText, ← push_hexPrefix room, formatHex_eq]
        exact written (0x30#8 :: 0x78#8 :: hexText _)
      · have noRoom : ¬ formatted.shown.length + 2 < maxFormatted := by
          rw [← shows.buffer.offset_eq]
          exact room
        rw [if_neg room, if_neg noRoom]
        exact shows
  | char =>
      dsimp only [conversionText]
      rw [formatChar_eq]
      exact written [_]
  | string =>
      dsimp only [conversionText]
      rw [formatString_eq]
      exact written _
  | nothing => exact shows

theorem FormatState.Shows.literal (shows : state.Shows formatted)
    (room : state.buffer.offset < maxFormatted) (char : Byte) :
    FormatState.Shows
      ⟨⟨update state.buffer.bytes state.buffer.offset char, state.buffer.offset + 1⟩,
        state.taken⟩ (formatItem space args formatted (.literal char)) := by
  have written := shows.buffer.pushAll [char]
  rw [TextBuffer.pushAll_cons, TextBuffer.pushAll_nil, TextBuffer.push, if_pos room] at written
  exact ⟨written, shows.taken⟩

end Writing

end MmdOS
