import MmdOS.KernelStrings
import MmdOS.LineEditor
import MmdOS.TextBuffer
import MmdOS.UstarLookup

/-!
# The line of the prompt

The prompt keeps the length of its line twice: as a position in the buffer, and as
a number of eight bits that tells an empty line from another one.  The two agree as
long as the line has at most 255 characters.  Neither is compared with the size of
the buffer.
-/

namespace MmdOS

open CString LineEditor

def promptBufferSize : Nat := 1024

/-- The global variables of the prompt.  The buffer is followed by whatever memory
holds behind it. -/
structure PromptState where
  lineLen : BitVec 8
  buffer : Stream
  bufferPointer : BitVec 16
  lineNum : BitVec 8

inductive Program
  | cat
  | gol
  | snake
  | ls
  deriving DecidableEq

/-- What is done with a line: the screen is cleared, a process is created, or the
line is printed. -/
inductive Command
  | clear
  | create (program : Program)
  | print (line : List Byte)
  deriving DecidableEq

/-- The commands `clear`, `cat`, `gol`, `snake` and `ls`; only the first characters
of the line are compared. -/
def lineCommand (buffer : Stream) : Command :=
  if kstrcmp buffer (stringStream [0x63#8, 0x6c#8, 0x65#8, 0x61#8, 0x72#8]) 5#32 then .clear
  else if kstrcmp buffer (stringStream [0x63#8, 0x61#8, 0x74#8]) 3#32 then .create .cat
  else if kstrcmp buffer (stringStream [0x67#8, 0x6f#8, 0x6c#8]) 3#32 then .create .gol
  else if kstrcmp buffer (stringStream [0x73#8, 0x6e#8, 0x61#8, 0x6b#8, 0x65#8]) 5#32 then
    .create .snake
  else if kstrcmp buffer (stringStream [0x6c#8, 0x73#8]) 2#32 then .create .ls
  else .print (text promptBufferSize buffer)

/-- `prompt_clear`, without its output. -/
def promptClear (state : PromptState) : PromptState :=
  { state with lineNum := 1#8, lineLen := 0#8 }

structure EnterResult where
  state : PromptState
  command : Option Command
  prompts : Bool

/-- The body of `if (line_len > 0)`. -/
def runCommand (command : Command) (state : PromptState) : PromptState :=
  let state := { state with lineNum := state.lineNum + 1#8 }
  match command with
  | .clear => promptClear state
  | _ => state

def promptEnterHandler (state : PromptState) : EnterResult :=
  let command := if 0 < state.lineLen.toNat then some (lineCommand state.buffer) else none
  let after := match command with
    | some command => runCommand command state
    | none => state
  { state :=
      { lineLen := 0#8
        buffer := fun i => if i < promptBufferSize then 0#8 else state.buffer i
        bufferPointer := 0#16
        lineNum := after.lineNum + 1#8 }
    command := command
    prompts := match command with
      | some (.create _) => false
      | _ => true }

def promptCharHandler (c : Byte) (state : PromptState) : PromptState :=
  if c = 0x0a#8 then state
  else
    { state with
      lineLen := state.lineLen + 1#8
      buffer := Function.update state.buffer state.bufferPointer.toNat c
      bufferPointer := state.bufferPointer + 1#16 }

def promptBackspaceHandler (state : PromptState) : PromptState :=
  if state.lineLen = 0#8 then state
  else
    { state with
      lineLen := state.lineLen - 1#8
      bufferPointer := state.bufferPointer - 1#16
      buffer := Function.update state.buffer (state.bufferPointer - 1#16).toNat 0#8 }

def promptHandler (state : PromptState) (c : Byte) : PromptState :=
  if c = 0x08#8 then promptBackspaceHandler state
  else if c = 0x0a#8 then (promptEnterHandler state).state
  else promptCharHandler c state

def promptRun (keys : List Byte) (state : PromptState) : PromptState :=
  keys.foldl promptHandler state

/-- The last byte of the buffer is left for the zero byte that ends the line. -/
def promptFits (length : Nat) : Bool :=
  length < promptBufferSize - 1

def promptLine (keys : List Byte) : List Byte :=
  edited 0x08#8 promptFits keys

/-- The state shows a line: both lengths are right, the buffer holds the line in front
of zeros, and Enter runs a command exactly if the line is not empty. -/
structure PromptState.Shows (state : PromptState) (line : List Byte) : Prop where
  lineLen : state.lineLen.toNat = line.length
  buffer : TextBuffer.Shows promptBufferSize ⟨state.buffer, state.bufferPointer.toNat⟩ line
  enter : (promptEnterHandler state).command.isSome ↔ line ≠ []

structure PromptState.Overrun (state : PromptState) : Prop where
  long : 256 ≤ state.bufferPointer.toNat
  wrapped : state.lineLen.toNat = state.bufferPointer.toNat % 256

section Steps

variable {state : PromptState} {line : List Byte} {key : Byte}

theorem isSome_command : (promptEnterHandler state).command.isSome ↔ 0 < state.lineLen.toNat := by
  by_cases positive : 0 < state.lineLen.toNat
  · simp [promptEnterHandler, positive]
  · simp [promptEnterHandler, positive]

namespace PromptState

theorem shows_of (lineLen : state.lineLen.toNat = line.length)
    (buffer : TextBuffer.Shows promptBufferSize ⟨state.buffer, state.bufferPointer.toNat⟩ line) :
    state.Shows line := by
  refine ⟨lineLen, buffer, ?_⟩
  rw [isSome_command, lineLen, List.length_pos_iff]

theorem shows_enter (state : PromptState) : (promptEnterHandler state).state.Shows [] := by
  apply shows_of rfl
  exact ⟨rfl, Nat.zero_le _, fun i below => absurd below (Nat.not_lt_zero i),
    fun _ _ inside => if_pos inside⟩

theorem Shows.pointer (shows : state.Shows line) : state.bufferPointer.toNat = line.length :=
  shows.buffer.offset_eq

theorem Shows.backspace (shows : state.Shows line) :
    (promptBackspaceHandler state).Shows line.dropLast := by
  have lineLen := shows.lineLen
  have pointer := shows.pointer
  unfold promptBackspaceHandler
  by_cases isEmpty : line = []
  · rw [isEmpty] at shows lineLen
    have isZero : state.lineLen = 0#8 := BitVec.eq_of_toNat_eq lineLen
    rw [if_pos isZero, isEmpty]
    exact shows
  · have positive := List.length_pos_of_ne_nil isEmpty
    have nonzero : state.lineLen ≠ 0#8 := by
      intro isZero
      rw [isZero] at lineLen
      exact absurd lineLen.symm (Nat.ne_of_gt positive)
    have lineLenEq : (state.lineLen - 1#8).toNat = line.length - 1 := by
      rw [toNat_sub_one (by rwa [lineLen]), lineLen]
    have pointerEq : (state.bufferPointer - 1#16).toNat = line.length - 1 := by
      rw [toNat_sub_one (by rwa [pointer]), pointer]
    have popped := shows.buffer.pop isEmpty
    rw [if_neg nonzero]
    apply shows_of
    · rw [List.length_dropLast]
      exact lineLenEq
    · dsimp only at popped ⊢
      rw [pointerEq]
      rwa [pointer] at popped

theorem toNat_succ_lineLen (state : PromptState) :
    (state.lineLen + 1#8).toNat = (state.lineLen.toNat + 1) % 256 :=
  BitVec.toNat_add _ _

theorem toNat_succ_pointer (state : PromptState) :
    (state.bufferPointer + 1#16).toNat = (state.bufferPointer.toNat + 1) % 65536 :=
  BitVec.toNat_add _ _

theorem Shows.char (shows : state.Shows line) (short : line.length < 255) (notEnter : key ≠ 0x0a#8) :
    (promptCharHandler key state).Shows (line ++ [key]) := by
  have lineLen := shows.lineLen
  have pointer := shows.pointer
  have room : line.length < promptBufferSize := by
    rw [promptBufferSize]
    omega
  have pushed := shows.buffer.push_of_room room key
  rw [TextBuffer.push, if_pos (by dsimp only; rwa [pointer])] at pushed
  rw [promptCharHandler, if_neg notEnter]
  apply shows_of
  · dsimp only
    rw [toNat_succ_lineLen, lineLen, List.length_append, List.length_singleton]
    omega
  · dsimp only
    rw [toNat_succ_pointer, Nat.mod_eq_of_lt (by omega)]
    exact pushed

theorem Shows.overrun (shows : state.Shows line) (length : line.length = 255)
    (notEnter : key ≠ 0x0a#8) : (promptCharHandler key state).Overrun := by
  have lineLen := shows.lineLen
  have pointer := shows.pointer
  rw [promptCharHandler, if_neg notEnter]
  constructor
  · dsimp only
    rw [toNat_succ_pointer]
    omega
  · dsimp only
    rw [toNat_succ_lineLen, toNat_succ_pointer]
    omega

/-- The two lengths cannot meet again before the position wraps as well. -/
theorem Overrun.backspace (overrun : state.Overrun) : (promptBackspaceHandler state).Overrun := by
  obtain ⟨long, wrapped⟩ := overrun
  unfold promptBackspaceHandler
  by_cases isZero : state.lineLen = 0#8
  · rw [if_pos isZero]
    exact ⟨long, wrapped⟩
  · have positive := toNat_pos_of_ne_zero isZero
    have lineLenEq := toNat_sub_one positive
    have pointerEq := toNat_sub_one (Nat.lt_of_lt_of_le (by decide) long)
    rw [if_neg isZero]
    constructor
    · dsimp only
      rw [pointerEq]
      omega
    · dsimp only
      rw [lineLenEq, pointerEq]
      omega

theorem Overrun.char (overrun : state.Overrun)
    (inside : state.bufferPointer.toNat < promptBufferSize) (notEnter : key ≠ 0x0a#8) :
    (promptCharHandler key state).Overrun := by
  obtain ⟨long, wrapped⟩ := overrun
  -- Inside the buffer only the length of eight bits can wrap, not the position.
  rw [promptBufferSize] at inside
  rw [promptCharHandler, if_neg notEnter]
  constructor
  · dsimp only
    rw [toNat_succ_pointer]
    omega
  · dsimp only
    rw [toNat_succ_lineLen, toNat_succ_pointer]
    omega

theorem Overrun.not_shows (overrun : state.Overrun) (line : List Byte) : ¬state.Shows line := by
  intro shows
  have lineLen := shows.lineLen
  have pointer := shows.pointer
  have small := state.lineLen.isLt
  have long := overrun.long
  omega

end PromptState

end Steps

section Runs

variable {start : PromptState} {keys : List Byte} {key : Byte}

theorem promptRun_concat (keys : List Byte) (key : Byte) (state : PromptState) :
    promptRun (keys ++ [key]) state = promptHandler (promptRun keys state) key := by
  simp [promptRun]

theorem promptLine_concat (keys : List Byte) (key : Byte) :
    promptLine (keys ++ [key]) = press 0x08#8 promptFits (promptLine keys) key :=
  edited_concat keys key

theorem promptHandler_backspace (state : PromptState) :
    promptHandler state 0x08#8 = promptBackspaceHandler state :=
  if_pos rfl

theorem promptHandler_char (notErase : key ≠ 0x08#8) (notEnter : key ≠ 0x0a#8)
    (state : PromptState) : promptHandler state key = promptCharHandler key state := by
  rw [promptHandler, if_neg notErase, if_neg notEnter]

theorem promptFits_of_le {length : Nat} (short : length ≤ 255) : promptFits length = true := by
  rw [promptFits, decide_eq_true_eq, promptBufferSize]
  omega

def ShortLines (keys : List Byte) : Prop :=
  ∀ typed, typed <+: keys → (promptLine typed).length ≤ 255

theorem shows_promptRun (shows : start.Shows []) (noEnter : 0x0a#8 ∉ keys) (short : ShortLines keys) :
    (promptRun keys start).Shows (promptLine keys) := by
  induction keys using List.reverseRecOn with
  | nil => exact shows
  | append_singleton keys key ih =>
      rw [List.mem_append, List.mem_singleton, not_or] at noEnter
      obtain ⟨shortBefore, shortAfter⟩ := forall_prefix_concat.mp short
      have before := ih noEnter.1 shortBefore
      have shortLine : (promptLine keys).length ≤ 255 := shortBefore keys List.prefix_rfl
      rw [promptRun_concat, promptLine_concat]
      by_cases isErase : key = 0x08#8
      · rw [isErase, press_erase, promptHandler_backspace]
        exact before.backspace
      · rw [promptLine_concat, press_char isErase (promptFits_of_le shortLine)] at shortAfter
        rw [press_char isErase (promptFits_of_le shortLine),
          promptHandler_char isErase (Ne.symm noEnter.2)]
        rw [List.length_append, List.length_singleton] at shortAfter
        exact before.char (by omega) (Ne.symm noEnter.2)

theorem overrun_promptRun (shows : start.Shows []) (noEnter : 0x0a#8 ∉ keys)
    (inside : ∀ typed, typed <+: keys →
      (promptRun typed start).bufferPointer.toNat ≤ promptBufferSize - 1)
    (tooLong : ¬ShortLines keys) : (promptRun keys start).Overrun := by
  induction keys using List.reverseRecOn with
  | nil =>
      refine absurd (fun typed isPrefix => ?_) tooLong
      rw [List.prefix_nil.mp isPrefix]
      exact Nat.zero_le _
  | append_singleton keys key ih =>
      rw [List.mem_append, List.mem_singleton, not_or] at noEnter
      have insideBefore := (forall_prefix_concat.mp inside).1
      have pointer := insideBefore keys List.prefix_rfl
      have notEnter := Ne.symm noEnter.2
      rw [promptRun_concat]
      by_cases shortBefore : ShortLines keys
      · -- this character makes the line too long
        have before := shows_promptRun shows noEnter.1 shortBefore
        have shortLine : (promptLine keys).length ≤ 255 := shortBefore keys List.prefix_rfl
        have longAfter : 255 < (promptLine (keys ++ [key])).length := by
          by_contra shortAfter
          exact tooLong (forall_prefix_concat.mpr ⟨shortBefore, Nat.not_lt.mp shortAfter⟩)
        rw [promptLine_concat] at longAfter
        by_cases isErase : key = 0x08#8
        · rw [isErase, press_erase, List.length_dropLast] at longAfter
          omega
        · rw [press_char isErase (promptFits_of_le shortLine), List.length_append,
            List.length_singleton] at longAfter
          rw [promptHandler_char isErase notEnter]
          exact before.overrun (by omega) notEnter
      · have before := ih noEnter.1 insideBefore shortBefore
        by_cases isErase : key = 0x08#8
        · rw [isErase, promptHandler_backspace]
          exact before.backspace
        · rw [promptHandler_char isErase notEnter]
          rw [promptBufferSize] at pointer
          exact before.char (by rw [promptBufferSize]; omega) notEnter

/-- Behind an Enter, the prompt edits its line as it should exactly if the line never
has more than 255 characters. -/
theorem prompt_edits_iff (before : PromptState) (noEnter : 0x0a#8 ∉ keys) :
    ((promptRun keys (promptEnterHandler before).state).Shows (promptLine keys) ∧
      ∀ typed, typed <+: keys →
        (promptRun typed (promptEnterHandler before).state).bufferPointer.toNat ≤
          promptBufferSize - 1) ↔
      ∀ typed, typed <+: keys → (promptLine typed).length ≤ 255 := by
  have start := PromptState.shows_enter before
  constructor
  · rintro ⟨shows, inside⟩
    by_contra tooLong
    exact (overrun_promptRun start noEnter inside tooLong).not_shows _ shows
  · intro short
    refine ⟨shows_promptRun start noEnter short, fun typed isPrefix => ?_⟩
    have noEnterBefore : 0x0a#8 ∉ typed := fun member => noEnter (isPrefix.subset member)
    have shows := shows_promptRun start noEnterBefore fun other otherPrefix =>
      short other (otherPrefix.trans isPrefix)
    have shortLine := short typed isPrefix
    rw [shows.pointer, promptBufferSize]
    omega

def emptyPrompt : PromptState :=
  ⟨0#8, fun _ => 0#8, 0#16, 1#8⟩

theorem prompt_edits_ls :
    promptLine [0x6c#8, 0x08#8, 0x6c#8, 0x73#8] = [0x6c#8, 0x73#8] ∧
      (promptRun [0x6c#8, 0x08#8, 0x6c#8, 0x73#8] (promptEnterHandler emptyPrompt).state).Shows
        [0x6c#8, 0x73#8] := by
  refine ⟨by decide, ((prompt_edits_iff emptyPrompt (by decide)).mpr ?_).1⟩
  intro typed isPrefix
  have lengthLe := isPrefix.length_le
  have editedLe := @length_edited_le Byte _ 0x08#8 promptFits typed
  change typed.length ≤ 4 at lengthLe
  exact editedLe.trans (by omega)

/-- After 256 characters Enter takes the line for an empty one. -/
theorem prompt_forgets_long_line :
    promptLine (List.replicate 256 0x61#8) = List.replicate 256 0x61#8 ∧
      (promptEnterHandler (promptRun (List.replicate 256 0x61#8)
        (promptEnterHandler emptyPrompt).state)).command = none ∧
      ¬(promptRun (List.replicate 256 0x61#8) (promptEnterHandler emptyPrompt).state).Shows
        (List.replicate 256 0x61#8) := by
  have noCommand : (promptEnterHandler (promptRun (List.replicate 256 0x61#8)
      (promptEnterHandler emptyPrompt).state)).command = none := by decide +kernel
  refine ⟨by decide +kernel, noCommand, fun shows => ?_⟩
  have runs := shows.enter.mpr (List.cons_ne_nil _ _)
  rw [noCommand] at runs
  cases runs

end Runs

end MmdOS
