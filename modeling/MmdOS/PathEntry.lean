import MmdOS.LineEditor
import MmdOS.UstarLookup

/-!
# Typing a path in `cat` and `ls`

Both programs read a path key by key into an array on their stack, which is not
initialised.  They are described as the system calls that they make, one after the
other; the kernel's answers are open.

A backspace on an empty line is stored like a character, and Enter does not end the
line with a zero byte.
-/

namespace MmdOS

open CString LineEditor

inductive UserCall
  | openFile (path : Stream)
  | close (id : Word)
  | read (id nbytes : Word)
  | print (str : Stream)
  | getch
  | lockStdin
  | unlockStdin
  | readDir (path : Stream) (nbytes : Word)

/-- What a call returns, and the bytes that it has left in the buffer of the caller. -/
structure Answer where
  value : Word
  data : Stream

/-- The array `path`, with whatever the stack holds behind it, and `index`. -/
structure PathBuffer where
  path : Stream
  index : BitVec 16

def asciiText (message : String) : List Byte :=
  message.toList.map fun char => BitVec.ofNat 8 char.toNat

section Programs

inductive PathEntry
  | locking (buffer : PathBuffer)
  | polling (buffer : PathBuffer)
  | echoing (shown : List Byte) (buffer : PathBuffer)

def PathEntry.call : PathEntry → UserCall
  | .locking _ => .lockStdin
  | .polling _ => .getch
  | .echoing shown _ => .print (stringStream shown)

def PathBuffer.append (buffer : PathBuffer) (char : Byte) : PathBuffer :=
  ⟨Function.update buffer.path buffer.index.toNat char, buffer.index + 1#16⟩

def PathBuffer.erase (buffer : PathBuffer) : PathBuffer :=
  ⟨Function.update buffer.path (buffer.index - 1#16).toNat 0#8, buffer.index - 1#16⟩

def PathEntry.step (readChar : Word) : PathEntry → PathEntry ⊕ Stream
  | .locking buffer => .inl (if readChar ≠ 0#64 then .polling buffer else .locking buffer)
  | .polling buffer =>
      if readChar = -1#64 then .inl (.polling buffer)
      else if readChar = 0x0a#64 then .inr buffer.path
      else if readChar = 0x08#64 ∧ 0 < buffer.index.toNat then
        .inl (.echoing [0x08#8, 0x20#8, 0x08#8] buffer.erase)
      else .inl (.echoing [readChar.setWidth 8] (buffer.append (readChar.setWidth 8)))
  | .echoing _ buffer => .inl (.polling buffer)

inductive CatState
  | entering (entry : PathEntry)
  | ending (path : Stream)
  | opening (path : Stream)
  | failing
  | reading (id : Word)
  | showing (id read : Word) (buffer : Stream)
  | closing (id : Word)
  | unlocking
  | returned

namespace CatState

def call : CatState → Option UserCall
  | .entering entry => some entry.call
  | .ending _ => some (.print (stringStream [0x0a#8]))
  | .opening path => some (.openFile path)
  | .failing => some (.print (stringStream (asciiText "file could not be open!")))
  | .reading id => some (.read id 511#64)
  | .showing _ _ buffer => some (.print buffer)
  | .closing id => some (.close id)
  | .unlocking => some .unlockStdin
  | .returned => none

/-- The descriptor is an `int`. -/
def step (state : CatState) (answer : Answer) : CatState :=
  match state with
  | .entering entry =>
      match entry.step answer.value with
      | .inl entry => .entering entry
      | .inr path => .ending path
  | .ending path => .opening path
  | .opening _ =>
      if (answer.value.setWidth 32).toInt < 0 then .failing
      else .reading ((answer.value.setWidth 32).signExtend 64)
  | .failing => .unlocking
  | .reading id =>
      .showing id answer.value (Function.update answer.data answer.value.toNat 0#8)
  | .showing id read _ => if read ≠ 0#64 then .reading id else .closing id
  | .closing _ => .unlocking
  | .unlocking => .returned
  | .returned => .returned

end CatState

inductive LsState
  | entering (entry : PathEntry)
  | listing (path : Stream)
  | showing (buffer : Stream)
  | unlocking
  | returned

namespace LsState

def call : LsState → Option UserCall
  | .entering entry => some entry.call
  | .listing path => some (.readDir path 1023#64)
  | .showing buffer => some (.print buffer)
  | .unlocking => some .unlockStdin
  | .returned => none

/-- The listing starts behind a line break, and `read` is a position in front of it. -/
def step (state : LsState) (answer : Answer) : LsState :=
  match state with
  | .entering entry =>
      match entry.step answer.value with
      | .inl entry => .entering entry
      | .inr path => .listing path
  | .listing _ =>
      .showing (Function.update (fun i => if i = 0 then 0x0a#8 else answer.data (i - 1))
        answer.value.toNat 0#8)
  | .showing _ => .unlocking
  | .unlocking => .returned
  | .returned => .returned

end LsState

def startEntry (initial : Stream) : PathEntry :=
  .locking ⟨initial, 0#16⟩

def catRun (initial : Stream) (answers : List Answer) : CatState :=
  answers.foldl CatState.step (.entering (startEntry initial))

def lsRun (initial : Stream) (answers : List Answer) : LsState :=
  answers.foldl LsState.step (.entering (startEntry initial))

end Programs

section Sessions

variable {keys : List Byte}

/-- Answers that type some keys: a call returns -1 while no key is there, and every
key is echoed. -/
inductive Typing : List Byte → List Answer → Prop
  | nothing : Typing [] []
  | idle {keys : List Byte} {answers : List Answer} {poll : Answer} (isIdle : poll.value = -1#64)
      (later : Typing keys answers) : Typing keys (poll :: answers)
  | key {keys : List Byte} {answers : List Answer} {poll echo : Answer} {c : Byte}
      (isKey : poll.value = c.setWidth 64) (later : Typing keys answers) :
      Typing (c :: keys) (poll :: echo :: answers)

/-- The answers up to Enter: the keyboard is busy at first, then it is locked and the
keys are typed. -/
structure Session (keys : List Byte) where
  busy : List Answer
  allBusy : ∀ answer ∈ busy, answer.value = 0#64
  locked : Answer
  isLocked : locked.value ≠ 0#64
  typing : List Answer
  types : Typing keys typing
  enter : Answer
  isEnter : enter.value = 0x0a#64

def Session.answers {keys : List Byte} (session : Session keys) : List Answer :=
  session.busy ++ session.locked :: (session.typing ++ [session.enter])

def PathBuffer.press (buffer : PathBuffer) (c : Byte) : PathBuffer :=
  if c = 0x08#8 ∧ 0 < buffer.index.toNat then buffer.erase else buffer.append c

def typeKeys (initial : Stream) (keys : List Byte) : PathBuffer :=
  keys.foldl PathBuffer.press ⟨initial, 0#16⟩

theorem setWidth_word_inj {c d : Byte} : c.setWidth 64 = d.setWidth 64 ↔ c = d := by
  constructor
  · intro same
    simpa using congrArg (BitVec.setWidth 8) same
  · exact congrArg _

theorem setWidth_word_ne (c : Byte) : c.setWidth 64 ≠ -1#64 := by
  intro same
  have small := c.isLt
  have value : (c.setWidth 64).toNat = (-1#64).toNat := congrArg BitVec.toNat same
  rw [BitVec.toNat_setWidth] at value
  simp only [BitVec.toNat_neg, BitVec.toNat_ofNat] at value
  omega

theorem PathEntry.step_key {c : Byte} (notEnter : c ≠ 0x0a#8) (buffer : PathBuffer) :
    ∃ shown, (PathEntry.polling buffer).step (c.setWidth 64) =
      .inl (.echoing shown (buffer.press c)) := by
  have enter : c.setWidth 64 = 0x0a#64 ↔ c = 0x0a#8 := @setWidth_word_inj c 0x0a#8
  have erase : c.setWidth 64 = 0x08#64 ↔ c = 0x08#8 := @setWidth_word_inj c 0x08#8
  have char : (c.setWidth 64).setWidth 8 = c := by simp
  simp only [PathEntry.step, PathBuffer.press, if_neg (setWidth_word_ne c), enter, if_neg notEnter,
    erase, char]
  split
  · exact ⟨_, rfl⟩
  · exact ⟨_, rfl⟩

section Embedding

variable {State : Type} {step : State → Answer → State} {entering : PathEntry → State}
  (embeds : ∀ entry answer next, entry.step answer.value = .inl next →
    step (entering entry) answer = entering next)

include embeds

theorem foldl_busy {busy : List Answer} (allBusy : ∀ answer ∈ busy, answer.value = 0#64)
    (buffer : PathBuffer) :
    busy.foldl step (entering (.locking buffer)) = entering (.locking buffer) := by
  induction busy with
  | nil => rfl
  | cons answer busy ih =>
      have isBusy := allBusy answer List.mem_cons_self
      rw [List.foldl_cons, embeds _ _ (.locking buffer) (by simp [PathEntry.step, isBusy])]
      exact ih fun other member => allBusy other (List.mem_cons_of_mem _ member)

theorem foldl_typing {answers : List Answer} (types : Typing keys answers) (noEnter : 0x0a#8 ∉ keys)
    (buffer : PathBuffer) :
    answers.foldl step (entering (.polling buffer)) =
      entering (.polling (keys.foldl PathBuffer.press buffer)) := by
  induction types generalizing buffer with
  | nothing => rfl
  | idle isIdle later ih =>
      rw [List.foldl_cons, embeds _ _ (.polling buffer) (by simp [PathEntry.step, isIdle])]
      exact ih noEnter buffer
  | @key keys answers poll echo c isKey later ih =>
      rw [List.mem_cons, not_or] at noEnter
      obtain ⟨shown, pressed⟩ := PathEntry.step_key (Ne.symm noEnter.1) buffer
      rw [← isKey] at pressed
      -- There are two calls for a key: one reads it, and one prints it.
      rw [List.foldl_cons, embeds _ _ _ pressed, List.foldl_cons, embeds _ _ _ rfl]
      exact ih noEnter.2 (buffer.press c)

theorem foldl_session (session : Session keys) (noEnter : 0x0a#8 ∉ keys) (initial : Stream) :
    session.answers.foldl step (entering (startEntry initial)) =
      step (entering (.polling (typeKeys initial keys))) session.enter := by
  have isLocked := session.isLocked
  rw [Session.answers, List.foldl_append, startEntry, foldl_busy embeds session.allBusy,
    List.foldl_cons, embeds _ _ (.polling ⟨initial, 0#16⟩) (by simp [PathEntry.step, isLocked]),
    List.foldl_append, foldl_typing embeds session.types noEnter]
  rfl

end Embedding

theorem PathEntry.step_enter (buffer : PathBuffer) :
    (PathEntry.polling buffer).step 0x0a#64 = .inr buffer.path :=
  rfl

theorem call_catRun (session : Session keys) (noEnter : 0x0a#8 ∉ keys) (initial : Stream)
    (printed : Answer) :
    (catRun initial (session.answers ++ [printed])).call =
      some (.openFile (typeKeys initial keys).path) := by
  have embeds : ∀ (entry : PathEntry) (answer : Answer) (next : PathEntry),
      entry.step answer.value = .inl next →
        CatState.step (.entering entry) answer = .entering next := by
    intro entry answer next stepEq
    rw [CatState.step, stepEq]
  rw [catRun, List.foldl_append, foldl_session embeds session noEnter, CatState.step, session.isEnter,
    PathEntry.step_enter]
  rfl

theorem call_lsRun (session : Session keys) (noEnter : 0x0a#8 ∉ keys) (initial : Stream) :
    (lsRun initial session.answers).call =
      some (.readDir (typeKeys initial keys).path 1023#64) := by
  have embeds : ∀ (entry : PathEntry) (answer : Answer) (next : PathEntry),
      entry.step answer.value = .inl next →
        LsState.step (.entering entry) answer = .entering next := by
    intro entry answer next stepEq
    rw [LsState.step, stepEq]
  rw [lsRun, foldl_session embeds session noEnter, LsState.step, session.isEnter,
    PathEntry.step_enter]
  rfl

end Sessions

end MmdOS
