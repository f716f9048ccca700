import MmdOS.CountedTable
import MmdOS.VfsReads

/-!
# The table of open files over whole runs

`ustar_open` counts the users of a file that it finds open, and `ustar_close`
empties the slot after the last of them.  As long as the counts fit into
sixteen bits they are exact.

An open file is meant to be found by its name.  But the name that
`is_already_open` compares is empty for every file without a prefix, so such a
file is opened again in another slot, and the empty path finds the first file
that is open.
-/

namespace MmdOS

open CString
open Function (update update_self update_of_ne)

variable {id : Nat} {file : UstarFile} {path : Stream} {name : List Byte}
variable {tarFilename : Stream} {fuel : Nat}
variable {start : Word} {entries : List ArchiveEntry}

/-- What a slot of the table holds, with its count as a number. -/
def UstarFile.slot (file : UstarFile) : (Word × Word) × Nat :=
  ((file.header, file.size), file.references.toNat)

def VfsState.counted (state : VfsState) : CountedTable.Table Nat (Word × Word) :=
  fun id => (state.openFiles id).map UstarFile.slot

theorem VfsState.counted_update (state : VfsState) (id : Nat) (file : Option UstarFile) :
    { state with openFiles := update state.openFiles id file }.counted =
      update state.counted id (file.map UstarFile.slot) := by
  funext other
  exact Function.apply_update (fun (_ : Nat) (held : Option UstarFile) =>
    held.map UstarFile.slot) _ _ _ _

theorem VfsState.counted_of_some {state : VfsState} (fileEq : state.openFiles id = some file) :
    state.counted id = some file.slot := by
  rw [counted, fileEq, Option.map_some]

/-- The file system together with the opens of each id that have not been
matched by a close. -/
structure UstarHistory where
  state : VfsState
  outstanding : Nat → Nat

/-- A call of `ustar_open`, or one of `ustar_close` for an outstanding open.  No
id ever has 65536 outstanding opens. -/
inductive UstarHistory.Step : UstarHistory → UstarHistory → Prop
  | opened {history : UstarHistory} {tarFilename path : Stream} {fuel id : Nat} {after : VfsState}
      (returned : ustarOpen tarFilename fuel history.state path = some ((id : Int), after))
      (fewer : history.outstanding id + 1 < 65536) :
      Step history ⟨after, update history.outstanding id (history.outstanding id + 1)⟩
  | failed {history : UstarHistory} {tarFilename path : Stream} {fuel : Nat} {after : VfsState}
      (returned : ustarOpen tarFilename fuel history.state path = some (-1, after)) :
      Step history ⟨after, history.outstanding⟩
  | closed {history : UstarHistory} {id : Nat} {result : Int} {after : VfsState}
      (isOpen : 1 ≤ history.outstanding id)
      (returned : ustarClose history.state id = some (result, after)) :
      Step history ⟨after, update history.outstanding id (history.outstanding id - 1)⟩

namespace UstarHistory

variable {history next : UstarHistory}

def Exact (history : UstarHistory) : Prop :=
  CountedTable.Exact history.state.counted history.outstanding

theorem Exact.references_eq (exact : history.Exact)
    (fileEq : history.state.openFiles id = some file) :
    file.references.toNat = history.outstanding id ∧ 1 ≤ file.references.toNat :=
  CountedTable.Exact.count exact (VfsState.counted_of_some fileEq)

theorem Exact.opened (exact : history.Exact) {tarFilename path : Stream} {fuel id : Nat}
    {after : VfsState}
    (returned : ustarOpen tarFilename fuel history.state path = some ((id : Int), after))
    (fewer : history.outstanding id + 1 < 65536) :
    Exact ⟨after, update history.outstanding id (history.outstanding id + 1)⟩ ∧
      ∀ other, CountedTable.Keeps history.state.counted after.counted other := by
  generalize resultEq : (id : Int) = result at returned
  cases ustarOpen_opened returned with
  | @reopened slot file already fileEq =>
      have sameId : id = slot := Int.ofNat.inj resultEq
      subst sameId
      have present := VfsState.counted_of_some fileEq
      have wide : (file.references + 1#16).toNat = file.references.toNat + 1 := by
        have := (exact.references_eq fileEq).1
        rw [BitVec.toNat_add]
        change (file.references.toNat + 1) % 65536 = _
        omega
      have tableEq : VfsState.counted { history.state with
          openFiles := update history.state.openFiles id
            (some { file with references := file.references + 1#16 }) } =
          CountedTable.retain history.state.counted id := by
        rw [VfsState.counted_update, CountedTable.retain, present, Option.map_some,
          Option.map_some, UstarFile.slot, UstarFile.slot, wide]
      rw [Exact, tableEq]
      exact ⟨CountedTable.Exact.retain exact (by simp [present]),
        CountedTable.keeps_retain _ id⟩
  | @opened slot header notOpen found nonNull slotEq =>
      have sameId : id = slot := Int.ofNat.inj resultEq
      subst sameId
      have isEmpty : history.state.counted id = none := by
        rw [VfsState.counted, (findOpenId_eq_some slotEq).2, Option.map_none]
      rw [Exact, VfsState.counted_update, Option.map_some]
      exact ⟨CountedTable.Exact.insert exact isEmpty _, CountedTable.keeps_insert isEmpty _⟩
  | failed => omega

theorem Exact.closed (exact : history.Exact) {id : Nat} {result : Int} {after : VfsState}
    (returned : ustarClose history.state id = some (result, after)) :
    Exact ⟨after, update history.outstanding id (history.outstanding id - 1)⟩ ∧
      ∀ other, CountedTable.Keeps history.state.counted after.counted other := by
  obtain ⟨-, file, fileEq, rfl⟩ := ustarClose_eq_some returned
  have positive := (exact.references_eq fileEq).2
  have fewer : (file.references - 1#16).toNat = file.references.toNat - 1 := by
    rw [BitVec.toNat_sub]
    change (65536 - 1 + file.references.toNat) % 65536 = _
    have := file.references.isLt
    omega
  have last : file.references - 1#16 < 1#16 ↔ file.references.toNat ≤ 1 := by
    rw [BitVec.lt_def, fewer]
    change file.references.toNat - 1 < 1 ↔ _
    omega
  have tableEq : VfsState.counted { history.state with
      openFiles := update history.state.openFiles id
        (if file.references - 1#16 < 1#16 then none
          else some { file with references := file.references - 1#16 }) } =
      CountedTable.release history.state.counted id := by
    rw [VfsState.counted_update, CountedTable.release, VfsState.counted_of_some fileEq,
      Option.bind_some]
    congr 1
    by_cases isLast : file.references.toNat ≤ 1
    · rw [if_pos (last.mpr isLast), UstarFile.slot, if_pos isLast, Option.map_none]
    · rw [if_neg (fun small => isLast (last.mp small)), UstarFile.slot, if_neg isLast,
        Option.map_some, UstarFile.slot, fewer]
  rw [Exact, tableEq]
  exact ⟨CountedTable.Exact.release exact id, CountedTable.keeps_release _ id⟩

theorem Exact.step (exact : history.Exact) (step : Step history next) :
    next.Exact ∧ ∀ id, CountedTable.Keeps history.state.counted next.state.counted id := by
  cases step with
  | opened returned fewer => exact exact.opened returned fewer
  | failed returned =>
      generalize resultEq : (-1 : Int) = result at returned
      cases ustarOpen_opened returned with
      | reopened => omega
      | opened => omega
      | failed =>
          refine ⟨exact, fun id slot slot' slotEq slotEq' => ?_⟩
          rw [slotEq, Option.some.injEq] at slotEq'
          rw [slotEq']
  | closed isOpen returned => exact exact.closed returned

theorem exact_of_run {start : VfsState} (noneOpen : ∀ id, start.openFiles id = none)
    (run : Relation.ReflTransGen Step ⟨start, fun _ => 0⟩ history) : history.Exact := by
  induction run with
  | refl =>
      apply CountedTable.Exact.none
      intro id
      rw [VfsState.counted, noneOpen, Option.map_none]
  | tail _ step ih => exact (ih.step step).1

def StepWhileOpen (id : Nat) (history next : UstarHistory) : Prop :=
  Step history next ∧ 1 ≤ next.outstanding id

theorem Exact.kept (exact : history.Exact) {later : UstarHistory}
    (fileEq : history.state.openFiles id = some file)
    (run : Relation.ReflTransGen (StepWhileOpen id) history later) :
    later.Exact ∧ ∃ file', later.state.openFiles id = some file' ∧
      file'.header = file.header ∧ file'.size = file.size := by
  induction run with
  | refl => exact ⟨exact, file, fileEq, rfl, rfl⟩
  | @tail middle later _ step ih =>
      obtain ⟨middleExact, before, beforeEq, headerEq, sizeEq⟩ := ih
      obtain ⟨laterExact, keeps⟩ := middleExact.step step.1
      have present := (CountedTable.Exact.ne_none_iff laterExact).mpr step.2
      cases afterEq : later.state.openFiles id with
      | none => exact absurd (by rw [VfsState.counted, afterEq, Option.map_none]) present
      | some after =>
          have same : after.slot.1 = before.slot.1 :=
            keeps id (VfsState.counted_of_some beforeEq) (VfsState.counted_of_some afterEq)
          rw [UstarFile.slot, UstarFile.slot, Prod.mk.injEq] at same
          exact ⟨laterExact, after, rfl, same.1.trans headerEq, same.2.trans sizeEq⟩

end UstarHistory

def greetingOpen : VfsState :=
  { greetingVfs with
    openFiles := update greetingVfs.openFiles 0 (some ⟨0x10000#64, 1#16, 2#64⟩) }

theorem greeting_ustarOpen :
    ustarOpen (fun _ => 0#8) 4 greetingVfs (advance 1 (stringStream [0x2f#8, 0x61#8])) =
      some (((0 : Nat) : Int), greetingOpen) :=
  ustarOpen_of_found greeting_notOpen greeting_found (by decide) greeting_id
    greeting_loaded.head.fileSize_eq

/-- In every run of opens and closes, a slot of the table is in use exactly as
long as its id has outstanding opens, its count is their number, and header and
size stay as they are as long as one is left. -/
theorem open_counts_exact {start : VfsState} (noneOpen : ∀ id, start.openFiles id = none)
    {history : UstarHistory}
    (run : Relation.ReflTransGen UstarHistory.Step ⟨start, fun _ => 0⟩ history) (id : Nat) :
    (history.state.openFiles id ≠ none ↔ 1 ≤ history.outstanding id) ∧
    ∀ file, history.state.openFiles id = some file →
      file.references.toNat = history.outstanding id ∧
      ∀ later, Relation.ReflTransGen (UstarHistory.StepWhileOpen id) history later →
        ∃ file', later.state.openFiles id = some file' ∧
          file'.header = file.header ∧ file'.size = file.size := by
  have exact := UstarHistory.exact_of_run noneOpen run
  constructor
  · rw [← CountedTable.Exact.ne_none_iff exact, VfsState.counted, Ne, Ne,
      Option.map_eq_none_iff]
  · intro file fileEq
    refine ⟨(exact.references_eq fileEq).1, fun later rest => ?_⟩
    exact (exact.kept fileEq rest).2

theorem open_counts_exact_greeting :
    ∃ file, greetingOpen.openFiles 0 = some file ∧ file.references.toNat = 1 := by
  have run : Relation.ReflTransGen UstarHistory.Step ⟨greetingVfs, fun _ => 0⟩
      ⟨greetingOpen, update (fun _ => 0) 0 1⟩ :=
    .single (.opened greeting_ustarOpen (by decide))
  obtain ⟨inUse, counts⟩ := open_counts_exact (fun _ => rfl) run 0
  exact ⟨_, rfl, (counts _ rfl).1⟩

/-- No file has a prefix, and every name has room for a zero byte and no
backslash. -/
def ShortNames (entries : List ArchiveEntry) : Prop :=
  ∀ entry ∈ entries, entry.filenamePrefix = [] ∧ entry.filename.length < 100 ∧
    0x5c#8 ∉ entry.filename

section Lookup

variable {space : ByteSpace}
variable {matched : ArchiveEntry → Bool}

theorem firstMatch_congr {wanted : ArchiveEntry → Bool}
    (agree : ∀ entry ∈ entries, matched entry = wanted entry) :
    firstMatch matched start entries = firstMatch wanted start entries := by
  induction entries generalizing start with
  | nil => rfl
  | cons entry rest ih =>
      rw [firstMatch, firstMatch, agree entry List.mem_cons_self,
        ih fun other member => agree other (List.mem_cons_of_mem _ member)]

theorem firstMatch_placed (nonNull : firstMatch matched start entries ≠ 0#64) :
    ∃ entry, (firstMatch matched start entries, entry) ∈ placedEntries start entries ∧
      matched entry = true := by
  induction entries generalizing start with
  | nil => exact absurd rfl nonNull
  | cons entry rest ih =>
      rw [firstMatch] at nonNull ⊢
      rw [placedEntries, headerAddresses, List.zip_cons_cons]
      by_cases isMatch : matched entry = true
      · rw [if_pos isMatch]
        exact ⟨entry, List.mem_cons_self, isMatch⟩
      · rw [if_neg isMatch] at nonNull ⊢
        obtain ⟨found, member, isMatched⟩ := ih nonNull
        exact ⟨found, List.mem_cons_of_mem _ member, isMatched⟩

section

variable (loaded : Loaded space start (archive entries)) (short : ShortNames entries)
include loaded short

/-- Short names are found by the full name. -/
theorem Loaded.lookup_by_name (holds : Holds path name) (tarFilename : Stream) :
    tarFileLookup space path start tarFilename (entries.length + 3) =
      some (firstMatch (fun entry => decide (entry.fullName = name)) start entries) := by
  refine (tarFileLookupLoop_eq loaded holds tarFilename).trans (congrArg some ?_)
  apply firstMatch_congr
  intro entry member
  obtain ⟨noPrefix, shortName, noBackslash⟩ := short entry member
  rw [decide_eq_decide]
  exact ArchiveEntry.assembledName_of_plain noPrefix shortName noBackslash _ _

theorem Loaded.lookup_short {header : Word} (holds : Holds path name)
    (found : tarFileLookup space path start tarFilename fuel = some header) :
    header = firstMatch (fun entry => decide (entry.fullName = name)) start entries := by
  have returned := tarFileLookupLoop_mono (loaded.lookup_by_name short holds tarFilename) fuel
  have alsoFound := tarFileLookupLoop_mono found (entries.length + 3)
  rw [Nat.add_comm, alsoFound, Option.some.injEq] at returned
  exact returned

/-- The header of a file with a short name shows no prefix. -/
theorem Loaded.no_prefix {header : Word} {entry : ArchiveEntry}
    (placed : (header, entry) ∈ placedEntries start entries) :
    headerFilenamePrefix space header 0 = 0#8 := by
  have here := (loaded.placed placed).1
  rw [ArchiveEntry.bytes] at here
  have names := here.left.text_headerFilenamePrefix
  rw [(short entry (List.of_mem_zip placed).2).1] at names
  exact text_succ_eq_nil.mp names

end

end Lookup

namespace VfsState

variable {held : Option UstarFile}

/-- A call of `ustar_open`, or one of `ustar_close` for an open file. -/
inductive UstarStep : VfsState → VfsState → Prop
  | opened {state after : VfsState} {tarFilename path : Stream} {fuel : Nat} {result : Int}
      (returned : ustarOpen tarFilename fuel state path = some (result, after)) :
      UstarStep state after
  | closed {state after : VfsState} {id : Nat} {result : Int}
      (returned : ustarClose state id = some (result, after)) : UstarStep state after

/-- The archive is in place, and every open file is one of its entries. -/
structure Holding (start : Word) (entries : List ArchiveEntry) (state : VfsState) : Prop where
  loaded : Loaded state.space start (archive entries)
  startEq : state.tarFsStartAddress = start
  files : ∀ id file, state.openFiles id = some file →
    ∃ entry, (file.header, entry) ∈ placedEntries start entries

def IsOpen (state : VfsState) (header : Word) : Prop :=
  ∃ id file, state.openFiles id = some file ∧ file.header = header

def firstInUse (state : VfsState) : Option Nat :=
  (List.range maxOpenFiles).find? fun id =>
    match state.openFiles id with
    | some file => decide (0#16 < file.references)
    | none => false

/-- `is_already_open` finds the open file with the header, and nothing if there
is none. -/
def FastPathAgrees (state : VfsState) (path : Stream) (header : Word) : Prop :=
  (state.IsOpen header → ∃ id file, isAlreadyOpen state path = some id ∧
    state.openFiles id = some file ∧ file.header = header) ∧
  (¬state.IsOpen header → isAlreadyOpen state path = none)

/-- The path is empty and the first file in use is the one that is looked for,
or that file is not open, and none is in use if the path is empty. -/
def Unaffected (state : VfsState) (name : List Byte) (header : Word) : Prop :=
  (name = [] ∧ ∃ id file, state.firstInUse = some id ∧ state.openFiles id = some file ∧
    file.header = header) ∨
  (¬state.IsOpen header ∧ (name = [] → state.firstInUse = none))

variable {state after : VfsState}

theorem Holding.update (holding : state.Holding start entries) (id : Nat)
    (isEntry : ∀ file, held = some file →
      ∃ entry, (file.header, entry) ∈ placedEntries start entries) :
    Holding start entries
      { state with openFiles := update state.openFiles id held } where
  loaded := holding.loaded
  startEq := holding.startEq
  files := by
    intro other file fileEq
    dsimp only at fileEq
    by_cases same : other = id
    · rw [same, update_self] at fileEq
      exact isEntry file fileEq
    · rw [update_of_ne same] at fileEq
      exact holding.files other file fileEq

theorem Holding.step (holding : state.Holding start entries) (step : UstarStep state after) :
    after.Holding start entries := by
  cases step with
  | opened returned =>
      cases ustarOpen_opened returned with
      | @reopened slot file already fileEq =>
          apply holding.update
          rintro other ⟨⟩
          exact holding.files slot file fileEq
      | @opened slot header notOpen found nonNull slotEq =>
          apply holding.update
          rintro other ⟨⟩
          rw [holding.startEq] at found
          exact holding.loaded.lookup_placed found nonNull
      | failed => exact holding
  | @closed id result returned =>
      obtain ⟨-, file, fileEq, rfl⟩ := ustarClose_eq_some returned
      apply holding.update
      intro other otherEq
      split at otherEq
      · cases otherEq
      · cases otherEq
        exact holding.files id file fileEq

theorem Holding.isAlreadyOpen_eq (holding : state.Holding start entries)
    (short : ShortNames entries) (holds : Holds path name) :
    isAlreadyOpen state path = if name = [] then state.firstInUse else none := by
  have emptyIff : path 0 = 0#8 ↔ name = [] := by
    rw [← @text_succ_eq_nil 255, holds.text_eq]
    cases name <;> simp
  have tests : ∀ id file, state.openFiles id = some file →
      kstrcmp (openFileName state.space file.header) path 256#32 = decide (name = []) := by
    intro id file fileEq
    obtain ⟨entry, placed⟩ := holding.files id file fileEq
    rw [kstrcmp_openFileName (holding.loaded.no_prefix short placed), decide_eq_decide]
    exact emptyIff
  have searchEq : isAlreadyOpen state path = (List.range maxOpenFiles).find? fun id =>
      (match state.openFiles id with
      | some file => decide (0#16 < file.references)
      | none => false) && decide (name = []) := by
    rw [isAlreadyOpen]
    congr 1
    funext id
    cases fileEq : state.openFiles id with
    | none => rfl
    | some file =>
        dsimp only
        rw [tests id file fileEq]
  rw [searchEq, firstInUse]
  by_cases empty : name = []
  · simp [empty]
  · simp [empty]

/-- The fast path agrees with the lookup exactly when the condition holds. -/
theorem Holding.fastPathAgrees_iff (holding : state.Holding start entries)
    (short : ShortNames entries) (holds : Holds path name) (header : Word) :
    state.FastPathAgrees path header ↔ state.Unaffected name header := by
  rw [FastPathAgrees, Unaffected, holding.isAlreadyOpen_eq short holds]
  constructor
  · rintro ⟨found, missing⟩
    by_cases isOpen : state.IsOpen header
    · obtain ⟨id, file, idEq, rest⟩ := found isOpen
      by_cases empty : name = []
      · rw [if_pos empty] at idEq
        exact .inl ⟨empty, id, file, idEq, rest⟩
      · rw [if_neg empty] at idEq
        cases idEq
    · refine .inr ⟨isOpen, fun empty => ?_⟩
      have notFound := missing isOpen
      rwa [if_pos empty] at notFound
  · rintro (⟨empty, id, file, idEq, fileEq, headerEq⟩ | ⟨notOpen, noneInUse⟩)
    · rw [if_pos empty]
      exact ⟨fun _ => ⟨id, file, idEq, fileEq, headerEq⟩,
        fun notOpen => absurd ⟨id, file, fileEq, headerEq⟩ notOpen⟩
    · refine ⟨fun isOpen => absurd isOpen notOpen, fun _ => ?_⟩
      by_cases empty : name = []
      · rw [if_pos empty, noneInUse empty]
      · rw [if_neg empty]

inductive UnaffectedStep : VfsState → VfsState → Prop
  | opened {state after : VfsState} {tarFilename path : Stream} {fuel : Nat} {result : Int}
      {name : List Byte} {header : Word} (holds : Holds path name)
      (found : tarFileLookup state.space path state.tarFsStartAddress tarFilename fuel =
        some header)
      (unaffected : state.Unaffected name header)
      (returned : ustarOpen tarFilename fuel state path = some (result, after)) :
      UnaffectedStep state after
  | closed {state after : VfsState} {id : Nat} {result : Int}
      (returned : ustarClose state id = some (result, after)) : UnaffectedStep state after

def Distinct (state : VfsState) : Prop :=
  ∀ {id id' file file'}, state.openFiles id = some file → state.openFiles id' = some file' →
    file.header = file'.header → id = id'

theorem Distinct.update (distinct : state.Distinct) (id : Nat)
    (fresh : ∀ {file}, held = some file → ∀ {other file'}, other ≠ id →
      state.openFiles other = some file' → file'.header ≠ file.header) :
    Distinct { state with openFiles := update state.openFiles id held } := by
  intro first second file file' fileEq fileEq' sameHeader
  dsimp only at fileEq fileEq'
  by_cases firstHere : first = id
  · by_cases secondHere : second = id
    · exact firstHere.trans secondHere.symm
    · rw [firstHere, update_self] at fileEq
      rw [update_of_ne secondHere] at fileEq'
      exact absurd sameHeader.symm (fresh fileEq secondHere fileEq')
  · by_cases secondHere : second = id
    · rw [secondHere, update_self] at fileEq'
      rw [update_of_ne firstHere] at fileEq
      exact absurd sameHeader (fresh fileEq' firstHere fileEq)
    · rw [update_of_ne firstHere] at fileEq
      rw [update_of_ne secondHere] at fileEq'
      exact distinct fileEq fileEq' sameHeader

/-- An open that meets the condition returns the file that the lookup finds, and
keeps the headers apart. -/
theorem Holding.open_unaffected (holding : state.Holding start entries) (short : ShortNames entries)
    (distinct : state.Distinct) {result : Int} {header : Word} (holds : Holds path name)
    (found : tarFileLookup state.space path state.tarFsStartAddress tarFilename fuel = some header)
    (unaffected : state.Unaffected name header)
    (returned : ustarOpen tarFilename fuel state path = some (result, after)) :
    after.Distinct ∧ ∀ id : Nat, result = (id : Int) →
      ∃ file, after.openFiles id = some file ∧ file.header = header := by
  have agrees := (holding.fastPathAgrees_iff short holds header).mpr unaffected
  cases ustarOpen_opened returned with
  | @reopened slot file already fileEq =>
      have isOpen : state.IsOpen header := by
        by_contra notOpen
        rw [agrees.2 notOpen] at already
        cases already
      obtain ⟨slot', file', already', fileEq', headerEq⟩ := agrees.1 isOpen
      rw [already, Option.some.injEq] at already'
      subst already'
      rw [fileEq, Option.some.injEq] at fileEq'
      subst fileEq'
      constructor
      · apply distinct.update
        rintro updated ⟨⟩ other file' different otherEq sameHeader
        exact different (distinct otherEq fileEq sameHeader)
      · intro id idEq
        have sameId : slot = id := Int.ofNat.inj idEq
        subst sameId
        exact ⟨_, update_self _ _ _, headerEq⟩
  | @opened slot header' notFound found' nonNull slotEq =>
      rw [found, Option.some.injEq] at found'
      subst found'
      have notOpen : ¬state.IsOpen header := by
        intro isOpen
        obtain ⟨id, file, already, -⟩ := agrees.1 isOpen
        rw [notFound] at already
        cases already
      constructor
      · apply distinct.update
        rintro updated ⟨⟩ other file' - otherEq sameHeader
        exact notOpen ⟨other, file', otherEq, sameHeader⟩
      · intro id idEq
        have sameId : slot = id := Int.ofNat.inj idEq
        subst sameId
        exact ⟨_, update_self _ _ _, rfl⟩
  | failed => exact ⟨distinct, fun id idEq => by omega⟩

theorem Holding.unaffectedStep (holding : state.Holding start entries)
    (short : ShortNames entries) (distinct : state.Distinct)
    (step : UnaffectedStep state after) : after.Holding start entries ∧ after.Distinct := by
  cases step with
  | opened holds found unaffected returned =>
      exact ⟨holding.step (.opened returned),
        (holding.open_unaffected short distinct holds found unaffected returned).1⟩
  | @closed id result returned =>
      refine ⟨holding.step (.closed returned), ?_⟩
      obtain ⟨-, file, fileEq, rfl⟩ := ustarClose_eq_some returned
      apply distinct.update
      intro updated updatedEq other file' different otherEq sameHeader
      split at updatedEq
      · cases updatedEq
      · cases updatedEq
        exact different (distinct otherEq fileEq sameHeader)

end VfsState

/-- On an archive with short names, `is_already_open` agrees with the lookup
exactly when its condition holds: for a path that is not empty, the file is not
open.  If all opens meet the condition, no two open files ever share a header,
and the id that an open returns has the header of the first file with the name. -/
theorem fast_path_agrees_iff {start : VfsState} {entries : List ArchiveEntry}
    (loaded : Loaded start.space start.tarFsStartAddress (archive entries))
    (short : ShortNames entries) (noneOpen : ∀ id, start.openFiles id = none) :
    (∀ state, Relation.ReflTransGen VfsState.UstarStep start state →
      ∀ {path tarFilename name fuel header}, Holds path name →
        tarFileLookup state.space path state.tarFsStartAddress tarFilename fuel = some header →
        (state.FastPathAgrees path header ↔ state.Unaffected name header)) ∧
    ∀ state, Relation.ReflTransGen VfsState.UnaffectedStep start state →
      state.Distinct ∧
      ∀ {path tarFilename name fuel header after} {id : Nat}, Holds path name →
        tarFileLookup state.space path state.tarFsStartAddress tarFilename fuel = some header →
        state.Unaffected name header →
        ustarOpen tarFilename fuel state path = some ((id : Int), after) →
        ∃ file entry, after.openFiles id = some file ∧
          (file.header, entry) ∈ placedEntries start.tarFsStartAddress entries ∧
          entry.fullName = name := by
  have holding : start.Holding start.tarFsStartAddress entries :=
    ⟨loaded, rfl, fun id file fileEq => by simp [noneOpen] at fileEq⟩
  constructor
  · intro state run
    have reached : state.Holding start.tarFsStartAddress entries := by
      induction run with
      | refl => exact holding
      | tail _ step ih => exact ih.step step
    intro path tarFilename name fuel header holds _
    exact reached.fastPathAgrees_iff short holds header
  · intro state run
    have reached : state.Holding start.tarFsStartAddress entries ∧ state.Distinct := by
      induction run with
      | refl =>
          refine ⟨holding, ?_⟩
          intro id id' file file' fileEq
          simp [noneOpen] at fileEq
      | tail _ step ih => exact ih.1.unaffectedStep short ih.2 step
    refine ⟨reached.2, ?_⟩
    intro path tarFilename name fuel header after id holds found unaffected returned
    obtain ⟨-, opens⟩ := reached.1.open_unaffected short reached.2 holds found unaffected returned
    obtain ⟨file, fileEq, headerEq⟩ := opens id rfl
    have afterHolding := reached.1.step (.opened returned)
    have nonNull : header ≠ 0#64 := by
      rintro rfl
      obtain ⟨entry, placed⟩ := afterHolding.files id file fileEq
      rw [headerEq] at placed
      exact zero_notMem_headerAddresses loaded (List.of_mem_zip placed).1
    have foundEq := found
    rw [reached.1.startEq] at foundEq
    have headerIs := reached.1.loaded.lookup_short short holds foundEq
    rw [headerIs] at nonNull
    obtain ⟨entry, placed, isNamed⟩ := firstMatch_placed nonNull
    rw [← headerIs, ← headerEq] at placed
    exact ⟨file, entry, fileEq, placed, of_decide_eq_true isNamed⟩

theorem greeting_short : ShortNames [greetingFile] := by
  intro entry member
  rw [List.mem_singleton] at member
  obtain ⟨noPrefix, name⟩ := greeting_names
  rw [member, noPrefix, name]
  decide

def secondFile : ArchiveEntry :=
  ustarEntry [0x62#8] [] [] secondName_length noInit_length noContent_length

theorem secondFile_names : secondFile.filenamePrefix = [] ∧ secondFile.filename = [0x62#8] :=
  ⟨filenamePrefix_ustarEntry (by decide), filename_ustarEntry (by decide)⟩

def pairVfs : VfsState :=
  vfsInit (imageSpace 0x10000#64 (archive [greetingFile, secondFile])) 0x10000#64 (fun _ => 0#8)

theorem greetingFile_length : greetingFile.bytes.length = 1024 :=
  length_ustarEntry_bytes _ _ _ _ _ _

theorem pair_loaded : Loaded pairVfs.space 0x10000#64 (archive [greetingFile, secondFile]) := by
  apply loaded_imageSpace (by decide)
  simp only [archive, greetingFile, secondFile, List.length_append, length_ustarEntry_bytes,
    List.length_replicate, List.length_cons, List.length_nil]
  decide

theorem pair_short : ShortNames [greetingFile, secondFile] := by
  intro entry member
  rcases List.mem_pair.mp member with rfl | rfl
  · exact greeting_short _ List.mem_cons_self
  · rw [secondFile_names.1, secondFile_names.2]
    decide

theorem pair_fullNames :
    greetingFile.fullName = [0x61#8] ∧ secondFile.fullName = [0x62#8] := by
  rw [ArchiveEntry.fullName, if_pos greeting_names.1, greeting_names.2, ArchiveEntry.fullName,
    if_pos secondFile_names.1, secondFile_names.2]
  exact ⟨rfl, rfl⟩

theorem second_path : Holds (stringStream [0x62#8]) [0x62#8] :=
  ⟨by decide, by decide, by decide⟩

theorem pair_found_second :
    tarFileLookup pairVfs.space (stringStream [0x62#8]) 0x10000#64 (fun _ => 0#8) 5 =
      some 0x10400#64 := by
  have second : firstMatch (fun entry => decide (entry.fullName = [0x62#8])) 0x10000#64
      [greetingFile, secondFile] = 0x10400#64 := by
    rw [firstMatch, pair_fullNames.1, firstMatch, pair_fullNames.2, greetingFile_length]
    rfl
  rw [← second]
  exact pair_loaded.lookup_by_name pair_short second_path _

theorem pair_found_first :
    tarFileLookup pairVfs.space (advance 1 (stringStream [0x2f#8, 0x61#8])) 0x10000#64
      (fun _ => 0#8) 5 = some 0x10000#64 := by
  have first : firstMatch (fun entry => decide (entry.fullName = [0x61#8])) 0x10000#64
      [greetingFile, secondFile] = 0x10000#64 := by
    rw [firstMatch, pair_fullNames.1]
    rfl
  rw [← first]
  exact pair_loaded.lookup_by_name pair_short greeting_path _

def secondOpen : VfsState :=
  { pairVfs with
    openFiles := update pairVfs.openFiles 0 (some ⟨0x10400#64, 1#16, 0#64⟩) }

theorem pair_holding : pairVfs.Holding 0x10000#64 [greetingFile, secondFile] :=
  ⟨pair_loaded, rfl, fun _ _ fileEq => by cases fileEq⟩

theorem pair_size : octAsciiToDec (headerFileSize pairVfs.space 0x10400#64) 12#16 = 0#64 := by
  have placed : (0x10400#64, secondFile) ∈
      placedEntries 0x10000#64 [greetingFile, secondFile] := by
    simp [placedEntries, headerAddresses, greetingFile_length]
  have here := (pair_loaded.placed placed).1
  rw [ArchiveEntry.bytes] at here
  exact here.left.fileSize_eq

theorem pair_opens_second :
    ustarOpen (fun _ => 0#8) 5 pairVfs (stringStream [0x62#8]) =
      some (((0 : Nat) : Int), secondOpen) :=
  ustarOpen_of_found (pair_holding.isAlreadyOpen_eq pair_short second_path) pair_found_second
    (by decide) (find?_range_of_first (by decide) rfl (by omega)) pair_size

theorem secondOpen_unaffected : secondOpen.Unaffected [0x61#8] 0x10000#64 := by
  refine .inr ⟨?_, fun empty => by cases empty⟩
  rintro ⟨id, file, fileEq, headerEq⟩
  unfold secondOpen at fileEq
  dsimp only at fileEq
  by_cases first : id = 0
  · rw [first, update_self, Option.some.injEq] at fileEq
    rw [← fileEq] at headerEq
    exact absurd headerEq (by decide)
  · rw [update_of_ne first] at fileEq
    cases fileEq

theorem secondOpen_opens_first : ∃ after,
    ustarOpen (fun _ => 0#8) 5 secondOpen (advance 1 (stringStream [0x2f#8, 0x61#8])) =
      some (((1 : Nat) : Int), after) := by
  have notFound := (pair_holding.step (.opened pair_opens_second)).isAlreadyOpen_eq pair_short
    greeting_path
  have idEq : findOpenId secondOpen = some 1 :=
    find?_range_of_first (by decide) rfl (by decide)
  exact ⟨_, ustarOpen_of_found notFound pair_found_first (by decide) idEq rfl⟩

/-- While the file `b` is open, `a` gets a slot of its own. -/
theorem fast_path_agrees_iff_pair :
    Relation.ReflTransGen VfsState.UnaffectedStep pairVfs secondOpen ∧
    ∃ after file entry,
      ustarOpen (fun _ => 0#8) 5 secondOpen (advance 1 (stringStream [0x2f#8, 0x61#8])) =
        some (((1 : Nat) : Int), after) ∧
      after.Distinct ∧ after.openFiles 1 = some file ∧
      (file.header, entry) ∈ placedEntries 0x10000#64 [greetingFile, secondFile] ∧
      entry.fullName = [0x61#8] := by
  obtain ⟨-, agrees⟩ := @fast_path_agrees_iff pairVfs _ pair_loaded pair_short fun _ => rfl
  have noneOpen : pairVfs.Unaffected [0x62#8] 0x10400#64 := by
    refine .inr ⟨?_, fun empty => by cases empty⟩
    rintro ⟨id, file, fileEq, -⟩
    cases fileEq
  have run : Relation.ReflTransGen VfsState.UnaffectedStep pairVfs secondOpen :=
    .single (.opened second_path pair_found_second noneOpen pair_opens_second)
  obtain ⟨after, opens⟩ := secondOpen_opens_first
  have both := run.tail (.opened greeting_path pair_found_first secondOpen_unaffected opens)
  obtain ⟨file, entry, fileEq, placed, nameEq⟩ :=
    (agrees secondOpen run).2 greeting_path pair_found_first secondOpen_unaffected opens
  exact ⟨run, after, file, entry, opens, (agrees after both).1, fileEq, placed, nameEq⟩

theorem greetingOpen_holding : greetingOpen.Holding 0x10000#64 [greetingFile] := by
  have holding : greetingVfs.Holding 0x10000#64 [greetingFile] :=
    ⟨greeting_loaded, rfl, fun id file fileEq => by cases fileEq⟩
  exact holding.step (.opened greeting_ustarOpen)

/-- The open file `a` is not found to be open, and opening it once more puts its
header into a second slot. -/
theorem fast_path_misses_open_file :
    Relation.ReflTransGen VfsState.UstarStep greetingVfs greetingOpen ∧
    ShortNames [greetingFile] ∧ greetingOpen.IsOpen 0x10000#64 ∧
    tarFileLookup greetingOpen.space (advance 1 (stringStream [0x2f#8, 0x61#8]))
      greetingOpen.tarFsStartAddress (fun _ => 0#8) 4 = some 0x10000#64 ∧
    isAlreadyOpen greetingOpen (advance 1 (stringStream [0x2f#8, 0x61#8])) = none ∧
    ∃ after, ustarOpen (fun _ => 0#8) 4 greetingOpen
        (advance 1 (stringStream [0x2f#8, 0x61#8])) = some (((1 : Nat) : Int), after) ∧
      ¬after.Distinct := by
  have notFound : isAlreadyOpen greetingOpen (advance 1 (stringStream [0x2f#8, 0x61#8])) =
      none := by
    rw [greetingOpen_holding.isAlreadyOpen_eq greeting_short greeting_path]
    rfl
  have idEq : findOpenId greetingOpen = some 1 :=
    find?_range_of_first (by decide) rfl (by decide)
  refine ⟨.single (.opened greeting_ustarOpen), greeting_short, ⟨0, _, rfl, rfl⟩,
    greeting_found, notFound, _,
    ustarOpen_of_found notFound greeting_found (by decide) idEq rfl, ?_⟩
  intro distinct
  have same : 0 = 1 := distinct rfl rfl rfl
  omega

end MmdOS
