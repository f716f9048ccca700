import MmdOS.UstarArchive

/-!
# Finding a file by its name

`tar_file_lookup` assembles the name of each record in one buffer and compares
it with the path.  The name is not always the full name of the file: a prefix
that does not fill its field ends the name, a prefix that does is followed by
the file name without a slash, and a file name that fills its field runs on
into the next field.

On a malformed archive the walk may also go back, since the size that it
decodes is not checked and the addition wraps.
-/

namespace MmdOS

open CString

variable {string : List Byte} {space : ByteSpace} {entry : ArchiveEntry}

/-- `tar_filename` with the name of a record written into it. -/
def assembleName (space : ByteSpace) (record : Word) (tarFilename : Stream) : Stream :=
  if headerFilenamePrefix space record 0 ≠ 0#8 then
    kstrcpy (kstrcpy tarFilename 0 (headerFilenamePrefix space record) 155) 155
      (headerFilename space record) 100
  else kstrcpy tarFilename 0 (headerFilename space record) 155

def slashChar (char : Byte) : Byte :=
  if char = 0x5c#8 then 0x2f#8 else char

/-- The loop that turns backslashes into slashes. -/
def replaceBackslashes (tarFilename : Stream) : Stream :=
  fun i => if i < 255 then slashChar (tarFilename i) else tarFilename i

structure LookupState where
  tarFilename : Stream
  zeroCounter : Nat
  currentRecord : Word

section Code

variable (space : ByteSpace) (searchedFile : Stream)

/-- One round of the loop: it goes on in the next state or returns a header. -/
def lookupRound (state : LookupState) : LookupState ⊕ Word :=
  if isZeroed space state.currentRecord then
    .inl { state with zeroCounter := state.zeroCounter + 1 }
  else
    let tarFilename :=
      replaceBackslashes (assembleName space state.currentRecord state.tarFilename)
    if kstrcmp tarFilename searchedFile 256#32 then .inr state.currentRecord
    else .inl ⟨tarFilename, 0, nextRecord space state.currentRecord⟩

/-- The loop; no result means that it is still running. -/
def tarFileLookupLoop : (fuel : Nat) → LookupState → Option Word
  | 0, _ => none
  | fuel + 1, state =>
      if state.zeroCounter < 2 then
        match lookupRound space searchedFile state with
        | .inl next => tarFileLookupLoop fuel next
        | .inr header => some header
      else some 0#64

/-- `tar_file_lookup` with what its uninitialised buffer holds. -/
def tarFileLookup (tarFsStartAddress : Word) (tarFilename : Stream) (fuel : Nat) : Option Word :=
  tarFileLookupLoop space searchedFile fuel ⟨tarFilename, 0, tarFsStartAddress⟩

end Code

namespace ArchiveEntry

variable (entry : ArchiveEntry)

def field (offset : Nat) : Stream :=
  fun i => entry.header[offset + i]?.getD 0#8

/-- The file name, which ends with its field if there is no zero byte. -/
def filename : List Byte := text 100 (entry.field 0)

def filenamePrefix : List Byte := text 155 (entry.field 345)

def fullName : List Byte :=
  if entry.filenamePrefix = [] then entry.filename
  else entry.filenamePrefix ++ 0x2f#8 :: entry.filename

/-- The name that `tar_file_lookup` compares with the path.  The last byte of
its buffer is never written. -/
def assembledName (lastByte : Byte) : List Byte :=
  if entry.filenamePrefix = [] then (text 155 (entry.field 0)).map slashChar
  else if entry.filenamePrefix.length < 155 then entry.filenamePrefix.map slashChar
  else (entry.filenamePrefix ++ entry.filename).map slashChar ++
    (if entry.filename.length < 100 ∨ lastByte = 0#8 then [] else [lastByte])

end ArchiveEntry

theorem slashChar_ne_zero {char : Byte} (nonzero : char ≠ 0#8) : slashChar char ≠ 0#8 := by
  unfold slashChar
  split
  · decide
  · exact nonzero

theorem zero_notMem_map_slashChar (noZero : 0#8 ∉ string) :
    0#8 ∉ string.map slashChar := by
  intro member
  obtain ⟨char, inString, isZero⟩ := List.mem_map.mp member
  exact slashChar_ne_zero (fun charZero => noZero (charZero ▸ inString)) isZero

/-- The last byte of the buffer is never written. -/
theorem replaceBackslashes_assembleName_last (space : ByteSpace) (record : Word)
    (tarFilename : Stream) :
    replaceBackslashes (assembleName space record tarFilename) 255 = tarFilename 255 := by
  unfold replaceBackslashes assembleName
  rw [if_neg (by omega)]
  split
  · rw [kstrcpy_apply, if_neg (by omega), kstrcpy_apply, if_neg (by omega)]
  · rw [kstrcpy_apply, if_neg (by omega)]

/-- A buffer that starts with the characters of a string up to its end holds
the string after the replacement, too. -/
theorem text_replaceBackslashes {buffer : Stream} (short : string.length < 255)
    (noZero : 0#8 ∉ string) (chars : ∀ i < string.length, string[i]? = some (buffer i))
    (stops : buffer string.length = 0#8) :
    text 256 (replaceBackslashes buffer) = string.map slashChar := by
  rw [text_eq_iff, List.length_map]
  refine ⟨by omega, zero_notMem_map_slashChar noZero, ?_, ?_⟩
  · intro i below
    rw [List.getElem?_map, chars i below, Option.map_some, replaceBackslashes, if_pos (by omega)]
  · intro _
    rw [replaceBackslashes, if_pos (by omega), stops]
    decide

namespace Loaded

variable {space : ByteSpace} {start : Word} {entry : ArchiveEntry}

section

variable (loaded : Loaded space start entry.header)
include loaded

theorem field_eq {offset i : Nat} (below : offset + i < 512) :
    deref space start (offset + i) = entry.field offset i := by
  rw [ArchiveEntry.field, loaded.bytes_eq _ (by rw [entry.header_length]; omega),
    Option.getD_some]

theorem text_headerFilename {limit : Nat} (limitLe : limit ≤ 512) :
    text limit (headerFilename space start) =
      text limit (entry.field 0) := by
  apply text_congr
  intro i below
  have same : deref space start (0 + i) = entry.field 0 i := loaded.field_eq (by omega)
  rwa [Nat.zero_add] at same

theorem text_headerFilenamePrefix :
    text 155 (headerFilenamePrefix space start) = entry.filenamePrefix := by
  apply text_congr
  intro i below
  rw [headerFilenamePrefix, advance_apply, Nat.add_comm]
  exact loaded.field_eq (by omega)

/-- A file name that fills its field ends at the latest with the size field. -/
theorem length_text_headerFilename :
    (text 155 (headerFilename space start)).length < 155 := by
  have isZero : headerFilename space start 135 = 0#8 := by
    have sizeEnd := entry.size_field 11 (by omega)
    have last : (octalField entry.content.length)[11]? = some 0#8 := rfl
    rw [last, loaded.bytes_eq 135 (by rw [entry.header_length]; omega),
      Option.some.injEq] at sizeEnd
    exact sizeEnd
  have ended := length_text_le_of_zero 155 isZero
  omega

end

end Loaded

/-- What the buffer holds when the prefix fills its field. -/
theorem text_of_full_prefix {first second tarFilename : Stream}
    (full : (text 155 first).length = 155) :
    text 256 (replaceBackslashes (kstrcpy (kstrcpy tarFilename 0 first 155) 155 second 100)) =
      (text 155 first ++ text 100 second).map slashChar ++
        (if (text 100 second).length < 100 ∨ tarFilename 255 = 0#8 then []
          else [tarFilename 255]) := by
  have secondLe := length_text_le 100 second
  have noZero : 0#8 ∉ text 155 first ++ text 100 second := by
    rw [List.mem_append, not_or]
    exact ⟨zero_notMem_text _ _, zero_notMem_text _ _⟩
  have length : (text 155 first ++ text 100 second).length = 155 + (text 100 second).length := by
    rw [List.length_append, full]
  have chars : ∀ i < (text 155 first ++ text 100 second).length,
      (text 155 first ++ text 100 second)[i]? =
        some (kstrcpy (kstrcpy tarFilename 0 first 155) 155 second 100 i) := by
    intro i below
    rw [length] at below
    rw [kstrcpy_apply]
    by_cases inFirst : i < 155
    · rw [if_neg (by omega), kstrcpy_apply, if_pos (by omega), Nat.sub_zero,
        List.getElem?_append_left (by omega), getElem?_text (by omega)]
    · rw [if_pos (by omega), List.getElem?_append_right (by omega), full,
        getElem?_text (by omega)]
  by_cases short : (text 100 second).length < 100
  · rw [if_pos (Or.inl short), List.append_nil]
    apply text_replaceBackslashes (by omega) noZero chars
    rw [length, kstrcpy_apply, if_pos (by omega), Nat.add_sub_cancel_left, text_stops short]
  · -- all 255 bytes are written, so the byte behind them decides where the name ends
    have last : replaceBackslashes
        (kstrcpy (kstrcpy tarFilename 0 first 155) 155 second 100) 255 = tarFilename 255 := by
      rw [replaceBackslashes, if_neg (by omega), kstrcpy_apply, if_neg (by omega), kstrcpy_apply,
        if_neg (by omega)]
    have replaced : ∀ i < 255, ((text 155 first ++ text 100 second).map slashChar)[i]? =
        some (replaceBackslashes
          (kstrcpy (kstrcpy tarFilename 0 first 155) 155 second 100) i) := by
      intro i below
      rw [List.getElem?_map, chars i (by omega), Option.map_some, replaceBackslashes,
        if_pos (by omega)]
    rw [text_eq_iff]
    by_cases lastZero : tarFilename 255 = 0#8
    · rw [if_pos (Or.inr lastZero), List.append_nil, List.length_map, length]
      have whole : 155 + (text 100 second).length = 255 := by omega
      rw [whole]
      exact ⟨by omega, zero_notMem_map_slashChar noZero, replaced,
        fun _ => last.trans lastZero⟩
    · rw [if_neg (by simp [short, lastZero]), List.length_append, List.length_map, length,
        List.length_singleton]
      refine ⟨by omega, ?_, ?_, by omega⟩
      · rw [List.mem_append, List.mem_singleton, not_or]
        exact ⟨zero_notMem_map_slashChar noZero, fun isZero => lastZero isZero.symm⟩
      · intro i below
        by_cases inside : i < 255
        · rw [List.getElem?_append_left (by rw [List.length_map]; omega), replaced i inside]
        · have atLast : i = 255 := by omega
          rw [atLast, last, List.getElem?_append_right (by rw [List.length_map]; omega),
            List.length_map, length]
          have whole : 255 - (155 + (text 100 second).length) = 0 := by omega
          rw [whole]
          rfl

/-- The buffer holds the assembled name of the header. -/
theorem text_assembleName {start : Word} (loaded : Loaded space start entry.header)
    (tarFilename : Stream) :
    text 256 (replaceBackslashes (assembleName space start tarFilename)) =
      entry.assembledName (tarFilename 255) := by
  have noPrefix : headerFilenamePrefix space start 0 = 0#8 ↔ entry.filenamePrefix = [] := by
    rw [← loaded.text_headerFilenamePrefix]
    exact text_succ_eq_nil.symm
  unfold assembleName ArchiveEntry.assembledName
  by_cases empty : entry.filenamePrefix = []
  · rw [if_pos empty, if_neg (fun nonzero => nonzero (noPrefix.mpr empty)),
      ← loaded.text_headerFilename (by omega)]
    have short := loaded.length_text_headerFilename
    apply text_replaceBackslashes (by omega) (zero_notMem_text _ _)
    · intro i below
      rw [kstrcpy_apply, if_pos (by omega), Nat.sub_zero, getElem?_text below]
    · rw [kstrcpy_apply, if_pos (by omega), Nat.sub_zero, text_stops short]
  · rw [if_neg empty, if_pos (fun isZero => empty (noPrefix.mp isZero)),
      ← loaded.text_headerFilenamePrefix]
    by_cases short : (text 155 (headerFilenamePrefix space start)).length < 155
    · rw [if_pos short]
      apply text_replaceBackslashes (by omega) (zero_notMem_text _ _)
      · intro i below
        rw [kstrcpy_apply, if_neg (by omega), kstrcpy_apply, if_pos (by omega), Nat.sub_zero,
          getElem?_text below]
      · rw [kstrcpy_apply, if_neg (by omega), kstrcpy_apply, if_pos (by omega), Nat.sub_zero,
          text_stops short]
    · have full : (text 155 (headerFilenamePrefix space start)).length = 155 := by
        have := length_text_le 155 (headerFilenamePrefix space start)
        omega
      rw [if_neg short, text_of_full_prefix full, loaded.text_headerFilename (by omega)]
      rfl

section Rounds

variable {space : ByteSpace} {searchedFile : Stream} {state : LookupState}

theorem lookupRound_of_isZeroed (zeroed : isZeroed space state.currentRecord = true) :
    lookupRound space searchedFile state =
      .inl { state with zeroCounter := state.zeroCounter + 1 } := by
  rw [lookupRound, if_pos zeroed]

theorem tarFileLookupLoop_inl {next : LookupState} (running : state.zeroCounter < 2)
    (round : lookupRound space searchedFile state = .inl next) (fuel : Nat) :
    tarFileLookupLoop space searchedFile (fuel + 1) state =
      tarFileLookupLoop space searchedFile fuel next := by
  rw [tarFileLookupLoop, if_pos running, round]

theorem tarFileLookupLoop_inr {header : Word} (running : state.zeroCounter < 2)
    (round : lookupRound space searchedFile state = .inr header) (fuel : Nat) :
    tarFileLookupLoop space searchedFile (fuel + 1) state = some header := by
  rw [tarFileLookupLoop, if_pos running, round]

/-- A zero block ends the search in the next two rounds. -/
theorem tarFileLookupLoop_of_isZeroed (fresh : state.zeroCounter = 0)
    (zeroed : isZeroed space state.currentRecord = true) (fuel : Nat) :
    tarFileLookupLoop space searchedFile (fuel + 3) state = some 0#64 := by
  have second : lookupRound space searchedFile
      { state with zeroCounter := state.zeroCounter + 1 } =
        .inl { state with zeroCounter := state.zeroCounter + 1 + 1 } :=
    lookupRound_of_isZeroed zeroed
  rw [tarFileLookupLoop_inl (by omega) (lookupRound_of_isZeroed zeroed),
    tarFileLookupLoop_inl (by dsimp only; omega) second, tarFileLookupLoop,
    if_neg (by dsimp only; omega)]

/-- More fuel does not change a result. -/
theorem tarFileLookupLoop_mono {fuel : Nat} {result : Word}
    (returned : tarFileLookupLoop space searchedFile fuel state = some result) (more : Nat) :
    tarFileLookupLoop space searchedFile (fuel + more) state = some result := by
  induction fuel generalizing state with
  | zero => cases returned
  | succ fuel ih =>
      rw [Nat.succ_add, tarFileLookupLoop]
      rw [tarFileLookupLoop] at returned
      split at returned
      · next running =>
        rw [if_pos running]
        cases round : lookupRound space searchedFile state with
        | inl next =>
            rw [round] at returned
            exact ih returned
        | inr header =>
            rw [round] at returned
            exact returned
      · next ended =>
        rw [if_neg ended]
        exact returned

end Rounds

def firstMatch (matched : ArchiveEntry → Bool) (start : Word) : List ArchiveEntry → Word
  | [] => 0#64
  | entry :: rest =>
      if matched entry then start
      else firstMatch matched (start + BitVec.ofNat 64 entry.bytes.length) rest

theorem firstMatch_mem (matched : ArchiveEntry → Bool) (start : Word)
    (entries : List ArchiveEntry) :
    firstMatch matched start entries = 0#64 ∨
      firstMatch matched start entries ∈ headerAddresses start entries := by
  induction entries generalizing start with
  | nil => exact Or.inl rfl
  | cons entry rest ih =>
      rw [firstMatch, headerAddresses]
      split
      · exact Or.inr List.mem_cons_self
      · rcases ih (start + BitVec.ofNat 64 entry.bytes.length) with missing | found
        · exact Or.inl missing
        · exact Or.inr (List.mem_cons_of_mem _ found)

theorem firstMatch_ne_head {start : Word} {rest : List ArchiveEntry}
    (loaded : Loaded space start (archive (entry :: rest))) (matched : ArchiveEntry → Bool) :
    firstMatch matched (start + BitVec.ofNat 64 entry.bytes.length) rest ≠ start := by
  intro same
  rcases firstMatch_mem matched (start + BitVec.ofNat 64 entry.bytes.length) rest with
    missing | found
  · exact loaded.nonNull (same.symm.trans missing)
  · rw [same] at found
    exact (List.nodup_cons.mp (headerAddresses_nodup loaded)).1 found

/-- Two properties first hold of the same entry exactly when they agree on
every entry up to the first one with the second property. -/
theorem firstMatch_eq_iff {start : Word} {entries : List ArchiveEntry}
    (loaded : Loaded space start (archive entries)) (matched wanted : ArchiveEntry → Bool) :
    firstMatch matched start entries = firstMatch wanted start entries ↔
      ∀ before entry after, entries = before ++ entry :: after →
        (∀ earlier ∈ before, wanted earlier = false) → matched entry = wanted entry := by
  induction entries generalizing start with
  | nil =>
      constructor
      · intro _ before entry after split
        cases before <;> cases split
      · exact fun _ => rfl
  | cons head rest ih =>
      have restLoaded := Loaded.right loaded (archive_length_pos rest)
      have others := firstMatch_ne_head loaded
      rw [firstMatch, firstMatch]
      constructor
      · intro same before entry after split earlier
        cases before with
        | nil =>
            rw [List.nil_append, List.cons.injEq] at split
            obtain ⟨rfl, -⟩ := split
            cases isMatched : matched head <;> cases isWanted : wanted head
            · rfl
            · simp [isMatched, isWanted, others] at same
            · simp [isMatched, isWanted, (others _).symm] at same
            · rfl
        | cons first before =>
            rw [List.cons_append, List.cons.injEq] at split
            obtain ⟨rfl, split⟩ := split
            have notWanted := earlier head List.mem_cons_self
            have notMatched : matched head = false := by
              cases isMatched : matched head with
              | false => rfl
              | true => simp [notWanted, isMatched, (others _).symm] at same
            rw [notWanted, notMatched] at same
            exact (ih restLoaded).mp same before entry after split
              fun other inBefore => earlier other (List.mem_cons_of_mem _ inBefore)
      · intro agree
        have headEq := agree [] head rest rfl (by simp)
        rw [headEq]
        cases isWanted : wanted head with
        | true => rfl
        | false =>
            apply (ih restLoaded).mpr
            intro before entry after split earlier
            apply agree (head :: before) entry after (by rw [split]; rfl)
            intro other inBefore
            rcases List.mem_cons.mp inBefore with rfl | inBefore
            · exact isWanted
            · exact earlier other inBefore

/-- The lookup returns the first entry whose assembled name is the path. -/
theorem tarFileLookupLoop_eq {searchedFile : Stream} {start : Word} {entries : List ArchiveEntry}
    {path : List Byte} (loaded : Loaded space start (archive entries))
    (holds : Holds searchedFile path) (tarFilename : Stream) :
    tarFileLookupLoop space searchedFile (entries.length + 3) ⟨tarFilename, 0, start⟩ =
      some (firstMatch
        (fun entry => decide (entry.assembledName (tarFilename 255) = path.take 256))
        start entries) := by
  induction entries generalizing start tarFilename with
  | nil => exact tarFileLookupLoop_of_isZeroed rfl loaded.end_isZeroed 0
  | cons entry rest ih =>
      have compared : kstrcmp
          (replaceBackslashes (assembleName space start tarFilename)) searchedFile 256#32 =
            decide (entry.assembledName (tarFilename 255) = path.take 256) := by
        rw [← text_assembleName loaded.head tarFilename, ← holds.text_eq, Bool.eq_iff_iff,
          decide_eq_true_iff]
        exact kstrcmp_eq_true (by omega) (by omega)
      have round : lookupRound space searchedFile ⟨tarFilename, 0, start⟩ =
          if entry.assembledName (tarFilename 255) = path.take 256 then .inr start
          else .inl ⟨replaceBackslashes (assembleName space start tarFilename), 0,
            nextRecord space start⟩ := by
        simp [lookupRound, loaded.head.not_isZeroed, compared]
      rw [firstMatch]
      by_cases isMatch : entry.assembledName (tarFilename 255) = path.take 256
      · rw [if_pos isMatch] at round
        rw [List.length_cons, Nat.succ_add, tarFileLookupLoop_inr Nat.zero_lt_two round]
        simp [isMatch]
      · rw [if_neg isMatch] at round
        rw [List.length_cons, Nat.succ_add, tarFileLookupLoop_inl Nat.zero_lt_two round,
          ih loaded.tail, replaceBackslashes_assembleName_last, nextRecord_eq loaded.head]
        simp [isMatch]

theorem map_slashChar (noBackslash : 0x5c#8 ∉ string) :
    string.map slashChar = string := by
  conv_rhs => rw [← List.map_id string]
  apply List.map_congr_left
  intro char member
  have different : char ≠ 0x5c#8 := fun isBackslash => noBackslash (isBackslash ▸ member)
  rw [slashChar, if_neg different, id]

/-- A string that a character in front leaves as it is with the last one gone
consists of this character. -/
theorem eq_replicate_of_shift {α : Type} {string : List α} {first last : α}
    (shifted : string ++ [last] = first :: string) :
    string = List.replicate string.length first ∧ last = first := by
  induction string generalizing last with
  | nil => simpa using shifted
  | cons head tail ih =>
      rw [List.cons_append, List.cons.injEq] at shifted
      obtain ⟨rfl, shifted⟩ := shifted
      obtain ⟨tailEq, lastEq⟩ := ih shifted
      refine ⟨?_, lastEq⟩
      rw [List.length_cons, List.replicate_succ, ← tailEq]

namespace ArchiveEntry

variable {entry : ArchiveEntry} {lastByte : Byte} {path : List Byte}

/-- The file name ends with a zero byte, in its field or right behind it. -/
def NameEnds (entry : ArchiveEntry) : Prop :=
  entry.filename.length < 100 ∨ entry.field 100 0 = 0#8

instance (entry : ArchiveEntry) : Decidable entry.NameEnds :=
  inferInstanceAs (Decidable (_ ∨ _))

/-- What the header of a file has to look like for the path to be taken for its
name.  `lastByte` is the last byte of the buffer. -/
inductive TakenFor (entry : ArchiveEntry) (lastByte : Byte) (path : List Byte) : Prop
  /-- Backslashes of the name are compared as slashes. -/
  | name (noPrefix : entry.filenamePrefix = []) (ends : entry.NameEnds)
      (same : entry.filename.map slashChar = path)
  /-- A name that does not end with its field goes on in the fields behind it. -/
  | runsOn (noPrefix : entry.filenamePrefix = []) (goesOn : ¬entry.NameEnds)
      (same : (entry.filename ++ text 55 (entry.field 100)).map slashChar = path)
  /-- A prefix that ends in its field is compared without the name. -/
  | initOnly (hasPrefix : entry.filenamePrefix ≠ []) (short : entry.filenamePrefix.length < 155)
      (same : entry.filenamePrefix.map slashChar = path)
  /-- A prefix that fills its field is joined to the name without a slash. -/
  | joined (full : entry.filenamePrefix.length = 155)
      (ends : entry.filename.length < 100 ∨ lastByte = 0#8)
      (same : (entry.filenamePrefix ++ entry.filename).map slashChar = path)
  /-- If both fill their fields, the last byte of the buffer belongs to the name. -/
  | overrun (full : entry.filenamePrefix.length = 155) (fills : entry.filename.length = 100)
      (nonzero : lastByte ≠ 0#8)
      (same : (entry.filenamePrefix ++ entry.filename).map slashChar ++ [lastByte] =
        path.take 256)

/-- The files that are found by their full names: those without a prefix whose
names end with their fields, and an odd one that consists of slashes. -/
def Findable (entry : ArchiveEntry) (lastByte : Byte) : Prop :=
  (entry.filenamePrefix = [] ∧ entry.NameEnds) ∨
    (entry.filenamePrefix.length = 155 ∧ entry.filename = List.replicate 100 0x2f#8 ∧
      lastByte = 0x2f#8)

theorem length_filename_le : entry.filename.length ≤ 100 :=
  length_text_le _ _

theorem length_filenamePrefix_le : entry.filenamePrefix.length ≤ 155 :=
  length_text_le _ _

theorem text_field : text 155 (entry.field 0) =
    entry.filename ++ if entry.NameEnds then [] else text 55 (entry.field 100) := by
  have behind : advance 100 (entry.field 0) = entry.field 100 := by
    funext i
    rw [advance_apply, field, field, Nat.zero_add, Nat.add_comm]
  by_cases short : entry.filename.length < 100
  · rw [if_pos (.inl short), List.append_nil]
    exact text_of_short short (by omega)
  · have full : (text 100 (entry.field 0)).length = 100 :=
      Nat.le_antisymm length_filename_le (Nat.not_lt.mp short)
    have longer := @text_add 100 55 (entry.field 0) full
    rw [behind] at longer
    rw [longer]
    split
    · next ends =>
        rw [text_succ_eq_nil.mpr (ends.resolve_left short)]
        rfl
    · rfl

theorem take_eq_iff {name : List Byte} (short : name.length < 256) :
    name = path.take 256 ↔ name = path := by
  constructor
  · intro same
    have lengthEq := congrArg List.length same
    rw [List.length_take] at lengthEq
    rwa [List.take_of_length_le (by omega)] at same
  · rintro rfl
    exact (List.take_of_length_le (by omega)).symm

theorem text_field_length (entry : ArchiveEntry) : (text 155 (entry.field 0)).length < 256 := by
  have := length_text_le 155 (entry.field 0)
  omega

/-- Without a prefix the name is compared, with what follows it if it runs on. -/
theorem takenFor_iff_of_noPrefix (noPrefix : entry.filenamePrefix = []) :
    entry.TakenFor lastByte path ↔
      (entry.filename ++ if entry.NameEnds then [] else text 55 (entry.field 100)).map slashChar =
        path := by
  have notFull : entry.filenamePrefix.length ≠ 155 := by
    rw [noPrefix]
    decide
  constructor
  · intro taken
    cases taken with
    | name _ ends same => simpa [ends] using same
    | runsOn _ goesOn same => simpa [goesOn] using same
    | initOnly hasPrefix => exact absurd noPrefix hasPrefix
    | joined full => exact absurd full notFull
    | overrun full => exact absurd full notFull
  · intro same
    by_cases ends : entry.NameEnds
    · exact .name noPrefix ends (by simpa [ends] using same)
    · exact .runsOn noPrefix ends (by simpa [ends] using same)

theorem takenFor_iff_of_short (hasPrefix : entry.filenamePrefix ≠ [])
    (short : entry.filenamePrefix.length < 155) :
    entry.TakenFor lastByte path ↔ entry.filenamePrefix.map slashChar = path := by
  constructor
  · intro taken
    cases taken with
    | initOnly _ _ same => exact same
    | name empty => exact absurd empty hasPrefix
    | runsOn empty => exact absurd empty hasPrefix
    | joined full => omega
    | overrun full => omega
  · exact .initOnly hasPrefix short

theorem takenFor_iff_of_full (full : entry.filenamePrefix.length = 155) :
    entry.TakenFor lastByte path ↔
      (entry.filenamePrefix ++ entry.filename).map slashChar ++
        (if entry.filename.length < 100 ∨ lastByte = 0#8 then [] else [lastByte]) =
        path.take 256 := by
  have nameLe := @length_filename_le entry
  have hasPrefix : entry.filenamePrefix ≠ [] := List.ne_nil_of_length_pos (by omega)
  have joinedLt : ((entry.filenamePrefix ++ entry.filename).map slashChar).length < 256 := by
    rw [List.length_map, List.length_append]
    omega
  constructor
  · intro taken
    cases taken with
    | joined _ ends same => rwa [if_pos ends, List.append_nil, take_eq_iff joinedLt]
    | overrun _ fills nonzero same => rwa [if_neg (by simp [fills, nonzero])]
    | name empty => exact absurd empty hasPrefix
    | runsOn empty => exact absurd empty hasPrefix
    | initOnly _ short => omega
  · intro same
    split at same
    · next ends =>
      rw [List.append_nil, take_eq_iff joinedLt] at same
      exact .joined full ends same
    · next goesOn =>
      rw [not_or] at goesOn
      exact .overrun full (by omega) goesOn.2 same

theorem assembledName_eq_iff :
    entry.assembledName lastByte = path.take 256 ↔ entry.TakenFor lastByte path := by
  have initLe := @length_filenamePrefix_le entry
  unfold assembledName
  by_cases noPrefix : entry.filenamePrefix = []
  · rw [if_pos noPrefix, take_eq_iff (by simpa using entry.text_field_length), text_field,
      takenFor_iff_of_noPrefix noPrefix]
  · rw [if_neg noPrefix]
    by_cases short : entry.filenamePrefix.length < 155
    · rw [if_pos short, take_eq_iff (by rw [List.length_map]; omega),
        takenFor_iff_of_short noPrefix short]
    · rw [if_neg short, takenFor_iff_of_full (by omega)]

theorem takenFor_fullName_iff (noBackslash : 0x5c#8 ∉ entry.fullName) :
    entry.TakenFor lastByte entry.fullName ↔ entry.Findable lastByte := by
  have nameLe := @length_filename_le entry
  have initLe := @length_filenamePrefix_le entry
  by_cases noPrefix : entry.filenamePrefix = []
  · have fullEq : entry.fullName = entry.filename := if_pos noPrefix
    rw [takenFor_iff_of_noPrefix noPrefix, fullEq]
    rw [fullEq] at noBackslash
    by_cases ends : entry.NameEnds
    · rw [if_pos ends, List.append_nil, map_slashChar noBackslash]
      exact iff_of_true rfl (.inl ⟨noPrefix, ends⟩)
    · rw [if_neg ends]
      refine iff_of_false ?_ ?_
      · intro same
        -- what the name goes on with would be empty
        have lengthEq := congrArg List.length same
        rw [List.length_map, List.length_append] at lengthEq
        have nothing : text 55 (entry.field 100) = [] :=
          List.eq_nil_of_length_eq_zero (by omega)
        exact ends (.inr (text_succ_eq_nil.mp nothing))
      · rintro (⟨-, nameEnds⟩ | ⟨full, -⟩)
        · exact ends nameEnds
        · rw [noPrefix] at full
          exact absurd full (by decide)
  · have fullEq : entry.fullName = entry.filenamePrefix ++ 0x2f#8 :: entry.filename :=
      if_neg noPrefix
    rw [fullEq] at noBackslash ⊢
    have lengthEq : (entry.filenamePrefix ++ 0x2f#8 :: entry.filename).length =
        entry.filenamePrefix.length + entry.filename.length + 1 := by
      simp
      omega
    by_cases short : entry.filenamePrefix.length < 155
    · rw [takenFor_iff_of_short noPrefix short]
      refine iff_of_false ?_ ?_
      · intro same
        have := congrArg List.length same
        rw [List.length_map, lengthEq] at this
        omega
      · rintro (⟨empty, -⟩ | ⟨full, -⟩)
        · exact noPrefix empty
        · omega
    · have full : entry.filenamePrefix.length = 155 := by omega
      have plain : (entry.filenamePrefix ++ entry.filename).map slashChar =
          entry.filenamePrefix ++ entry.filename := by
        apply map_slashChar
        simp only [List.mem_append, List.mem_cons, not_or] at noBackslash ⊢
        exact ⟨noBackslash.1, noBackslash.2.2⟩
      rw [takenFor_iff_of_full full, List.take_of_length_le (by omega), plain, List.append_assoc,
        List.append_cancel_left_eq]
      constructor
      · intro same
        have goesOn : ¬(entry.filename.length < 100 ∨ lastByte = 0#8) := by
          intro ends
          have := congrArg List.length same
          rw [if_pos ends, List.append_nil, List.length_cons] at this
          omega
        rw [if_neg goesOn] at same
        obtain ⟨slashes, lastEq⟩ := eq_replicate_of_shift same
        rw [show entry.filename.length = 100 by omega] at slashes
        exact .inr ⟨full, slashes, lastEq⟩
      · rintro (⟨empty, -⟩ | ⟨-, slashes, lastEq⟩)
        · exact absurd empty noPrefix
        · rw [slashes, lastEq, if_neg (by decide), ← List.replicate_succ', List.replicate_succ]

end ArchiveEntry

/-- A file without a prefix, with a name that leaves room for a zero byte and
has no backslash, is compared by its full name. -/
theorem ArchiveEntry.assembledName_of_plain (noPrefix : entry.filenamePrefix = [])
    (short : entry.filename.length < 100) (noBackslash : 0x5c#8 ∉ entry.filename) (lastByte : Byte)
    (path : List Byte) :
    entry.assembledName lastByte = path.take 256 ↔ entry.fullName = path := by
  have ends : entry.NameEnds := .inl short
  rw [assembledName, fullName, if_pos noPrefix, if_pos noPrefix, text_field, if_pos ends,
    List.append_nil, map_slashChar noBackslash]
  exact take_eq_iff (by omega)

/-- For a path without backslashes, `tar_file_lookup` returns the first file with
this full name, and `NULL` if there is none, exactly when no file in front of it
has a header for which the path is taken, and the file itself can be found by its
full name. -/
theorem lookup_by_full_name_iff {space : ByteSpace} {searchedFile : Stream} {start : Word}
    {entries : List ArchiveEntry} {path : List Byte}
    (loaded : Loaded space start (archive entries)) (holds : Holds searchedFile path)
    (noBackslash : 0x5c#8 ∉ path) (tarFilename : Stream) :
    (∃ fuel, tarFileLookup space searchedFile start tarFilename fuel =
      some (firstMatch (fun entry => decide (entry.fullName = path)) start entries)) ↔
    ∀ before entry after, entries = before ++ entry :: after →
      (∀ earlier ∈ before, earlier.fullName ≠ path) →
      (entry.fullName ≠ path → ¬entry.TakenFor (tarFilename 255) path) ∧
      (entry.fullName = path → entry.Findable (tarFilename 255)) := by
  have returned := tarFileLookupLoop_eq loaded holds tarFilename
  have result : (∃ fuel, tarFileLookup space searchedFile start tarFilename fuel =
      some (firstMatch (fun entry => decide (entry.fullName = path)) start entries)) ↔
      firstMatch (fun entry => decide (entry.assembledName (tarFilename 255) = path.take 256))
        start entries = firstMatch (fun entry => decide (entry.fullName = path)) start entries := by
    constructor
    · rintro ⟨fuel, found⟩
      have first := tarFileLookupLoop_mono found (entries.length + 3)
      have second := tarFileLookupLoop_mono returned fuel
      rw [Nat.add_comm, second, Option.some.injEq] at first
      exact first
    · intro same
      exact ⟨entries.length + 3, by rw [← same]; exact returned⟩
  have compared : ∀ entry : ArchiveEntry,
      (entry.assembledName (tarFilename 255) = path.take 256 ↔ entry.fullName = path) ↔
        (entry.fullName ≠ path → ¬entry.TakenFor (tarFilename 255) path) ∧
        (entry.fullName = path → entry.Findable (tarFilename 255)) := by
    intro entry
    rw [ArchiveEntry.assembledName_eq_iff]
    by_cases named : entry.fullName = path
    · subst named
      simp [ArchiveEntry.takenFor_fullName_iff noBackslash]
    · simp [named]
  rw [result, firstMatch_eq_iff loaded]
  simp only [decide_eq_false_iff_not, decide_eq_decide, compared, ne_eq]

section Example

variable {name nameInit content : List Byte} {nameLe : name.length ≤ 100}
variable {initLe : nameInit.length ≤ 155} {contentLt : content.length < 8 ^ 10}

theorem filename_ustarEntry (noZero : 0#8 ∉ name) :
    (ustarEntry name nameInit content nameLe initLe contentLt).filename = name := by
  rw [ArchiveEntry.filename, text_eq_iff]
  refine ⟨nameLe, noZero, ?_, ?_⟩
  · intro i below
    rw [ArchiveEntry.field, ustarEntry, Nat.zero_add, List.getElem?_append_left below,
      List.getElem?_eq_getElem below, Option.getD_some]
  · intro short
    rw [ArchiveEntry.field, ustarEntry, Nat.zero_add, List.getElem?_append_right le_rfl,
      Nat.sub_self, List.getElem?_append_left (by rw [List.length_replicate]; omega),
      List.getElem?_replicate, if_pos (by omega), Option.getD_some]

theorem filenamePrefix_ustarEntry (noZero : 0#8 ∉ nameInit) :
    (ustarEntry name nameInit content nameLe initLe contentLt).filenamePrefix = nameInit := by
  have field : ∀ i, (ustarEntry name nameInit content nameLe initLe contentLt).field 345 i =
      (nameInit ++ List.replicate (167 - nameInit.length) 0#8)[i]?.getD 0#8 := by
    intro i
    have sizeField : (octalField content.length).length = 12 := by simp [octalField]
    rw [ArchiveEntry.field, ustarEntry, List.getElem?_append_right (by omega),
      List.getElem?_append_right (by rw [List.length_replicate]; omega),
      List.getElem?_append_right (by rw [sizeField, List.length_replicate]; omega),
      List.getElem?_append_right (by simp only [sizeField, List.length_replicate]; omega)]
    have index : 345 + i - name.length - (124 - name.length) - 12 - 209 = i := by omega
    rw [List.length_replicate, sizeField, List.length_replicate, index]
  rw [ArchiveEntry.filenamePrefix, text_eq_iff]
  refine ⟨initLe, noZero, ?_, ?_⟩
  · intro i below
    rw [field, List.getElem?_append_left below, List.getElem?_eq_getElem below, Option.getD_some]
  · intro _
    rw [field, List.getElem?_append_right le_rfl, Nat.sub_self, List.getElem?_replicate,
      if_pos (by omega), Option.getD_some]

end Example

def stringStream (string : List Byte) : Stream :=
  fun i => string[i]?.getD 0#8

theorem holds_stringStream (noZero : 0#8 ∉ string) :
    Holds (stringStream string) string where
  noZero := noZero
  chars := by
    intro i below
    rw [stringStream, List.getElem?_eq_getElem below, Option.getD_some]
  stops := by
    rw [stringStream, List.getElem?_eq_none le_rfl, Option.getD_none]

theorem holds_stringStream_append (noZero : 0#8 ∉ string) (rest : List Byte) :
    Holds (stringStream (string ++ 0#8 :: rest)) string where
  noZero := noZero
  chars := by
    intro i below
    rw [stringStream, List.getElem?_append_left below, List.getElem?_eq_getElem below,
      Option.getD_some]
  stops := by
    rw [stringStream, List.getElem?_append_right (Nat.le_refl _), Nat.sub_self,
      List.getElem?_cons_zero, Option.getD_some]

theorem advance_stringStream_append (string rest : List Byte) :
    advance (string.length + 1) (stringStream (string ++ 0#8 :: rest)) = stringStream rest := by
  funext i
  rw [advance_apply, stringStream, stringStream, List.getElem?_append_right (by omega)]
  have behind : i + (string.length + 1) - string.length = i + 1 := by omega
  rw [behind, List.getElem?_cons_succ]

def plainFile : ArchiveEntry :=
  ustarEntry [0x61#8] [] [] letterName_length noInit_length noContent_length

def prefixedFile : ArchiveEntry :=
  ustarEntry [0x66#8] [0x64#8] [] (by decide) (by decide) noContent_length

theorem plainFile_length : plainFile.bytes.length = 512 :=
  length_ustarEntry_bytes _ _ _ _ _ _

theorem prefixedFile_length : prefixedFile.bytes.length = 512 :=
  length_ustarEntry_bytes _ _ _ _ _ _

theorem headers_loaded {first second : ArchiveEntry} (firstLength : first.bytes.length = 512)
    (secondLength : second.bytes.length = 512) :
    Loaded (imageSpace 0x10000#64 (archive [first, second])) 0x10000#64
      (archive [first, second]) := by
  apply loaded_imageSpace (by decide)
  simp only [archive, List.length_append, firstLength, secondLength, List.length_replicate]
  decide

theorem twoFiles_loaded :
    Loaded (imageSpace 0x10000#64 (archive [plainFile, prefixedFile])) 0x10000#64
      (archive [plainFile, prefixedFile]) :=
  headers_loaded plainFile_length prefixedFile_length

theorem plainFile_names : plainFile.filenamePrefix = [] ∧ plainFile.filename = [0x61#8] :=
  ⟨filenamePrefix_ustarEntry (by decide), filename_ustarEntry (by decide)⟩

theorem prefixedFile_names :
    prefixedFile.filenamePrefix = [0x64#8] ∧ prefixedFile.filename = [0x66#8] :=
  ⟨filenamePrefix_ustarEntry (by decide), filename_ustarEntry (by decide)⟩

theorem plainFile_compared (lastByte : Byte) (path : List Byte) :
    plainFile.assembledName lastByte = path.take 256 ↔ plainFile.fullName = path :=
  ArchiveEntry.assembledName_of_plain plainFile_names.1 (by rw [plainFile_names.2]; decide)
    (by rw [plainFile_names.2]; decide) lastByte path

theorem prefixedFile_fullName : prefixedFile.fullName = [0x64#8, 0x2f#8, 0x66#8] := by
  rw [ArchiveEntry.fullName, prefixedFile_names.1, prefixedFile_names.2]
  rfl

theorem plainFile_fullName : plainFile.fullName = [0x61#8] := by
  rw [ArchiveEntry.fullName, if_pos plainFile_names.1, plainFile_names.2]

theorem prefixedFile_notTaken (lastByte : Byte) :
    ¬prefixedFile.TakenFor lastByte [0x61#8] := by
  rw [← ArchiveEntry.assembledName_eq_iff, ArchiveEntry.assembledName, prefixedFile_names.1,
    if_neg (by decide), if_pos (by decide)]
  decide

theorem lookup_by_full_name_iff_plain :
    ∃ fuel, tarFileLookup (imageSpace 0x10000#64 (archive [prefixedFile, plainFile]))
      (stringStream [0x61#8]) 0x10000#64 (fun _ => 0#8) fuel = some 0x10200#64 := by
  have path : Holds (stringStream [0x61#8]) [0x61#8] := holds_stringStream (by decide)
  have second : firstMatch (fun entry => decide (entry.fullName = [0x61#8])) 0x10000#64
      [prefixedFile, plainFile] = 0x10200#64 := by
    rw [firstMatch, prefixedFile_fullName, firstMatch, plainFile_fullName, prefixedFile_length]
    rfl
  rw [← second]
  have loaded := headers_loaded prefixedFile_length plainFile_length
  refine (lookup_by_full_name_iff loaded path (by decide) (fun _ => 0#8)).mpr ?_
  intro before entry after split _
  have member : entry ∈ [prefixedFile, plainFile] := by
    rw [split]
    simp
  rw [List.mem_pair] at member
  rcases member with rfl | rfl
  · refine ⟨fun _ => prefixedFile_notTaken _, fun named => ?_⟩
    rw [prefixedFile_fullName] at named
    exact absurd named (by decide)
  · refine ⟨fun otherName => absurd plainFile_fullName otherName, fun _ => ?_⟩
    exact .inl ⟨plainFile_names.1, .inl (by rw [plainFile_names.2]; decide)⟩

/-- The file `d/f` is in the archive, but looking it up returns `NULL`. -/
theorem lookup_misses_prefixed_file :
    prefixedFile.fullName = [0x64#8, 0x2f#8, 0x66#8] ∧
      tarFileLookup (imageSpace 0x10000#64 (archive [plainFile, prefixedFile]))
        (stringStream [0x64#8, 0x2f#8, 0x66#8]) 0x10000#64 (fun _ => 0#8) 5 = some 0#64 := by
  constructor
  · exact prefixedFile_fullName
  · have path : Holds (stringStream [0x64#8, 0x2f#8, 0x66#8]) [0x64#8, 0x2f#8, 0x66#8] :=
      holds_stringStream (by decide)
    have plain : plainFile.assembledName 0#8 ≠ [0x64#8, 0x2f#8, 0x66#8].take 256 := by
      rw [Ne, plainFile_compared, plainFile_fullName]
      decide
    have prefixed : prefixedFile.assembledName 0#8 ≠ [0x64#8, 0x2f#8, 0x66#8].take 256 := by
      rw [ArchiveEntry.assembledName, prefixedFile_names.1]
      decide
    have returned := tarFileLookupLoop_eq twoFiles_loaded path (fun _ => 0#8)
    rw [firstMatch, decide_eq_false plain, firstMatch, decide_eq_false prefixed] at returned
    exact returned

end MmdOS
