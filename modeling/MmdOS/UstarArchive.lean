import MmdOS.KernelStrings
import Mathlib.Data.List.Nodup

/-!
# Walking a ustar archive

The archive is a sequence of records in memory: a header block of 512 bytes,
then the content of the file padded to whole blocks.  `ustar.c` moves from one
header to the next by decoding the size field, with wrapping 64-bit
arithmetic, and takes an all-zero block for the end of the archive.
-/

namespace MmdOS

open CString

/-- The bytes of memory, by virtual address. -/
abbrev ByteSpace := Word → Byte

def deref (space : ByteSpace) (pointer : Word) : Stream :=
  fun i => space (pointer + BitVec.ofNat 64 i)

/-- The size of a content with its padding. -/
def paddedSize (fileSize : Word) : Word :=
  if fileSize % 512#64 ≠ 0#64 then (fileSize / 512#64 + 1#64) * 512#64 else fileSize

section Header

variable (space : ByteSpace) (record : Word)

def headerFilename : Stream := deref space record

def headerFileSize : Stream := advance 124 (deref space record)

def headerFilenamePrefix : Stream := advance 345 (deref space record)

/-- The loop of `is_zeroed` with `count` bytes left. -/
def isZeroedLoop : (count : Nat) → Stream → Bool
  | 0, _ => true
  | count + 1, bytes => if bytes 0 ≠ 0#8 then false else isZeroedLoop count (advance 1 bytes)

def isZeroed : Bool :=
  isZeroedLoop 512 (deref space record)

def nextRecord : Word :=
  record + 512#64 + paddedSize (octAsciiToDec (headerFileSize space record) 12#16)

/-- The loop of `tar_file_prefix_lookup`, which looks at one record until it
has found it zeroed twice. -/
def prefixLookupLoop : (zerosLeft : Nat) → Word
  | 0 => 0#64
  | zerosLeft + 1 => if isZeroed space record then prefixLookupLoop zerosLeft else record

end Header

/-- `tar_file_prefix_lookup`.  It does not use the directory it is given: the
comparison with the name that it assembles is commented out. -/
def tarFilePrefixLookup (space : ByteSpace) (tarFsStartAddress currentRecord : Word) : Word :=
  let record := if currentRecord = 0#64 then tarFsStartAddress else nextRecord space currentRecord
  prefixLookupLoop space record 2

theorem isZeroedLoop_eq_true (count : Nat) (bytes : Stream) :
    isZeroedLoop count bytes = true ↔ ∀ i < count, bytes i = 0#8 := by
  induction count generalizing bytes with
  | zero => simp [isZeroedLoop]
  | succ count ih =>
      by_cases first : bytes 0 = 0#8
      · simp only [isZeroedLoop, first, ne_eq, not_true_eq_false, if_false, ih, advance_apply]
        constructor
        · intro rest i below
          cases i with
          | zero => exact first
          | succ i => exact rest i (by omega)
        · intro all i below
          exact all (i + 1) (by omega)
      · simp only [isZeroedLoop, first, ne_eq, not_false_eq_true, if_true, Bool.false_eq_true,
          false_iff]
        intro all
        exact first (all 0 (by omega))

variable {space : ByteSpace} {entry : ArchiveEntry} {entries : List ArchiveEntry}

theorem isZeroed_eq_true {record : Word} :
    isZeroed space record = true ↔ ∀ i < 512, deref space record i = 0#8 :=
  isZeroedLoop_eq_true 512 _

theorem prefixLookupLoop_two (space : ByteSpace) (record : Word) :
    prefixLookupLoop space record 2 = if isZeroed space record then 0#64 else record := by
  by_cases zeroed : isZeroed space record = true
  · simp [prefixLookupLoop, zeroed]
  · simp [prefixLookupLoop, zeroed]

/-- A file of an archive: its header block, its content and the padding behind
it. -/
structure ArchiveEntry where
  header : List Byte
  content : List Byte
  padding : List Byte
  header_length : header.length = 512
  content_lt : content.length < 8 ^ 10
  size_field : ∀ i < 12, header[124 + i]? = (octalField content.length)[i]?
  padding_lt : padding.length < 512
  whole_blocks : (content.length + padding.length) % 512 = 0

def ArchiveEntry.bytes (entry : ArchiveEntry) : List Byte :=
  entry.header ++ (entry.content ++ entry.padding)

def archive : List ArchiveEntry → List Byte
  | [] => List.replicate 1024 0#8
  | entry :: rest => entry.bytes ++ archive rest

def headerAddresses (start : Word) : List ArchiveEntry → List Word
  | [] => []
  | entry :: rest =>
      start :: headerAddresses (start + BitVec.ofNat 64 entry.bytes.length) rest

structure Loaded (space : ByteSpace) (start : Word) (bytes : List Byte) : Prop where
  nonNull : start ≠ 0#64
  fits : start.toNat + bytes.length ≤ 2 ^ 64
  bytes_eq : ∀ i < bytes.length, bytes[i]? = some (deref space start i)

theorem deref_zero (space : ByteSpace) (pointer : Word) : deref space pointer 0 = space pointer :=
  congrArg space (BitVec.add_zero pointer)

theorem deref_add (space : ByteSpace) (pointer : Word) (offset : Nat) :
    deref space (pointer + BitVec.ofNat 64 offset) = advance offset (deref space pointer) := by
  funext i
  rw [advance_apply, deref, deref, BitVec.add_assoc, ← BitVec.ofNat_add, Nat.add_comm offset]

theorem ArchiveEntry.length_bytes (entry : ArchiveEntry) :
    entry.bytes.length = 512 + (entry.content.length + entry.padding.length) := by
  simp [bytes, entry.header_length]

theorem archive_length_pos (entries : List ArchiveEntry) : 0 < (archive entries).length := by
  cases entries with
  | nil =>
      rw [archive, List.length_replicate]
      omega
  | cons entry rest =>
      rw [archive, List.length_append, entry.length_bytes]
      omega

theorem length_bytes_lt (entry : ArchiveEntry) (rest : List ArchiveEntry) :
    entry.bytes.length < (archive (entry :: rest)).length := by
  have positive := archive_length_pos rest
  rw [archive, List.length_append]
  omega

namespace Loaded

variable {space : ByteSpace} {start : Word}

theorem offset_toNat {bytes : List Byte} (loaded : Loaded space start bytes) (offset : Nat)
    (below : offset < bytes.length) :
    (start + BitVec.ofNat 64 offset).toNat = start.toNat + offset := by
  have fits := loaded.fits
  rw [BitVec.toNat_add, BitVec.toNat_ofNat]
  omega

theorem left {front back : List Byte} (loaded : Loaded space start (front ++ back)) :
    Loaded space start front where
  nonNull := loaded.nonNull
  fits := by
    have fits := loaded.fits
    rw [List.length_append] at fits
    omega
  bytes_eq := by
    intro i below
    rw [← loaded.bytes_eq i (by rw [List.length_append]; omega), List.getElem?_append_left below]

theorem right {front back : List Byte} (loaded : Loaded space start (front ++ back))
    (nonempty : 0 < back.length) :
    Loaded space (start + BitVec.ofNat 64 front.length) back := by
  have fits := loaded.fits
  have address : (start + BitVec.ofNat 64 front.length).toNat = start.toNat + front.length :=
    loaded.offset_toNat _ (by rw [List.length_append]; omega)
  rw [List.length_append] at fits
  constructor
  · intro isNull
    have startPos : start.toNat ≠ 0 := fun isZero =>
      loaded.nonNull (BitVec.eq_of_toNat_eq isZero)
    rw [isNull] at address
    simp at address
    omega
  · omega
  · intro i below
    rw [deref_add, advance_apply, Nat.add_comm i,
      ← loaded.bytes_eq (front.length + i) (by rw [List.length_append]; omega),
      List.getElem?_append_right (by omega), Nat.add_sub_cancel_left]

theorem fileSize_eq (loaded : Loaded space start entry.header) :
    octAsciiToDec (headerFileSize space start) 12#16 =
      BitVec.ofNat 64 entry.content.length := by
  apply octAsciiToDec_octalField entry.content_lt
  intro i below
  rw [← entry.size_field i below, headerFileSize, advance_apply, Nat.add_comm i]
  exact loaded.bytes_eq _ (by rw [entry.header_length]; omega)

theorem not_isZeroed (loaded : Loaded space start entry.header) :
    isZeroed space start = false := by
  rw [← Bool.not_eq_true, isZeroed_eq_true]
  intro zeros
  -- the first character of the size field is an octal digit
  have sizeField := entry.size_field 0 (by omega)
  rw [loaded.bytes_eq 124 (by rw [entry.header_length]; omega), zeros 124 (by omega)] at sizeField
  have first : (octalField entry.content.length)[0]? = some (octalChar 0) := by
    have digit : entry.content.length / 8 ^ 10 = 0 := Nat.div_eq_of_lt entry.content_lt
    change some (octalChar (entry.content.length / 8 ^ 10 % 8)) = _
    rw [digit]
  rw [first] at sizeField
  exact absurd sizeField (by decide)

end Loaded

theorem paddedSize_eq {size padding : Nat} (sizeLt : size < 8 ^ 10) (paddingLt : padding < 512)
    (whole : (size + padding) % 512 = 0) :
    paddedSize (BitVec.ofNat 64 size) = BitVec.ofNat 64 (size + padding) := by
  have sizeEq : (BitVec.ofNat 64 size).toNat = size := by
    rw [BitVec.toNat_ofNat]
    omega
  have totalEq : (BitVec.ofNat 64 (size + padding)).toNat = size + padding := by
    rw [BitVec.toNat_ofNat]
    omega
  have remainder : BitVec.ofNat 64 size % 512#64 = 0#64 ↔ size % 512 = 0 := by
    rw [← BitVec.toNat_inj, BitVec.toNat_umod, sizeEq]
    rfl
  apply BitVec.eq_of_toNat_eq
  unfold paddedSize
  by_cases aligned : size % 512 = 0
  · rw [if_neg (fun unaligned => unaligned (remainder.mpr aligned)), sizeEq, totalEq]
    omega
  · rw [if_pos (fun isZero => aligned (remainder.mp isZero)), BitVec.toNat_mul, BitVec.toNat_add,
      BitVec.toNat_udiv, sizeEq, totalEq]
    change (size / 512 + 1) % 2 ^ 64 * 512 % 2 ^ 64 = _
    omega

theorem nextRecord_eq {start : Word} (loaded : Loaded space start entry.header) :
    nextRecord space start = start + BitVec.ofNat 64 entry.bytes.length := by
  rw [nextRecord, loaded.fileSize_eq, paddedSize_eq entry.content_lt entry.padding_lt
    entry.whole_blocks, entry.length_bytes,
    BitVec.ofNat_add 512, BitVec.add_assoc]

namespace Loaded

variable {space : ByteSpace} {start : Word} {entry : ArchiveEntry} {rest : List ArchiveEntry}

theorem head (loaded : Loaded space start (archive (entry :: rest))) :
    Loaded space start entry.header := by
  rw [archive, ArchiveEntry.bytes, List.append_assoc] at loaded
  exact loaded.left

theorem tail (loaded : Loaded space start (archive (entry :: rest))) :
    Loaded space (nextRecord space start) (archive rest) := by
  rw [nextRecord_eq loaded.head]
  exact right loaded (archive_length_pos rest)

theorem end_isZeroed (loaded : Loaded space start (archive [])) : isZeroed space start = true := by
  rw [isZeroed_eq_true]
  intro i below
  have atZero := loaded.bytes_eq i (by rw [archive, List.length_replicate]; omega)
  rw [archive, List.getElem?_replicate, if_pos (by omega), Option.some.injEq] at atZero
  exact atZero.symm

end Loaded

/-- The headers lie inside the archive, in order. -/
theorem le_of_mem_headerAddresses {start address : Word}
    (loaded : Loaded space start (archive entries))
    (member : address ∈ headerAddresses start entries) : start.toNat ≤ address.toNat := by
  induction entries generalizing start with
  | nil => simp [headerAddresses] at member
  | cons entry rest ih =>
      rcases List.mem_cons.mp member with rfl | inRest
      · exact le_rfl
      · have address := loaded.offset_toNat entry.bytes.length (length_bytes_lt entry rest)
        have below := ih (Loaded.right loaded (archive_length_pos rest)) inRest
        omega

theorem length_headerAddresses (start : Word) (entries : List ArchiveEntry) :
    (headerAddresses start entries).length = entries.length := by
  induction entries generalizing start with
  | nil => rfl
  | cons entry rest ih => simp [headerAddresses, ih]

theorem headerAddresses_nodup {start : Word} (loaded : Loaded space start (archive entries)) :
    (headerAddresses start entries).Nodup := by
  induction entries generalizing start with
  | nil => exact List.nodup_nil
  | cons entry rest ih =>
      have restLoaded := Loaded.right loaded (archive_length_pos rest)
      apply List.nodup_cons.mpr
      constructor
      · intro member
        have address := loaded.offset_toNat entry.bytes.length (length_bytes_lt entry rest)
        have below := le_of_mem_headerAddresses restLoaded member
        have length := entry.length_bytes
        omega
      · exact ih restLoaded

theorem zero_notMem_headerAddresses {start : Word} (loaded : Loaded space start (archive entries)) :
    0#64 ∉ headerAddresses start entries := by
  intro member
  have below := le_of_mem_headerAddresses loaded member
  apply loaded.nonNull
  apply BitVec.eq_of_toNat_eq
  simpa using below

/-- Feeding back each result walks through the headers that are left. -/
theorem iterate_prefixLookup (tarFsStartAddress : Word) {start : Word}
    (loaded : Loaded space start (archive entries)) {i : Nat} (inside : i ≤ entries.length) :
    (tarFilePrefixLookup space tarFsStartAddress)^[i] (prefixLookupLoop space start 2) =
      (headerAddresses start entries)[i]?.getD 0#64 := by
  induction entries generalizing start i with
  | nil =>
      have first : i = 0 := Nat.le_zero.mp inside
      rw [first, Function.iterate_zero, id, prefixLookupLoop_two, if_pos loaded.end_isZeroed]
      rfl
  | cons entry rest ih =>
      have here : prefixLookupLoop space start 2 = start := by
        rw [prefixLookupLoop_two, loaded.head.not_isZeroed]
        rfl
      rw [here]
      cases i with
      | zero => rfl
      | succ i =>
          have step : tarFilePrefixLookup space tarFsStartAddress start =
              prefixLookupLoop space (nextRecord space start) 2 := by
            simp [tarFilePrefixLookup, loaded.nonNull]
          rw [Function.iterate_succ_apply, step, ih loaded.tail (Nat.le_of_succ_le_succ inside),
            nextRecord_eq loaded.head]
          rfl

/-- Starting from `NULL` and feeding back each result, `tar_file_prefix_lookup`
returns the headers of the archive, each once and in order, and then `NULL`. -/
theorem prefix_lookup_enumerates {space : ByteSpace} {start : Word} {entries : List ArchiveEntry}
    (loaded : Loaded space start (archive entries)) :
    (∀ i ≤ entries.length, (tarFilePrefixLookup space start)^[i + 1] 0#64 =
      (headerAddresses start entries)[i]?.getD 0#64) ∧
    (headerAddresses start entries).length = entries.length ∧
    (headerAddresses start entries).Nodup ∧ 0#64 ∉ headerAddresses start entries := by
  constructor
  · intro i inside
    have first : tarFilePrefixLookup space start 0#64 = prefixLookupLoop space start 2 := by
      simp [tarFilePrefixLookup]
    rw [Function.iterate_succ_apply, first, iterate_prefixLookup start loaded inside]
  · exact ⟨length_headerAddresses start entries, headerAddresses_nodup loaded,
      zero_notMem_headerAddresses loaded⟩

def imageSpace (start : Word) (bytes : List Byte) : ByteSpace :=
  fun address => bytes[(address - start).toNat]?.getD 0#8

theorem loaded_imageSpace {start : Word} {bytes : List Byte} (nonNull : start ≠ 0#64)
    (fits : start.toNat + bytes.length ≤ 2 ^ 64) :
    Loaded (imageSpace start bytes) start bytes where
  nonNull := nonNull
  fits := fits
  bytes_eq := by
    intro i below
    have offset : (BitVec.ofNat 64 i).toNat = i := by
      rw [BitVec.toNat_ofNat]
      omega
    rw [deref, imageSpace, BitVec.add_comm, BitVec.add_sub_cancel, offset,
      List.getElem?_eq_getElem below,
      Option.getD_some]

theorem ustarHeader_length (name nameInit content : List Byte) (nameLe : name.length ≤ 100)
    (initLe : nameInit.length ≤ 155) :
    (name ++ (List.replicate (124 - name.length) 0#8 ++ (octalField content.length ++
      (List.replicate 209 0#8 ++
        (nameInit ++ List.replicate (167 - nameInit.length) 0#8))))).length = 512 := by
  have sizeField : (octalField content.length).length = 12 := by simp [octalField]
  simp only [List.length_append, List.length_replicate, sizeField]
  omega

theorem ustarHeader_size (name nameInit content : List Byte) (nameLe : name.length ≤ 100) :
    ∀ i < 12, (name ++ (List.replicate (124 - name.length) 0#8 ++ (octalField content.length ++
      (List.replicate 209 0#8 ++
        (nameInit ++ List.replicate (167 - nameInit.length) 0#8)))))[124 + i]? =
      (octalField content.length)[i]? := by
  intro i below
  rw [List.getElem?_append_right (by omega), List.getElem?_append_right (by simp; omega),
    List.getElem?_append_left (by simp [octalField]; omega), List.length_replicate]
  congr 1
  omega

theorem blockPadding_lt (content : List Byte) :
    (List.replicate ((512 - content.length % 512) % 512) (0#8 : Byte)).length < 512 := by
  rw [List.length_replicate]
  omega

theorem blockPadding_fills (content : List Byte) :
    (content.length +
      (List.replicate ((512 - content.length % 512) % 512) (0#8 : Byte)).length) % 512 = 0 := by
  rw [List.length_replicate]
  omega

/-- A file with the given name fields; all fields but these and the size are
zero. -/
def ustarEntry (name nameInit content : List Byte) (nameLe : name.length ≤ 100)
    (initLe : nameInit.length ≤ 155) (contentLt : content.length < 8 ^ 10) : ArchiveEntry where
  header := name ++ (List.replicate (124 - name.length) 0#8 ++ (octalField content.length ++
    (List.replicate 209 0#8 ++ (nameInit ++ List.replicate (167 - nameInit.length) 0#8))))
  content := content
  padding := List.replicate ((512 - content.length % 512) % 512) 0#8
  header_length := ustarHeader_length name nameInit content nameLe initLe
  content_lt := contentLt
  size_field := ustarHeader_size name nameInit content nameLe
  padding_lt := blockPadding_lt content
  whole_blocks := blockPadding_fills content

@[simp]
theorem length_ustarEntry_bytes (name nameInit content : List Byte) (nameLe : name.length ≤ 100)
    (initLe : nameInit.length ≤ 155) (contentLt : content.length < 8 ^ 10) :
    (ustarEntry name nameInit content nameLe initLe contentLt).bytes.length =
      512 + (content.length + (512 - content.length % 512) % 512) := by
  rw [ArchiveEntry.length_bytes, ustarEntry, List.length_replicate]

theorem letterName_length : [(0x61#8 : Byte)].length ≤ 100 := by decide

theorem secondName_length : [(0x62#8 : Byte)].length ≤ 100 := by decide

theorem noInit_length : ([] : List Byte).length ≤ 155 := by decide

theorem noContent_length : ([] : List Byte).length < 8 ^ 10 := by decide

def zeroBlockEntries : List ArchiveEntry :=
  [ustarEntry [0x61#8] [] (List.replicate 512 0#8) letterName_length noInit_length
      (by rw [List.length_replicate]; decide),
    ustarEntry [0x62#8] [] [] secondName_length noInit_length noContent_length]

theorem prefix_lookup_enumerates_zero_block :
    let lookup := tarFilePrefixLookup
      (imageSpace 0x10000#64 (archive zeroBlockEntries)) 0x10000#64
    lookup^[1] 0#64 = 0x10000#64 ∧ lookup^[2] 0#64 = 0x10400#64 ∧ lookup^[3] 0#64 = 0#64 := by
  have length : (archive zeroBlockEntries).length = 2560 := by
    simp only [archive, zeroBlockEntries, List.length_append, length_ustarEntry_bytes,
      List.length_replicate, List.length_nil]
  have addresses : headerAddresses 0x10000#64 zeroBlockEntries = [0x10000#64, 0x10400#64] := by
    simp only [headerAddresses, zeroBlockEntries, length_ustarEntry_bytes, List.length_replicate]
    rfl
  have loaded : Loaded (imageSpace 0x10000#64 (archive zeroBlockEntries)) 0x10000#64
      (archive zeroBlockEntries) :=
    loaded_imageSpace (by decide) (by rw [length]; decide)
  have walk := (prefix_lookup_enumerates loaded).1
  rw [addresses] at walk
  exact ⟨walk 0 (by decide), walk 1 (by decide), walk 2 (by decide)⟩

end MmdOS
