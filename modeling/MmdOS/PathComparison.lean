import MmdOS.RemovedPrefixes
import MmdOS.VfsReads
import Mathlib.Data.List.TakeWhile

/-!
# Comparing first components

`is_in_same_dir` ends both paths behind their first components, in place, and
compares what is left.  The position in a path is kept in 16 bits, so that the
search for the end of a component of 65536 characters does not stop.
-/

namespace MmdOS

open CString
open Function (update update_self update_of_ne update_eq_self)

def firstComponent (path : List Byte) : List Byte :=
  path.takeWhile (· ≠ 0x2f#8)

def componentOffset (path : List Byte) : Nat :=
  leadingSlash path + (firstComponent (withoutSlash path)).length

def cutString (path : List Byte) : List Byte :=
  path.take (componentOffset path)

def cutComponent (space : ByteSpace) (path : Word) (string : List Byte) : ByteSpace :=
  update space (path + BitVec.ofNat 64 (componentOffset string)) 0#8

section Strings

variable {path : List Byte}

theorem firstComponent_slash (rest : List Byte) : firstComponent (0x2f#8 :: rest) = [] :=
  rfl

theorem firstComponent_cons {char : Byte} (notSlash : char ≠ 0x2f#8) (rest : List Byte) :
    firstComponent (char :: rest) = char :: firstComponent rest :=
  List.takeWhile_cons_of_pos (decide_eq_true notSlash)

theorem length_firstComponent_le (path : List Byte) :
    (firstComponent path).length ≤ path.length :=
  (List.takeWhile_prefix _).length_le

theorem length_withoutSlash_le (path : List Byte) : (withoutSlash path).length ≤ path.length := by
  rw [withoutSlash, List.length_drop]
  exact Nat.sub_le _ _

theorem length_component_le (path : List Byte) :
    (firstComponent (withoutSlash path)).length ≤ path.length :=
  Nat.le_trans (length_firstComponent_le _) (length_withoutSlash_le path)

theorem slash_notMem_firstComponent (path : List Byte) : 0x2f#8 ∉ firstComponent path :=
  fun member => absurd (List.mem_takeWhile_imp member) (by decide)

theorem firstComponent_of_noSlash (noSlash : 0x2f#8 ∉ path) : firstComponent path = path := by
  rw [firstComponent, List.takeWhile_eq_self_iff]
  intro char member
  rw [decide_eq_true_iff]
  rintro rfl
  exact noSlash member

theorem leadingSlash_of_noSlash (noSlash : 0x2f#8 ∉ path) : leadingSlash path = 0 := by
  rw [leadingSlash, if_neg]
  exact fun isHead => noSlash (List.mem_of_mem_head? isHead)

theorem withoutSlash_of_noSlash (noSlash : 0x2f#8 ∉ path) : withoutSlash path = path := by
  rw [withoutSlash, leadingSlash_of_noSlash noSlash, List.drop_zero]

theorem componentOffset_le (path : List Byte) : componentOffset path ≤ path.length := by
  have slashLe := leadingSlash_le_length path
  have componentLe := length_firstComponent_le (withoutSlash path)
  rw [withoutSlash, List.length_drop] at componentLe
  rw [componentOffset, withoutSlash]
  omega

theorem length_cutString (path : List Byte) : (cutString path).length = componentOffset path :=
  List.length_take_of_le (componentOffset_le path)

theorem leadingSlash_cutString (path : List Byte) :
    leadingSlash (cutString path) = leadingSlash path := by
  cases path with
  | nil => rfl
  | cons char rest =>
      by_cases isSlash : char = 0x2f#8
      · rw [cutString, componentOffset, isSlash]
        have positive : leadingSlash (0x2f#8 :: rest) = 1 := rfl
        rw [positive, Nat.add_comm, List.take_succ_cons]
        rfl
      · have noSlash : leadingSlash (char :: rest) = 0 := by simp [leadingSlash, isSlash]
        rw [noSlash, leadingSlash, if_neg]
        intro isHead
        rw [cutString, List.head?_take] at isHead
        split at isHead
        · cases isHead
        · exact isSlash (Option.some.inj isHead)

theorem withoutSlash_cutString (path : List Byte) :
    withoutSlash (cutString path) = firstComponent (withoutSlash path) := by
  rw [withoutSlash, leadingSlash_cutString, cutString, componentOffset, List.drop_take,
    Nat.add_sub_cancel_left, ← withoutSlash]
  exact (List.prefix_iff_eq_take.mp (List.takeWhile_prefix _)).symm

theorem firstComponent_cutString (path : List Byte) :
    firstComponent (withoutSlash (cutString path)) = firstComponent (withoutSlash path) := by
  rw [withoutSlash_cutString]
  exact firstComponent_of_noSlash (slash_notMem_firstComponent _)

theorem componentOffset_cutString (path : List Byte) :
    componentOffset (cutString path) = componentOffset path := by
  rw [componentOffset, leadingSlash_cutString, firstComponent_cutString, componentOffset]

end Strings

section Pointers

variable {space : ByteSpace} {pointer : Word} {string : List Byte}
variable {fuel : Nat}
variable {second path1 path2 : Word} {firstString secondString : List Byte}

theorem Holds.congr {other : ByteSpace} (holds : Holds (deref space pointer) string)
    (same : ∀ i ≤ string.length,
      other (pointer + BitVec.ofNat 64 i) = space (pointer + BitVec.ofNat 64 i)) :
    Holds (deref other pointer) string where
  noZero := holds.noZero
  chars := by
    intro i below
    rw [deref, same i (Nat.le_of_lt below)]
    exact holds.chars i below
  stops := by
    rw [deref, same _ (Nat.le_refl _)]
    exact holds.stops

theorem Holds.update_of_ne {address : Word} {value : Byte}
    (holds : Holds (deref space pointer) string)
    (outside : ∀ i ≤ string.length, pointer + BitVec.ofNat 64 i ≠ address) :
    Holds (deref (update space address value) pointer) string :=
  Holds.congr holds fun i inside => Function.update_of_ne (outside i inside) _ _

theorem Holds.take {count : Nat} (holds : Holds (deref space pointer) string)
    (inside : count ≤ string.length) (short : string.length < 2 ^ 64) :
    Holds (deref (update space (pointer + BitVec.ofNat 64 count) 0#8) pointer)
      (string.take count) where
  noZero := fun member => holds.noZero (List.mem_of_mem_take member)
  chars := by
    intro i below
    rw [List.length_take] at below
    have different : pointer + BitVec.ofNat 64 i ≠ pointer + BitVec.ofNat 64 count :=
      fun same => absurd (ofNat_add_inj (by omega) (by omega) same) (by omega)
    rw [List.getElem?_take_of_lt (by omega), deref, Function.update_of_ne different]
    exact holds.chars i (by omega)
  stops := by
    rw [List.length_take_of_le inside, deref, update_self]

/-- The byte behind a string is zero already. -/
theorem Holds.update_stop (holds : Holds (deref space pointer) string) :
    update space (pointer + BitVec.ofNat 64 string.length) 0#8 = space := by
  have stops := holds.stops
  rw [deref] at stops
  rw [← stops]
  exact update_eq_self _ _

theorem holds_cutComponent (holds : Holds (deref space pointer) string)
    (short : string.length < 2 ^ 64) :
    Holds (deref (cutComponent space pointer string) pointer) (cutString string) :=
  Holds.take holds (componentOffset_le string) short

theorem cutComponent_eq_self (holds : Holds (deref space pointer) string)
    (isCut : componentOffset string = string.length) :
    cutComponent space pointer string = space := by
  rw [cutComponent, isCut]
  exact Holds.update_stop holds

/-- The pointers of two strings stay apart as far as the strings reach. -/
def StringsApart (first : Word) (firstString : List Byte) (second : Word)
    (secondString : List Byte) : Prop :=
  ∀ i ≤ firstString.length, ∀ j ≤ secondString.length,
    first + BitVec.ofNat 64 i ≠ second + BitVec.ofNat 64 j

theorem cutComponent_of_apart {other : Word} {otherString : List Byte}
    (holds : Holds (deref space pointer) string)
    (apart : StringsApart other otherString pointer string) :
    Holds (deref (cutComponent space other otherString) pointer) string :=
  Holds.update_of_ne holds fun i inside =>
    (apart _ (componentOffset_le otherString) i inside).symm

section Components

variable {fuel : Nat}

theorem setWidth_index {index : Nat} (small : index < 2 ^ 16) :
    (BitVec.ofNat 16 index).setWidth 64 = BitVec.ofNat 64 index := by
  apply BitVec.eq_of_toNat_eq
  rw [BitVec.toNat_setWidth, BitVec.toNat_ofNat, BitVec.toNat_ofNat]
  omega

theorem componentEnd_eq {index : Nat}
    (holds : Holds (deref space (pointer + BitVec.ofNat 64 index)) string)
    (short : index + string.length < 2 ^ 16) (enough : string.length < fuel) :
    componentEnd space pointer fuel (BitVec.ofNat 16 index) =
      some (BitVec.ofNat 16 (index + (firstComponent string).length)) := by
  induction string generalizing index fuel with
  | nil =>
      have first := holds.stops
      rw [List.length_nil, deref_zero] at first
      obtain ⟨fuel, rfl⟩ : ∃ less, fuel = less + 1 := ⟨fuel - 1, by omega⟩
      rw [componentEnd, setWidth_index (by omega), if_neg (fun both => both.1 first)]
      rfl
  | cons char rest ih =>
      obtain ⟨first, nonzero, tail⟩ := holds.of_cons
      rw [deref_zero] at first
      rw [List.length_cons] at short enough
      obtain ⟨fuel, rfl⟩ : ∃ less, fuel = less + 1 := ⟨fuel - 1, by omega⟩
      rw [componentEnd, setWidth_index (by omega), first]
      by_cases isSlash : char = 0x2f#8
      · rw [if_neg (fun both => both.2 isSlash), isSlash, firstComponent_slash]
        rfl
      · rw [if_pos ⟨nonzero, isSlash⟩, firstComponent_cons isSlash, List.length_cons]
        rw [← deref_add, BitVec.add_assoc, ← BitVec.ofNat_add] at tail
        have next := @ih fuel (index + 1) tail (by omega) (by omega)
        rw [← BitVec.ofNat_add, next]
        congr 2
        omega

/-- The search for the end of a component does not stop if there is none in the
first 65536 characters. -/
theorem componentEnd_endless
    (endless : ∀ i < 2 ^ 16, space (pointer + BitVec.ofNat 64 i) ≠ 0#8 ∧
      space (pointer + BitVec.ofNat 64 i) ≠ 0x2f#8) (index : BitVec 16) :
    componentEnd space pointer fuel index = none := by
  induction fuel generalizing index with
  | zero => rfl
  | succ fuel ih =>
      have width : index.setWidth 64 = BitVec.ofNat 64 index.toNat := by
        apply BitVec.eq_of_toNat_eq
        rw [BitVec.toNat_setWidth, BitVec.toNat_ofNat]
      rw [componentEnd, width, if_pos (endless index.toNat index.isLt), ih]

end Components

theorem StringsApart.symm {first : Word}
    (apart : StringsApart first firstString second secondString) :
    StringsApart second secondString first firstString :=
  fun j jLe i iLe => (apart i iLe j jLe).symm

theorem StringsApart.mono {first : Word} {initial : List Byte}
    (apart : StringsApart first firstString second secondString)
    (shorter : initial.length ≤ secondString.length) :
    StringsApart first firstString second initial :=
  fun i iLe j jLe => apart i iLe j (Nat.le_trans jLe shorter)

theorem holds_dropSlash (holds : Holds (deref space pointer) string) :
    Holds (deref space (pointer + BitVec.ofNat 64 (leadingSlash string))) (withoutSlash string) := by
  rw [deref_add]
  exact holds_withoutSlash holds

theorem cut_at_componentEnd (holds : Holds (deref space pointer) string)
    (short : string.length < 2 ^ 16) (enough : string.length < fuel) :
    ∃ index, componentEnd space (pointer + BitVec.ofNat 64 (leadingSlash string)) fuel 0#16 =
        some index ∧
      update space
        (pointer + BitVec.ofNat 64 (leadingSlash string) + index.setWidth 64) 0#8 =
        cutComponent space pointer string := by
  have shorter := length_withoutSlash_le string
  have componentLe := length_component_le string
  have found := @componentEnd_eq space (pointer + BitVec.ofNat 64 (leadingSlash string))
    (withoutSlash string) fuel 0 (by rw [BitVec.add_zero]; exact holds_dropSlash holds) (by omega)
    (by omega)
  rw [Nat.zero_add] at found
  refine ⟨_, found, ?_⟩
  rw [setWidth_index (by omega), BitVec.add_assoc, ← BitVec.ofNat_add]
  rfl

/-- `is_in_same_dir` compares the first components and leaves nothing else of the
two paths, unless the second one is empty. -/
theorem isInSameDir_eq {first second : List Byte} (holds1 : Holds (deref space path1) first)
    (holds2 : Holds (deref space path2) second) (short1 : first.length < 2 ^ 16)
    (short2 : second.length < 2 ^ 16) (enough1 : first.length < fuel)
    (enough2 : second.length < fuel) (apart : StringsApart path1 first path2 second) :
    isInSameDir space fuel path1 (some path2) =
      if withoutSlash second = [] then some (false, space)
      else some (decide (firstComponent (withoutSlash first) = firstComponent (withoutSlash second)),
        cutComponent (cutComponent space path1 first) path2 second) := by
  have isEmpty := (holds_dropSlash holds2).head_eq_zero_iff
  rw [deref_zero] at isEmpty
  rw [isInSameDir, dropSlash_eq holds1]
  dsimp only
  rw [dropSlash_eq holds2]
  by_cases empty : withoutSlash second = []
  · rw [if_pos (isEmpty.mpr empty), if_pos empty]
  rw [if_neg (mt isEmpty.mp empty), if_neg empty]
  obtain ⟨index1, found1, cut1⟩ := cut_at_componentEnd holds1 short1 enough1
  have holds2' := cutComponent_of_apart holds2 apart
  obtain ⟨index2, found2, cut2⟩ := cut_at_componentEnd holds2' short2 enough2
  rw [found1, Option.bind_eq_bind, Option.bind_some, cut1, found2, Option.bind_some, cut2]
  -- both components are still there when they are compared
  have shorter : (cutString first).length ≤ first.length := by
    rw [length_cutString]
    exact componentOffset_le first
  have left := cutComponent_of_apart (holds_cutComponent holds1 (by omega))
    (apart.symm.mono shorter)
  have right := holds_cutComponent holds2' (by omega)
  have leftComponent := holds_dropSlash left
  have rightComponent := holds_dropSlash right
  rw [leadingSlash_cutString, withoutSlash_cutString] at leftComponent rightComponent
  have leftLe := length_component_le first
  have rightLe := length_component_le second
  rw [kstrcmp_zero leftComponent rightComponent (by omega) (by omega)]

/-- `is_in_same_dir` does not return if the second path has no end of a component in
its first 65536 characters. -/
theorem isInSameDir_endless {first : List Byte} (holds1 : Holds (deref space path1) first)
    (short1 : first.length < 2 ^ 16) (enough1 : first.length < fuel)
    (endless : ∀ i < 2 ^ 16, space (path2 + BitVec.ofNat 64 i) ≠ 0#8 ∧
      space (path2 + BitVec.ofNat 64 i) ≠ 0x2f#8) (apart : ∀ i ≤ first.length, ∀ j < 2 ^ 16,
      path1 + BitVec.ofNat 64 i ≠ path2 + BitVec.ofNat 64 j) :
    isInSameDir space fuel path1 (some path2) = none := by
  have start := endless 0 (by decide)
  rw [BitVec.add_zero] at start
  have noSlash : dropSlash space path2 = path2 := if_neg fun both => start.2 both.2
  obtain ⟨index1, found1, cut1⟩ := cut_at_componentEnd holds1 short1 enough1
  rw [isInSameDir, dropSlash_eq holds1]
  dsimp only
  rw [noSlash, if_neg start.1, found1, Option.bind_eq_bind, Option.bind_some, cut1,
    componentEnd_endless]
  · rfl
  · intro i below
    rw [cutComponent, update_of_ne (apart _ (componentOffset_le first) i below).symm]
    exact endless i below

end Pointers

/-- What `is_in_same_dir` looks at of a path that has been stored: a prefix is
removed from it once more. -/
def target (stored dir : List Byte) : List Byte :=
  withoutSlash (removed stored dir)

def removedPointer (pointer : Word) (stored dir : List Byte) : Word :=
  pointer + BitVec.ofNat 64 (stored.length - (removed stored dir).length)

section Entries

variable {space : ByteSpace} {fuel : Nat} {dir : Stream} {dirString : List Byte} {path : Word}
  {pathString : List Byte} {pathes : Nat → Word}

variable {pointer : Word} {stored : List Byte}

variable (space path pathString dirString) in
structure StoredPath (pointer : Word) (stored : List Byte) : Prop where
  nonNull : pointer ≠ 0#64
  holds : Holds (deref space pointer) stored
  short : (removed stored dirString).length < 2 ^ 16
  apart : StringsApart path pathString pointer stored

variable (space path) in
structure NewPath (pathString : List Byte) : Prop where
  holds : Holds (deref space path) pathString
  short : pathString.length < 2 ^ 16

theorem length_cutString_le (string : List Byte) : (cutString string).length ≤ string.length := by
  rw [length_cutString]
  exact componentOffset_le string

theorem NewPath.cut (new : NewPath space path pathString) :
    NewPath (cutComponent space path pathString) path (cutString pathString) := by
  have short := new.short
  have shorter := length_cutString_le pathString
  exact ⟨holds_cutComponent new.holds (by omega), by omega⟩

theorem NewPath.cut_cut (new : NewPath space path pathString) :
    cutComponent (cutComponent space path pathString) path (cutString pathString) =
      cutComponent space path pathString := by
  apply cutComponent_eq_self new.cut.holds
  rw [componentOffset_cutString, length_cutString]

theorem StoredPath.cut (entry : StoredPath space dirString path pathString pointer stored) :
    StoredPath (cutComponent space path pathString) dirString path (cutString pathString) pointer
      stored where
  nonNull := entry.nonNull
  holds := cutComponent_of_apart entry.holds entry.apart
  short := entry.short
  apart := (entry.apart.symm.mono (length_cutString_le pathString)).symm

theorem removed_eq_drop (stored dir : List Byte) :
    removed stored dir = stored.drop (stored.length - (removed stored dir).length) := by
  unfold removed
  cases isOffset : removedOffset stored dir with
  | none => simp
  | some offset =>
      have inside := removedOffset_le isOffset
      dsimp only
      rw [List.length_drop]
      congr 1
      omega

theorem length_removed_le (stored dir : List Byte) :
    (removed stored dir).length ≤ stored.length := by
  rw [removed_eq_drop, List.length_drop]
  exact Nat.sub_le _ _

/-- `remove_prefix` returns the empty literal or a pointer to the end of the path. -/
theorem removePrefix_result {pointer : Word} {stored : List Byte}
    (holds : Holds (deref space pointer) stored) (dirHolds : Holds dir dirString)
    (enough : dirString.length ≤ fuel) :
    (removePrefix space fuel pointer dir = some none ∧ removed stored dirString = []) ∨
      (removePrefix space fuel pointer dir = some (some (removedPointer pointer stored dirString)) ∧
        Holds (deref space (removedPointer pointer stored dirString))
          (removed stored dirString)) := by
  rw [removePrefix_eq holds dirHolds enough]
  cases isOffset : removedOffset stored dirString with
  | none => exact .inl ⟨rfl, by rw [removed, isOffset]⟩
  | some offset =>
      have inside := removedOffset_le isOffset
      have isRemoved : removed stored dirString = stored.drop offset := by rw [removed, isOffset]
      have position : stored.length - (removed stored dirString).length = offset := by
        rw [isRemoved, List.length_drop]
        omega
      rw [removedPointer, position, isRemoved, deref_add]
      exact .inr ⟨rfl, holds.advance inside⟩

theorem compare_stored (new : NewPath space path pathString)
    (entry : StoredPath space dirString path pathString pointer stored)
    (dirHolds : Holds dir dirString) (enough : 2 ^ 16 + dirString.length ≤ fuel) :
    ∃ other, removePrefix space fuel pointer dir = some other ∧
      isInSameDir space fuel path other =
        if target stored dirString = [] then some (false, space)
        else some (decide (firstComponent (withoutSlash pathString) =
            firstComponent (target stored dirString)),
          cutComponent (cutComponent space path pathString)
            (removedPointer pointer stored dirString) (removed stored dirString)) := by
  have newShort := new.short
  have entryShort := entry.short
  have removedLe := length_removed_le stored dirString
  rcases @removePrefix_result space fuel dir dirString pointer stored entry.holds dirHolds
    (by omega) with ⟨literal, nothing⟩ | ⟨result, removedHolds⟩
  · have empty : target stored dirString = [] := by
      rw [target, nothing]
      rfl
    rw [if_pos empty]
    exact ⟨none, literal, rfl⟩
  · refine ⟨_, result, isInSameDir_eq new.holds removedHolds newShort (by omega) (by omega)
      (by omega) fun i iLe j jLe => ?_⟩
    rw [removedPointer, BitVec.add_assoc, ← BitVec.ofNat_add]
    exact entry.apart i iLe _ (by omega)

theorem cut_stored (entry : StoredPath space dirString path pathString pointer stored)
    (noSlash : 0x2f#8 ∉ target stored dirString) :
    cutComponent space (removedPointer pointer stored dirString) (removed stored dirString) =
      space := by
  apply cutComponent_eq_self
  · have holds := entry.holds.advance (Nat.sub_le stored.length (removed stored dirString).length)
    rw [← removed_eq_drop, ← deref_add] at holds
    exact holds
  · have skipped := leadingSlash_le_length (removed stored dirString)
    rw [target] at noSlash
    rw [componentOffset, firstComponent_of_noSlash noSlash, withoutSlash, List.length_drop]
    omega

section Scan

variable {left index : Nat} {stored : List Byte}

theorem isDuplicate_null (isNull : pathes index = 0#64) :
    isDuplicate fuel dir path pathes left index space = some (false, space) := by
  cases left with
  | zero => rfl
  | succ left => rw [isDuplicate, if_pos isNull]

theorem isDuplicate_pass (new : NewPath space path pathString)
    (entry : StoredPath space dirString path pathString (pathes index) stored)
    (dirHolds : Holds dir dirString) (enough : 2 ^ 16 + dirString.length ≤ fuel)
    (noSlash : 0x2f#8 ∉ target stored dirString)
    (different : target stored dirString = [] ∨
      target stored dirString ≠ firstComponent (withoutSlash pathString)) :
    isDuplicate fuel dir path pathes (left + 1) index space =
      isDuplicate fuel dir path pathes left (index + 1)
        (if target stored dirString = [] then space else cutComponent space path pathString) := by
  obtain ⟨other, isOther, compared⟩ := compare_stored new entry dirHolds enough
  rw [isDuplicate, if_neg entry.nonNull, isOther, Option.bind_eq_bind, Option.bind_some, compared]
  by_cases empty : target stored dirString = []
  · rw [if_pos empty, if_pos empty]
    rfl
  · have notSame : firstComponent (withoutSlash pathString) ≠
        firstComponent (target stored dirString) := by
      rw [firstComponent_of_noSlash noSlash]
      exact fun same => different.elim empty fun notSame => notSame same.symm
    rw [if_neg empty, if_neg empty, decide_eq_false notSame, cut_stored entry.cut noSlash]
    rfl

theorem isDuplicate_hit (new : NewPath space path pathString)
    (entry : StoredPath space dirString path pathString (pathes index) stored)
    (dirHolds : Holds dir dirString) (enough : 2 ^ 16 + dirString.length ≤ fuel)
    (nonempty : target stored dirString ≠ [])
    (same : firstComponent (withoutSlash pathString) = firstComponent (target stored dirString)) :
    isDuplicate fuel dir path pathes (left + 1) index space =
      some (true, cutComponent (cutComponent space path pathString)
        (removedPointer (pathes index) stored dirString) (removed stored dirString)) := by
  obtain ⟨other, isOther, compared⟩ := compare_stored new entry dirHolds enough
  rw [isDuplicate, if_neg entry.nonNull, isOther, Option.bind_eq_bind, Option.bind_some, compared,
    if_neg nonempty, decide_eq_true same]
  rfl

/-- A search among stored paths that end behind the component they are compared by
changes the new path only. -/
theorem isDuplicate_settled {targets : Nat → List Byte} (new : NewPath space path pathString)
    (dirHolds : Holds dir dirString) (enough : 2 ^ 16 + dirString.length ≤ fuel)
    (settled : ∀ i < left, ∃ other,
      StoredPath space dirString path pathString (pathes (index + i)) other ∧
        target other dirString = targets (index + i) ∧ 0x2f#8 ∉ targets (index + i)) :
    ∃ duplicate after,
      isDuplicate fuel dir path pathes left index space = some (duplicate, after) ∧
      (after = space ∨ after = cutComponent space path pathString) ∧
      ((∃ i < left, targets (index + i) ≠ []) → after = cutComponent space path pathString) ∧
      (duplicate = true ↔ firstComponent (withoutSlash pathString) ≠ [] ∧
        ∃ i < left, targets (index + i) = firstComponent (withoutSlash pathString)) := by
  induction left generalizing space pathString index with
  | zero =>
      refine ⟨false, space, rfl, .inl rfl, ?_, ?_⟩
      · rintro ⟨i, below, -⟩
        exact absurd below (Nat.not_lt_zero i)
      · constructor
        · intro isTrue
          cases isTrue
        · rintro ⟨-, i, below, -⟩
          exact absurd below (Nat.not_lt_zero i)
  | succ left ih =>
      obtain ⟨other, first, isTarget, noSlash⟩ := settled 0 (Nat.succ_pos _)
      rw [Nat.add_zero] at first isTarget noSlash
      rw [← isTarget] at noSlash
      have shift : ∀ i, index + 1 + i = index + (i + 1) := fun i => by omega
      -- the first entry is none of those that are looked for
      have later : ∀ {P : List Byte → Prop}, ¬ P (target other dirString) →
          ((∃ i < left + 1, P (targets (index + i))) ↔
            ∃ i < left, P (targets (index + 1 + i))) := by
        intro P notFirst
        constructor
        · rintro ⟨i, below, holds⟩
          cases i with
          | zero =>
              rw [Nat.add_zero, ← isTarget] at holds
              exact absurd holds notFirst
          | succ i => exact ⟨i, Nat.lt_of_succ_lt_succ below, by rwa [shift]⟩
        · rintro ⟨i, below, holds⟩
          rw [shift] at holds
          exact ⟨i + 1, Nat.succ_lt_succ below, holds⟩
      by_cases empty : target other dirString = []
      · rw [isDuplicate_pass new first dirHolds enough noSlash (.inl empty), if_pos empty]
        obtain ⟨duplicate, after, scanned, isCut, mustCut, found⟩ := @ih space pathString (index + 1)
          new fun i below => by
            rw [shift]
            exact settled (i + 1) (Nat.succ_lt_succ below)
        refine ⟨duplicate, after, scanned, isCut, ?_, found.trans
          (and_congr_right fun nonempty => ?_)⟩
        · rw [@later (· ≠ []) (not_not.mpr empty)]
          exact mustCut
        · rw [@later (· = firstComponent (withoutSlash pathString))]
          rw [empty]
          exact Ne.symm nonempty
      by_cases same : target other dirString = firstComponent (withoutSlash pathString)
      · have hit : firstComponent (withoutSlash pathString) =
            firstComponent (target other dirString) := by
          rw [firstComponent_of_noSlash noSlash, same]
        rw [isDuplicate_hit new first dirHolds enough empty hit, cut_stored first.cut noSlash]
        refine ⟨true, _, rfl, .inr rfl, fun _ => rfl, iff_of_true rfl ⟨?_, 0, Nat.succ_pos _, ?_⟩⟩
        · rw [← same]
          exact empty
        · rw [Nat.add_zero, ← isTarget, same]
      · rw [isDuplicate_pass new first dirHolds enough noSlash (.inr same), if_neg empty]
        obtain ⟨duplicate, after, scanned, isCut, -, found⟩ :=
          @ih (cutComponent space path pathString) (cutString pathString) (index + 1) new.cut
            fun i below => by
              obtain ⟨later, isLater, rest⟩ := settled (i + 1) (Nat.succ_lt_succ below)
              rw [shift]
              exact ⟨later, isLater.cut, rest⟩
        rw [new.cut_cut, or_self] at isCut
        rw [firstComponent_cutString] at found
        refine ⟨duplicate, after, scanned, .inr isCut, fun _ => isCut, ?_⟩
        rw [@later (· = firstComponent (withoutSlash pathString)) same]
        exact found

end Scan

end Entries

end MmdOS
