import MmdOS.CommonPrefix
import MmdOS.FileSystemHeap

/-!
# Prefix removal

`remove_prefix` walks along both strings while they agree and looks at the one
character of `dest` where it stops.  A slash there ends the directory if the
whole of `prefix` was passed, and it does not otherwise.
-/

namespace MmdOS

open CString

variable {string : List Byte}

def leadingSlash (string : List Byte) : Nat :=
  if string.head? = some 0x2f#8 then 1 else 0

def withoutSlash (string : List Byte) : List Byte :=
  string.drop (leadingSlash string)

/-- What prefix removal is meant to return for `dest` and `prefix` without their
first slashes. -/
def remainder (dest dir : List Byte) : List Byte :=
  if dir = [] then dest
  else if dir ++ [0x2f#8] <+: dest then dest.drop (dir.length + 1)
  else []

/-- How far the result of `remove_prefix` is into `dest`; none is the empty
literal. -/
def removedOffset (dest dir : List Byte) : Option Nat :=
  if withoutSlash dir = [] then some (leadingSlash dest)
  else
    let stop := shared (withoutSlash dest) (withoutSlash dir)
    if (withoutSlash dest)[stop]? = some 0x2f#8 then some (leadingSlash dest + stop + 1) else none

def removed (dest dir : List Byte) : List Byte :=
  match removedOffset dest dir with
  | none => []
  | some offset => dest.drop offset

/-- The walk stops inside the name of a component of `dir`, at a slash of `dest`
with more behind it. -/
def StopsInside (dest dir : List Byte) : Prop :=
  ∃ common next rest behind, dir = common ++ next :: rest ∧ next ≠ 0x2f#8 ∧
    dest = common ++ 0x2f#8 :: behind ∧ behind ≠ []

section Strings

variable {dest dir : List Byte}
variable {common behind : List Byte}
variable {rest : List Byte} {next : Byte}

theorem leadingSlash_le_length (string : List Byte) : leadingSlash string ≤ string.length := by
  unfold leadingSlash
  cases string with
  | nil => simp
  | cons first rest =>
      rw [List.length_cons]
      split <;> omega

theorem removed_of_nil (isRoot : withoutSlash dir = []) : removed dest dir = withoutSlash dest := by
  rw [removed, removedOffset, if_pos isRoot, withoutSlash]

theorem removed_of_slash (notRoot : withoutSlash dir ≠ [])
    (destEq : withoutSlash dest = common ++ 0x2f#8 :: behind)
    (stop : shared (withoutSlash dest) (withoutSlash dir) = common.length) :
    removed dest dir = behind := by
  have isSlash : (withoutSlash dest)[common.length]? = some 0x2f#8 := by
    rw [destEq, List.getElem?_append_right (Nat.le_refl _), Nat.sub_self, List.getElem?_cons_zero]
  rw [removed, removedOffset, if_neg notRoot, stop, if_pos isSlash]
  dsimp only
  rw [Nat.add_assoc, ← List.drop_drop, ← withoutSlash, destEq, ← List.drop_drop, List.drop_left,
    List.drop_one, List.tail_cons]

theorem removed_of_no_slash (notRoot : withoutSlash dir ≠ [])
    (noSlash : (withoutSlash dest)[shared (withoutSlash dest) (withoutSlash dir)]? ≠
      some 0x2f#8) : removed dest dir = [] := by
  rw [removed, removedOffset, if_neg notRoot, if_neg noSlash]

theorem split_at_slash {stop : Nat} (isSlash : string[stop]? = some 0x2f#8) :
    string = string.take stop ++ 0x2f#8 :: string.drop (stop + 1) ∧
      (string.take stop).length = stop := by
  obtain ⟨below, isChar⟩ := List.getElem?_eq_some_iff.mp isSlash
  refine ⟨?_, List.length_take_of_le (Nat.le_of_lt below)⟩
  rw [← isChar, ← List.drop_eq_getElem_cons below, List.take_append_drop]

/-- The walk of a directory that is followed by a slash passes all of it. -/
theorem removed_below (notRoot : withoutSlash dir ≠ [])
    (destEq : withoutSlash dest = withoutSlash dir ++ 0x2f#8 :: behind) :
    removed dest dir = behind := by
  refine removed_of_slash notRoot destEq ?_
  rw [destEq, shared_comm]
  exact shared_append_left _ _

theorem removed_of_stopsInside (dirEq : withoutSlash dir = common ++ next :: rest)
    (notSlash : next ≠ 0x2f#8) (destEq : withoutSlash dest = common ++ 0x2f#8 :: behind) :
    removed dest dir = behind := by
  have notRoot : withoutSlash dir ≠ [] := by
    rw [dirEq]
    simp
  refine removed_of_slash notRoot destEq ?_
  rw [destEq, dirEq]
  exact shared_append_of_ne common _ _ (Ne.symm notSlash)

/-- No string of the form `common/…` starts with a directory that goes on
differently behind `common`. -/
theorem not_below_of_stopsInside (notSlash : next ≠ 0x2f#8) :
    ¬ (common ++ next :: rest) ++ [0x2f#8] <+: common ++ 0x2f#8 :: behind := by
  rw [List.append_assoc, List.prefix_append_right_inj, List.cons_append, List.cons_prefix_cons]
  exact fun both => notSlash both.1

/-- A slash at the stop is behind all of `dir` or inside one of its components. -/
theorem below_or_inside (isSlash : dest[shared dest dir]? = some 0x2f#8) :
    dir ++ [0x2f#8] <+: dest ∨
      ∃ next rest, dir = dest.take (shared dest dir) ++ next :: rest ∧ next ≠ 0x2f#8 := by
  obtain ⟨destEq, -⟩ := split_at_slash isSlash
  have common := take_shared dest dir
  rcases Nat.lt_or_eq_of_le (shared_le_right dest dir) with inside | whole
  · refine .inr ⟨dir[shared dest dir], dir.drop (shared dest dir + 1), ?_, ?_⟩
    · rw [common, ← List.drop_eq_getElem_cons inside, List.take_append_drop]
    · intro nextSlash
      have different : dest ≠ dir := by
        intro equal
        have wholeEq := shared_eq_length_iff.mpr (List.prefix_refl dir)
        rw [equal, wholeEq] at inside
        exact Nat.lt_irrefl _ inside
      refine getElem?_shared_ne different ?_
      rw [isSlash, List.getElem?_eq_getElem inside, nextSlash]
  · rw [whole, List.take_length] at common
    refine .inl ⟨dest.drop (dir.length + 1), ?_⟩
    rw [whole, common] at destEq
    rw [List.append_assoc, List.singleton_append, ← destEq]

/-- Where the result is not the remainder, the walk stopped inside a component. -/
theorem removed_eq_remainder_iff :
    removed dest dir = remainder (withoutSlash dest) (withoutSlash dir) ↔
      ¬ StopsInside (withoutSlash dest) (withoutSlash dir) := by
  constructor
  · rintro same ⟨common, next, rest, behind, dirEq, notSlash, destEq, nonempty⟩
    rw [removed_of_stopsInside dirEq notSlash destEq, remainder, dirEq, if_neg (by simp), destEq,
      if_neg (not_below_of_stopsInside notSlash)] at same
    exact nonempty same
  · intro notInside
    by_cases isRoot : withoutSlash dir = []
    · rw [removed_of_nil isRoot, remainder, if_pos isRoot]
    rw [remainder, if_neg isRoot]
    by_cases below : withoutSlash dir ++ [0x2f#8] <+: withoutSlash dest
    · obtain ⟨behind, destEq⟩ := below
      rw [List.append_assoc, List.singleton_append] at destEq
      rw [removed_below isRoot destEq.symm, ← destEq, if_pos (by simp), ← List.drop_drop,
        List.drop_left, List.drop_one, List.tail_cons]
    rw [if_neg below]
    by_cases isSlash :
        (withoutSlash dest)[shared (withoutSlash dest) (withoutSlash dir)]? = some 0x2f#8
    · obtain ⟨destEq, lengthEq⟩ := split_at_slash isSlash
      rw [removed_of_slash isRoot destEq lengthEq.symm]
      rcases below_or_inside isSlash with isBelow | ⟨next, rest, dirEq, notSlash⟩
      · exact absurd isBelow below
      · by_contra nonempty
        exact notInside ⟨_, next, rest, _, dirEq, notSlash, destEq, nonempty⟩
    · exact removed_of_no_slash isRoot isSlash

end Strings

section Pointers

variable {space : ByteSpace} {dest : Word} {dir : Stream} {destString dirString : List Byte}
variable {stream : Stream} {fuel : Nat}

theorem holds_withoutSlash (holds : Holds stream string) :
    Holds (advance (leadingSlash string) stream) (withoutSlash string) :=
  holds.advance (leadingSlash_le_length string)

theorem head_eq_slash_iff (holds : Holds stream string) :
    (stream 0 ≠ 0#8 ∧ stream 0 = 0x2f#8) ↔ string.head? = some 0x2f#8 := by
  cases string with
  | nil =>
      have isZero : stream 0 = 0#8 := holds.stops
      simp [isZero]
  | cons char rest =>
      obtain ⟨head, nonzero, -⟩ := holds.of_cons
      simp [head, nonzero]

theorem dropSlash_eq (holds : Holds (deref space dest) destString) :
    dropSlash space dest = dest + BitVec.ofNat 64 (leadingSlash destString) := by
  have slash := head_eq_slash_iff holds
  rw [deref_zero] at slash
  rw [dropSlash, leadingSlash]
  by_cases isSlash : destString.head? = some 0x2f#8
  · rw [if_pos (slash.mpr isSlash), if_pos isSlash]
  · rw [if_neg (mt slash.mp isSlash), if_neg isSlash]
    exact (BitVec.add_zero dest).symm

/-- The walk ends behind the common part of the two strings. -/
theorem skipPrefix_eq (holds : Holds (deref space dest) destString) (dirHolds : Holds dir dirString)
    (notRoot : dirString ≠ []) (enough : dirString.length ≤ fuel) :
    skipPrefix space fuel dest dir =
      some (dest + BitVec.ofNat 64 (shared destString dirString)) := by
  induction fuel generalizing dest dir destString dirString with
  | zero => exact absurd (List.eq_nil_of_length_eq_zero (Nat.le_zero.mp enough)) notRoot
  | succ fuel ih =>
      obtain ⟨char, chars, rfl⟩ := List.exists_cons_of_ne_nil notRoot
      obtain ⟨dirFirst, charNe, dirRest⟩ := dirHolds.of_cons
      rw [skipPrefix, dirFirst]
      cases destString with
      | nil =>
          have first := holds.stops
          rw [List.length_nil, deref_zero] at first
          rw [first, if_neg (Ne.symm charNe), shared_nil_left]
          exact congrArg some (BitVec.add_zero dest).symm
      | cons destChar destChars =>
          obtain ⟨first, -, rest⟩ := holds.of_cons
          rw [deref_zero] at first
          rw [first]
          by_cases same : destChar = char
          · subst same
            rw [← deref_add] at rest
            have restEmpty := rest.head_eq_zero_iff
            have dirEmpty : dir 1 = 0#8 ↔ chars = [] := dirRest.head_eq_zero_iff
            rw [deref_zero] at restEmpty
            have endsIff := or_congr restEmpty dirEmpty
            rw [if_pos rfl, shared_cons_self]
            by_cases ends : destChars = [] ∨ chars = []
            · rw [if_pos (endsIff.mpr ends)]
              rcases ends with rfl | rfl
              · rw [shared_nil_left]
              · rw [shared_nil_right]
            · rw [if_neg (mt endsIff.mp ends), ih rest dirRest (fun isNil => ends (.inr isNil))
                (Nat.le_of_succ_le_succ enough), BitVec.add_assoc, ← BitVec.ofNat_add,
                Nat.add_comm 1]
          · rw [if_neg same, shared_cons_of_ne same]
            exact congrArg some (BitVec.add_zero dest).symm

theorem removePrefix_eq (holds : Holds (deref space dest) destString)
    (dirHolds : Holds dir dirString) (enough : dirString.length ≤ fuel) :
    removePrefix space fuel dest dir =
      some ((removedOffset destString dirString).map fun offset =>
        dest + BitVec.ofNat 64 offset) := by
  have dirSlash : (if dir 0 ≠ 0#8 ∧ dir 0 = 0x2f#8 then advance 1 dir else dir) =
      advance (leadingSlash dirString) dir := by
    rw [leadingSlash]
    by_cases isSlash : dirString.head? = some 0x2f#8
    · rw [if_pos ((head_eq_slash_iff dirHolds).mpr isSlash), if_pos isSlash]
    · rw [if_neg (mt (head_eq_slash_iff dirHolds).mp isSlash), if_neg isSlash]
      rfl
  have destRest := holds_withoutSlash holds
  have dirRest := holds_withoutSlash dirHolds
  rw [← deref_add] at destRest
  unfold removePrefix removedOffset
  dsimp only
  rw [dirSlash, dropSlash_eq holds]
  by_cases isRoot : withoutSlash dirString = []
  · rw [if_pos (dirRest.head_eq_zero_iff.mpr isRoot), if_pos isRoot, Option.map_some]
  · have lengthLe : (withoutSlash dirString).length ≤ fuel := by
      rw [withoutSlash, List.length_drop]
      omega
    rw [if_neg (mt dirRest.head_eq_zero_iff.mp isRoot), if_neg isRoot,
      skipPrefix_eq destRest dirRest isRoot lengthLe, Option.bind_eq_bind, Option.bind_some]
    have stopLe := shared_le_left (withoutSlash destString) (withoutSlash dirString)
    have stopChar := destRest.apply_eq stopLe
    rw [deref] at stopChar
    rw [stopChar]
    by_cases isSlash : (withoutSlash destString)[shared (withoutSlash destString)
        (withoutSlash dirString)]? = some 0x2f#8
    · rw [if_pos isSlash, isSlash, Option.getD_some, if_neg (not_not.mpr rfl), Option.map_some,
        BitVec.ofNat_add, BitVec.ofNat_add, BitVec.add_assoc, BitVec.add_assoc, BitVec.add_assoc]
    · have notSlash : (withoutSlash destString)[shared (withoutSlash destString)
          (withoutSlash dirString)]?.getD 0#8 ≠ 0x2f#8 := by
        intro charSlash
        cases char : (withoutSlash destString)[shared (withoutSlash destString)
            (withoutSlash dirString)]? with
        | none =>
            rw [char, Option.getD_none] at charSlash
            exact absurd charSlash (by decide)
        | some found =>
            rw [char, Option.getD_some] at charSlash
            exact isSlash (by rw [char, charSlash])
      rw [if_pos notSlash, if_neg isSlash, Option.map_none]

def resultStream (space : ByteSpace) : Option Word → Stream
  | none => fun _ => 0#8
  | some path => deref space path

def RemovesTo (space : ByteSpace) (dest : Word) (dir : Stream) (string : List Byte) : Prop :=
  ∃ result rounds, (∀ fuel ≥ rounds, removePrefix space fuel dest dir = some result) ∧
    Holds (resultStream space result) string

theorem removedOffset_le {offset : Nat}
    (isOffset : removedOffset destString dirString = some offset) :
    offset ≤ destString.length := by
  have skipped := leadingSlash_le_length destString
  unfold removedOffset at isOffset
  split at isOffset
  · cases isOffset
    exact skipped
  · dsimp only at isOffset
    split at isOffset
    · next isSlash =>
      cases isOffset
      have below := (List.getElem?_eq_some_iff.mp isSlash).1
      simp only [withoutSlash, List.length_drop] at below ⊢
      omega
    · cases isOffset

/-- The call always returns, and the result is the removed string. -/
theorem removesTo_removed (holds : Holds (deref space dest) destString)
    (dirHolds : Holds dir dirString) : RemovesTo space dest dir (removed destString dirString) := by
  refine ⟨_, dirString.length, fun fuel enough => removePrefix_eq holds dirHolds enough, ?_⟩
  rw [removed]
  cases isOffset : removedOffset destString dirString with
  | none => exact ⟨List.not_mem_nil, fun i below => absurd below (Nat.not_lt_zero i), rfl⟩
  | some offset =>
      rw [Option.map_some, resultStream, deref_add]
      exact holds.advance (removedOffset_le isOffset)

theorem RemovesTo.unique {first second : List Byte} (firstTo : RemovesTo space dest dir first)
    (secondTo : RemovesTo space dest dir second) : first = second := by
  obtain ⟨result, rounds, returned, holds⟩ := firstTo
  obtain ⟨result', rounds', returned', holds'⟩ := secondTo
  have same := (returned (rounds + rounds') (by omega)).symm.trans
    (returned' (rounds + rounds') (by omega))
  cases same
  exact holds.unique holds'

/-- `remove_prefix` removes the prefix unless its walk stops inside a component
of the prefix, at a slash of `dest` that is not its last character. -/
theorem removePrefix_removes_iff (holds : Holds (deref space dest) destString)
    (dirHolds : Holds dir dirString) :
    RemovesTo space dest dir (remainder (withoutSlash destString) (withoutSlash dirString)) ↔
      ¬ StopsInside (withoutSlash destString) (withoutSlash dirString) := by
  rw [← removed_eq_remainder_iff]
  constructor
  · exact (removesTo_removed holds dirHolds).unique
  · intro same
    rw [← same]
    exact removesTo_removed holds dirHolds

end Pointers

theorem holds_imageSpace (start : Word) (noZero : 0#8 ∉ string) (short : string.length < 2 ^ 64) :
    Holds (deref (imageSpace start string) start) string := by
  have offset : ∀ i ≤ string.length, (start + BitVec.ofNat 64 i - start).toNat = i := by
    intro i inside
    rw [BitVec.add_comm, BitVec.add_sub_cancel, BitVec.toNat_ofNat, Nat.mod_eq_of_lt (by omega)]
  refine ⟨noZero, ?_, ?_⟩
  · intro i below
    rw [deref, imageSpace, offset i (Nat.le_of_lt below), List.getElem?_eq_getElem below,
      Option.getD_some]
  · rw [deref, imageSpace, offset _ (Nat.le_refl _), List.getElem?_eq_none (Nat.le_refl _),
      Option.getD_none]

theorem removePrefix_removes_directory :
    RemovesTo (imageSpace 0x1000#64 [0x61#8, 0x2f#8, 0x62#8]) 0x1000#64 (stringStream [0x61#8])
      [0x62#8] := by
  refine (removePrefix_removes_iff (holds_imageSpace 0x1000#64 (by decide) (by decide))
    (holds_stringStream (by decide))).mpr ?_
  rintro ⟨common, next, rest, behind, dirEq, -, destEq, -⟩
  cases common with
  | nil => simp [withoutSlash, leadingSlash] at destEq
  | cons first firsts => simp [withoutSlash, leadingSlash] at dirEq

/-- The name `a/b` does not lie in the directory `ab`, but `b` is returned. -/
theorem removePrefix_returns_unrelated :
    RemovesTo (imageSpace 0x1000#64 [0x61#8, 0x2f#8, 0x62#8]) 0x1000#64
        (stringStream [0x61#8, 0x62#8]) [0x62#8] ∧
      ¬ RemovesTo (imageSpace 0x1000#64 [0x61#8, 0x2f#8, 0x62#8]) 0x1000#64
        (stringStream [0x61#8, 0x62#8])
        (remainder (withoutSlash [0x61#8, 0x2f#8, 0x62#8]) (withoutSlash [0x61#8, 0x62#8])) := by
  have returns : RemovesTo (imageSpace 0x1000#64 [0x61#8, 0x2f#8, 0x62#8]) 0x1000#64
      (stringStream [0x61#8, 0x62#8]) [0x62#8] :=
    removesTo_removed (holds_imageSpace 0x1000#64 (by decide) (by decide))
      (holds_stringStream (by decide))
  refine ⟨returns, fun removes => ?_⟩
  exact absurd (returns.unique removes) (by decide)

end MmdOS
