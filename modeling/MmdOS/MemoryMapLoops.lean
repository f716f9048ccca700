import MmdOS.MemoryMap

/-!
# The entries that `pmm_init` looks at

Each of the three loops of `pmm_init` goes through the entries of the memory map with
a counter of eight bits.  The loops are run here with a list of the entries that
they have been at.  The third one also ends only if the loop over the pages of every
entry does.
-/

namespace MmdOS

section Traces

variable {α : Type} {body : Nat → α → α × Bool} {entryCount fuel : Nat} {i : BitVec 8}

def traced (body : Nat → α → α × Bool) (i : Nat) (acc : α × List Nat) : (α × List Nat) × Bool :=
  (((body i acc.1).1, acc.2 ++ [i]), (body i acc.1).2)

def tracedLoop (entryCount : Nat) (body : Nat → α → α × Bool) (fuel : Nat) (acc : α) :
    Option (α × List Nat) :=
  entryLoop entryCount (traced body) fuel 0#8 (acc, [])

theorem map_fst_entryLoop_traced (acc : α × List Nat) :
    (entryLoop entryCount (traced body) fuel i acc).map Prod.fst =
      entryLoop entryCount body fuel i acc.1 := by
  induction fuel generalizing i acc with
  | zero => rfl
  | succ fuel ih =>
      rw [entryLoop, entryLoop]
      by_cases inside : i.toNat < entryCount
      · rw [if_pos inside, if_pos inside]
        dsimp only [traced]
        by_cases stops : (body i.toNat acc.1).2 = true
        · rw [if_pos stops, if_pos stops]
          rfl
        · rw [if_neg stops, if_neg stops]
          apply ih
      · rw [if_neg inside, if_neg inside]
        rfl

theorem entryLoop_of_traced {acc result : α} {visits : List Nat}
    (ended : tracedLoop entryCount body fuel acc = some (result, visits)) :
    entryLoop entryCount body fuel 0#8 acc = some result := by
  have same := @map_fst_entryLoop_traced α body entryCount fuel 0#8 (acc, [])
  rw [tracedLoop] at ended
  rw [ended] at same
  exact same.symm

/-- The rounds of a loop visit the entries from the first one on, and all of them if
there is no `break`. -/
theorem visit_traced (indices : List Nat) (acc : α) (seen : List Nat) :
    ∃ visits, visits <+: indices ∧
      visit (traced body) indices (acc, seen) = (visit body indices acc, seen ++ visits) ∧
      ((∀ i acc, (body i acc).2 = false) → visits = indices) := by
  induction indices generalizing acc seen with
  | nil => exact ⟨[], List.nil_prefix, by simp [visit], fun _ => rfl⟩
  | cons i indices ih =>
      by_cases stops : (body i acc).2 = true
      · refine ⟨[i], by simp, by simp [visit, traced, stops], fun noBreak => ?_⟩
        rw [noBreak] at stops
        cases stops
      · obtain ⟨visits, isPrefix, visited, all⟩ := ih (body i acc).1 (seen ++ [i])
        refine ⟨i :: visits, by simpa using isPrefix, ?_, fun noBreak => by rw [all noBreak]⟩
        have isFalse : (body i acc).2 = false := Bool.eq_false_iff.mpr stops
        have round : body i acc = ((body i acc).1, false) := Prod.ext rfl isFalse
        have tracedRound : traced body i (acc, seen) = (((body i acc).1, seen ++ [i]), false) :=
          Prod.ext rfl isFalse
        rw [visit_cons_of_continue round, visit_cons_of_continue tracedRound, visited,
          List.append_assoc, List.singleton_append]

/-- With enough fuel a loop over at most 255 entries ends. -/
theorem tracedLoop_of_fuel (countLe : entryCount ≤ 255) (enough : entryCount < fuel) (acc : α) :
    ∃ visits, visits <+: List.range entryCount ∧
      tracedLoop entryCount body fuel acc =
        some (visit body (List.range' 0 entryCount) acc, visits) ∧
      ((∀ i acc, (body i acc).2 = false) → visits = List.range entryCount) := by
  have fuelLt : entryCount - (0#8).toNat < fuel := by simpa using enough
  obtain ⟨visits, isPrefix, visited, all⟩ := @visit_traced α body (List.range' 0 entryCount) acc []
  rw [List.range_eq_range']
  refine ⟨visits, isPrefix, ?_, all⟩
  rw [tracedLoop, entryLoop_of_fuel countLe fuelLt]
  simpa using visited

theorem tracedLoop_foldRound_of_fuel {β : Type} {entries : List β} {step : α → β → α}
    (countLe : entries.length ≤ 255) (enough : entries.length < fuel) (acc : α) :
    tracedLoop entries.length (foldRound entries step) fuel acc =
      some (entries.foldl step acc, List.range entries.length) := by
  obtain ⟨visits, -, ended, all⟩ := @tracedLoop_of_fuel α
    (foldRound entries step) _ _ countLe enough acc
  rw [ended, all foldRound_no_break]
  exact congrArg (fun result => some (result, _)) (visit_foldRound [] entries rfl acc)

/-- A loop without a `break` does not end if there are more entries. -/
theorem tracedLoop_count_le {acc : α} {result : α × List Nat}
    (noBreak : ∀ i acc, (body i acc).2 = false)
    (ended : tracedLoop entryCount body fuel acc = some result) : entryCount ≤ 255 := by
  have tracedNoBreak : ∀ i acc, (traced body i acc).2 = false := fun i acc => noBreak i acc.1
  exact entryLoop_count_le tracedNoBreak ended

end Traces

def markedBytes (hhdm bitmap size : Word) (ram : Nat → BitVec 8) : Bitmap :=
  fun byte => if byte < size.toNat then 0xff#8 else ram ((bitmap - hhdm).toNat + byte)

/-- The loops end after they have visited the entries in order.  The second one may
stop before the last entry, and the third one is reached unless the bitmap has no
place. -/
def RunsThrough (entries : List MemmapEntry) (hhdm : Word) (ram : Nat → BitVec 8) : Prop :=
  ∃ fuel highest,
    tracedLoop entries.length (foldRound entries maxEnd) fuel 0#64 =
      some (highest, List.range entries.length) ∧
    ∃ after bitmap visits,
      tracedLoop entries.length (placeRound hhdm (bitmapSize (highest.toNat / pageSize))) fuel
        (entries, 0#64) = some ((after, bitmap), visits) ∧
      visits <+: List.range entries.length ∧
      (bitmap ≠ 0#64 → ∃ cleared,
        tracedLoop entries.length (foldRound after clearEntry) fuel
          (some (markedBytes hhdm bitmap (bitmapSize (highest.toNat / pageSize)) ram)) =
        some (some cleared, List.range entries.length))

/-- The number of bytes that `pmm_init` reserves for the bitmap of a map. -/
def reservedBytes (entries : List MemmapEntry) : Word :=
  bitmapSize (highestEnd entries / pageSize)

/-- The counters can reach their bounds: there are at most 255 entries, and no usable
memory outside the bitmap has a length within a page of `2 ^ 64`. -/
def CountersSuffice (entries : List MemmapEntry) (hhdm : Word) : Prop :=
  entries.length ≤ 255 ∧
    ∀ home, bitmapHome entries (reservedBytes entries) = some home → home.base + hhdm ≠ 0#64 →
      ∀ entry ∈ withoutBitmap (reservedBytes entries) entries, entry.type = .usable →
        entry.length.toNat ≤ 2 ^ 64 - pageSize

section Loops

variable {entries : List MemmapEntry} {hhdm : Word} {ram : Nat → BitVec 8}

theorem foldl_clearEntry_none (entries : List MemmapEntry) :
    entries.foldl clearEntry none = none := by
  induction entries with
  | nil => rfl
  | cons entry entries ih =>
      rw [List.foldl_cons, clearEntry, Option.bind_none, ite_self, ih]

/-- The third loop ends exactly if no usable entry is too long. -/
theorem foldl_clearEntry_iff (bitmap : Bitmap) :
    (∃ cleared, entries.foldl clearEntry (some bitmap) = some cleared) ↔
      ∀ entry ∈ entries, entry.type = .usable → entry.length.toNat ≤ 2 ^ 64 - pageSize := by
  constructor
  · intro ended
    induction entries generalizing bitmap with
    | nil => simp
    | cons entry entries ih =>
        rw [List.foldl_cons, clearEntry] at ended
        rw [List.forall_mem_cons]
        by_cases isUsable : entry.type = .usable
        · rw [if_pos isUsable, Option.bind_some] at ended
          by_cases short : entry.length.toNat ≤ 2 ^ 64 - pageSize
          · rw [pageRounds, if_pos short] at ended
            exact ⟨fun _ => short, ih _ ended⟩
          · rw [pageRounds, if_neg short, Option.map_none, foldl_clearEntry_none] at ended
            obtain ⟨cleared, impossible⟩ := ended
            cases impossible
        · rw [if_neg isUsable] at ended
          exact ⟨fun usable => absurd usable isUsable, ih _ ended⟩
  · exact foldl_clearEntry_some bitmap

theorem highestEnd_eq_toNat (entries : List MemmapEntry) :
    (entries.foldl maxEnd 0#64).toNat = highestEnd entries :=
  toNat_foldl_maxEnd entries 0#64

theorem visit_placeRound_cases (entries : List MemmapEntry) (hhdm size : Word) :
    (bitmapHome entries size = none ∧
      visit (placeRound hhdm size) (List.range' 0 entries.length) (entries, 0#64) =
        (entries, 0#64)) ∨
    ∃ home, bitmapHome entries size = some home ∧
      (withoutBitmap size entries).length = entries.length ∧
      visit (placeRound hhdm size) (List.range' 0 entries.length) (entries, 0#64) =
        (withoutBitmap size entries, home.base + hhdm) := by
  rcases visit_placeRound hhdm size [] entries rfl with
    nothing | ⟨middle, home, tail, split, homeEq, -, -, without, visited⟩
  · exact .inl nothing
  · right
    refine ⟨home, homeEq, ?_, by rw [without]; exact visited⟩
    rw [without, split]
    simp

theorem length_placeRound (hhdm size : Word) (i : Nat) (acc : List MemmapEntry × Word) :
    (placeRound hhdm size i acc).1.1.length = acc.1.length := by
  unfold placeRound
  cases acc.1[i]? with
  | none => rfl
  | some entry =>
      dsimp only
      split
      · exact List.length_set
      · rfl

theorem CountersSuffice.runsThrough (suffice : CountersSuffice entries hhdm) :
    RunsThrough entries hhdm ram := by
  obtain ⟨countLe, short⟩ := suffice
  have enough : entries.length < entries.length + 1 := Nat.lt_succ_self _
  refine ⟨entries.length + 1, _, tracedLoop_foldRound_of_fuel countLe enough _, ?_⟩
  rw [highestEnd_eq_toNat]
  change ∃ after bitmap visits, tracedLoop _ (placeRound hhdm (reservedBytes entries)) _ _ = _ ∧ _
  obtain ⟨visits, isPrefix, ended, -⟩ := @tracedLoop_of_fuel _
    (placeRound hhdm (reservedBytes entries))
    _ _ countLe enough (entries, 0#64)
  rcases visit_placeRound_cases entries hhdm (reservedBytes entries) with
    ⟨-, visited⟩ | ⟨home, homeEq, lengthEq, visited⟩
  · -- Without a place for the bitmap there is a panic before the third loop.
    refine ⟨entries, 0#64, visits, by rw [ended, visited], isPrefix, fun nonNull => ?_⟩
    exact absurd rfl nonNull
  · refine ⟨_, _, visits, by rw [ended, visited], isPrefix, fun nonNull => ?_⟩
    obtain ⟨cleared, clearedEq⟩ := (foldl_clearEntry_iff _).mpr (short home homeEq nonNull)
    refine ⟨cleared, ?_⟩
    rw [← lengthEq, tracedLoop_foldRound_of_fuel (by omega) (by omega), clearedEq]

theorem RunsThrough.countersSuffice (runs : RunsThrough entries hhdm ram) :
    CountersSuffice entries hhdm := by
  obtain ⟨fuel, highest, first, after, bitmap, visits, second, -, third⟩ := runs
  have countLe := tracedLoop_count_le foldRound_no_break first
  have highestEq := entryLoop_foldRound countLe (entryLoop_of_traced first)
  rw [highestEq, highestEnd_eq_toNat] at second third
  refine ⟨countLe, fun home homeEq nonNull => ?_⟩
  have placed := entryLoop_eq_visit countLe (entryLoop_of_traced second)
  rcases visit_placeRound_cases entries hhdm (reservedBytes entries) with
    ⟨noHome, -⟩ | ⟨other, otherEq, lengthEq, visited⟩
  · rw [homeEq] at noHome
    cases noHome
  · -- The third loop runs over the map that the second one has left.
    obtain rfl : home = other := Option.some.inj (homeEq.symm.trans otherEq)
    obtain ⟨afterEq, bitmapEq⟩ := Prod.mk.inj (placed.trans visited)
    obtain ⟨cleared, ended⟩ := third (by rwa [bitmapEq])
    have ended := entryLoop_of_traced ended
    rw [afterEq, ← lengthEq] at ended
    exact (foldl_clearEntry_iff _).mp ⟨cleared, (entryLoop_foldRound (by omega) ended).symm⟩

/-- When the loops end, `pmm_init` returns or panics. -/
theorem RunsThrough.pmmInit (runs : RunsThrough entries hhdm ram) :
    ∃ fuel result, MmdOS.pmmInit entries hhdm ram fuel = some result := by
  obtain ⟨fuel, highest, first, after, bitmap, visits, second, -, third⟩ := runs
  have highestEq : highestAddr entries fuel = some highest := by
    rw [highestAddr_eq_entryLoop]
    exact entryLoop_of_traced first
  have placed : placeBitmap entries hhdm (bitmapSize (highest.toNat / pageSize)) fuel =
      some (after, bitmap) := by
    rw [placeBitmap_eq_entryLoop]
    exact entryLoop_of_traced second
  refine ⟨fuel, ?_⟩
  by_cases isNull : bitmap = 0#64
  · refine ⟨.error .noSpaceForBitmap, ?_⟩
    rw [MmdOS.pmmInit, highestEq, Option.bind_eq_bind, Option.bind_some]
    dsimp only
    rw [placed, Option.bind_eq_bind, Option.bind_some]
    exact if_pos isNull
  · obtain ⟨cleared, ended⟩ := third isNull
    have lengthEq : after.length = entries.length :=
      entryLoop_invariant (fun acc => acc.1.length = entries.length) rfl
        (fun i acc _ same => (length_placeRound _ _ i acc).trans same) (entryLoop_of_traced second)
    have clearedEq := entryLoop_of_traced ended
    rw [← lengthEq] at clearedEq
    obtain ⟨pmm, booted, -⟩ := pmmInit_of_loops ram highestEq placed isNull
      (by rw [clearUsable_eq_entryLoop]; exact congrArg Option.join clearedEq)
    exact ⟨.ok pmm, booted⟩

/-- The loops go through the whole memory map exactly if their counters can count
it. -/
theorem pmmInit_loops_iff (entries : List MemmapEntry) (hhdm : Word) (ram : Nat → BitVec 8) :
    RunsThrough entries hhdm ram ↔ CountersSuffice entries hhdm :=
  ⟨RunsThrough.countersSuffice, CountersSuffice.runsThrough⟩

/-- With 256 entries not even the first loop ends. -/
theorem pmmInit_many_entries :
    (∀ fuel, highestAddr (List.replicate 256 ⟨0#64, 0#64, .reserved⟩) fuel = none) ∧
      ¬RunsThrough (List.replicate 256 ⟨0#64, 0#64, .reserved⟩) 0#64 fun _ => 0#8 := by
  constructor
  · intro fuel
    cases ended : highestAddr (List.replicate 256 ⟨0#64, 0#64, .reserved⟩) fuel with
    | none => rfl
    | some highest =>
        have countLe := (highestAddr_eq ended).1
        rw [List.length_replicate] at countLe
        omega
  · intro runs
    have countLe := runs.countersSuffice.1
    rw [List.length_replicate] at countLe
    omega

end Loops

end MmdOS
