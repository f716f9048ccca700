import MmdOS.PhysicalInit
import Mathlib.Data.List.Pairwise

/-!
# The free pages after `pmm_init`

On a memory map as the boot loader hands it over, the bitmap that `pmm_init`
builds marks as free exactly the pages of the usable entries, without those
that hold the bitmap itself.
-/

namespace MmdOS

variable {entries : List MemmapEntry} {fuel : Nat}

section Loops

variable {α : Type} {body : Nat → α → α × Bool} {entryCount fuel : Nat} {i : BitVec 8}
variable {acc result : α}

def visit (body : Nat → α → α × Bool) : List Nat → α → α
  | [], acc => acc
  | i :: rest, acc => if (body i acc).2 then (body i acc).1 else visit body rest (body i acc).1

theorem visit_cons_of_break {i : Nat} (round : body i acc = (result, true)) (rest : List Nat) :
    visit body (i :: rest) acc = result := by
  rw [visit, round, if_pos rfl]

theorem visit_cons_of_continue {i : Nat} (round : body i acc = (result, false))
    (rest : List Nat) : visit body (i :: rest) acc = visit body rest result := by
  rw [visit, round, if_neg Bool.false_ne_true]

/-- A loop without a `break` ends only if its counter can reach the number of
entries. -/
theorem entryLoop_count_le (noBreak : ∀ i acc, (body i acc).2 = false)
    (ended : entryLoop entryCount body fuel i acc = some result) : entryCount ≤ 255 := by
  induction fuel generalizing i acc with
  | zero => cases ended
  | succ fuel ih =>
      by_contra tooMany
      have inside : i.toNat < entryCount := by
        have := i.isLt
        omega
      rw [entryLoop, if_pos inside] at ended
      dsimp only at ended
      rw [noBreak, if_neg (by decide)] at ended
      exact tooMany (ih ended)

/-- With enough fuel a loop over at most 255 entries makes its rounds. -/
theorem entryLoop_of_fuel (countLe : entryCount ≤ 255) (enough : entryCount - i.toNat < fuel)
    (acc : α) :
    entryLoop entryCount body fuel i acc =
      some (visit body (List.range' i.toNat (entryCount - i.toNat)) acc) := by
  induction fuel generalizing i acc with
  | zero => omega
  | succ fuel ih =>
      rw [entryLoop]
      by_cases inside : i.toNat < entryCount
      · have next : (i + 1#8).toNat = i.toNat + 1 := by
          rw [BitVec.toNat_add]
          change (i.toNat + 1) % 256 = _
          omega
        have rounds : entryCount - i.toNat = entryCount - (i.toNat + 1) + 1 := by omega
        rw [if_pos inside]
        dsimp only
        rw [rounds, List.range'_succ, visit]
        by_cases stops : (body i.toNat acc).2 = true
        · rw [if_pos stops, if_pos stops]
        · rw [if_neg stops, if_neg stops, ih (by omega), next]
      · have rounds : entryCount - i.toNat = 0 := by omega
        rw [if_neg inside, rounds, List.range'_zero, visit]

theorem entryLoop_mono {more : Nat} (fuelLe : fuel ≤ more)
    (ended : entryLoop entryCount body fuel i acc = some result) :
    entryLoop entryCount body more i acc = some result := by
  induction fuel generalizing more i acc with
  | zero => cases ended
  | succ fuel ih =>
      cases more with
      | zero => omega
      | succ more =>
          rw [entryLoop] at ended ⊢
          by_cases inside : i.toNat < entryCount
          · rw [if_pos inside] at ended ⊢
            dsimp only at ended ⊢
            by_cases stops : (body i.toNat acc).2 = true
            · rwa [if_pos stops] at ended ⊢
            · rw [if_neg stops] at ended ⊢
              exact ih (by omega) ended
          · rwa [if_neg inside] at ended ⊢

theorem entryLoop_eq_visit (countLe : entryCount ≤ 255)
    (ended : entryLoop entryCount body fuel 0#8 acc = some result) :
    result = visit body (List.range' 0 entryCount) acc := by
  have more := entryLoop_mono (Nat.le_add_right fuel (entryCount + 1)) ended
  rw [entryLoop_of_fuel countLe (by simp only [BitVec.toNat_ofNat]; omega) acc,
    Option.some.injEq] at more
  exact more.symm

/-- The body of a loop that folds over the entries. -/
def foldRound {β : Type} (entries : List β) (step : α → β → α) (i : Nat) (acc : α) : α × Bool :=
  match entries[i]? with
  | some entry => (step acc entry, false)
  | none => (acc, false)

variable {β : Type} {entries : List β} {step : α → β → α}

theorem foldRound_no_break (i : Nat) (acc : α) : (foldRound entries step i acc).2 = false := by
  unfold foldRound
  split <;> rfl

theorem visit_foldRound (before rest : List β) (split : entries = before ++ rest) (acc : α) :
    visit (foldRound entries step) (List.range' before.length rest.length) acc =
      rest.foldl step acc := by
  induction rest generalizing before acc with
  | nil => rfl
  | cons entry rest ih =>
      have here : entries[before.length]? = some entry := by
        rw [split, List.getElem?_append_right le_rfl, Nat.sub_self]
        rfl
      have round : foldRound entries step before.length acc = (step acc entry, false) := by
        rw [foldRound, here]
      have later := ih (before ++ [entry]) (by simp [split]) (step acc entry)
      rw [List.length_append, List.length_singleton] at later
      rw [List.length_cons, List.range'_succ, visit_cons_of_continue round, later,
        List.foldl_cons]

theorem entryLoop_foldRound (countLe : entries.length ≤ 255)
    (ended : entryLoop entries.length (foldRound entries step) fuel 0#8 acc = some result) :
    result = entries.foldl step acc := by
  rw [entryLoop_eq_visit countLe ended]
  exact visit_foldRound [] entries rfl acc

theorem entryLoop_foldRound_of_fuel (countLe : entries.length ≤ 255)
    (enough : entries.length < fuel) (acc : α) :
    entryLoop entries.length (foldRound entries step) fuel 0#8 acc =
      some (entries.foldl step acc) := by
  rw [entryLoop_of_fuel countLe (by simp only [BitVec.toNat_ofNat]; omega)]
  exact congrArg some (visit_foldRound [] entries rfl acc)

end Loops

def MemmapEntry.Contains (entry : MemmapEntry) (page : Nat) : Prop :=
  entry.type = .usable ∧ entry.base.toNat ≤ page * pageSize ∧
    page * pageSize < entry.base.toNat + entry.length.toNat

instance (entry : MemmapEntry) (page : Nat) : Decidable (entry.Contains page) :=
  inferInstanceAs (Decidable (_ ∧ _))

/-- Usable entries consist of whole pages, do not overlap and do not wrap. -/
structure WholePages (entries : List MemmapEntry) : Prop where
  aligned : ∀ entry ∈ entries, entry.type = .usable →
    entry.base.toNat % pageSize = 0 ∧ entry.length.toNat % pageSize = 0
  fits : ∀ entry ∈ entries, entry.type = .usable →
    entry.base.toNat + entry.length.toNat < 2 ^ 64
  disjoint : entries.Pairwise fun entry other =>
    ∀ page, entry.Contains page → ¬other.Contains page

/-- What the boot loader guarantees: usable entries consist of whole pages, do
not overlap, and do not contain the page zero. -/
structure LimineMap (entries : List MemmapEntry) : Prop extends WholePages entries where
  first : ∀ entry ∈ entries, entry.type = .usable → pageSize ≤ entry.base.toNat

def usableEnd (entries : List MemmapEntry) : Nat :=
  entries.foldl
    (fun highest entry =>
      if entry.type = .usable then max highest (entry.base.toNat + entry.length.toNat)
      else highest)
    0

def mapTop (entries : List MemmapEntry) : Nat :=
  usableEnd entries / pageSize

def bitmapHome (entries : List MemmapEntry) (size : Word) : Option MemmapEntry :=
  entries.find? fun entry => entry.type = .usable ∧ size ≤ entry.length

def InBitmap (entries : List MemmapEntry) (page : Nat) : Prop :=
  ∃ home ∈ bitmapHome entries (bitmapSize (mapTop entries)), home.base.toNat ≤ page * pageSize ∧
    page * pageSize < home.base.toNat + (bitmapSize (mapTop entries)).toNat

instance (entries : List MemmapEntry) (page : Nat) : Decidable (InBitmap entries page) :=
  inferInstanceAs (Decidable (∃ home ∈ bitmapHome entries _, _ ∧ _))

def allocatable (entries : List MemmapEntry) : Finset Nat :=
  (Finset.range (mapTop entries)).filter fun page =>
    (∃ entry ∈ entries, entry.Contains page) ∧ ¬InBitmap entries page

def maxEnd (highest : Word) (entry : MemmapEntry) : Word :=
  if entry.type = .usable then
    if entry.base + entry.length < highest then highest else entry.base + entry.length
  else highest

theorem highestAddr_eq_entryLoop (entries : List MemmapEntry) (fuel : Nat) :
    highestAddr entries fuel =
      entryLoop entries.length (foldRound entries maxEnd) fuel 0#8 0#64 := by
  rw [highestAddr]
  congr 1
  funext i highest
  cases found : entries[i]? with
  | none => simp [foldRound, found]
  | some entry =>
      rcases entry with ⟨base, length, type⟩
      cases type <;> simp [foldRound, found, maxEnd]

theorem highestAddr_eq {highest : Word} (ended : highestAddr entries fuel = some highest) :
    entries.length ≤ 255 ∧ highest = entries.foldl maxEnd 0#64 := by
  rw [highestAddr_eq_entryLoop] at ended
  have countLe := entryLoop_count_le foldRound_no_break ended
  exact ⟨countLe, entryLoop_foldRound countLe ended⟩

/-- The highest end of a usable entry as `pmm_init` computes it: an entry that
reaches beyond the last address ends where the sum wraps to. -/
def highestEnd (entries : List MemmapEntry) : Nat :=
  entries.foldl
    (fun highest entry =>
      if entry.type = .usable then max highest (entry.base + entry.length).toNat else highest)
    0

theorem toNat_foldl_maxEnd (entries : List MemmapEntry) (highest : Word) :
    (entries.foldl maxEnd highest).toNat = entries.foldl
      (fun highest entry =>
        if entry.type = .usable then max highest (entry.base + entry.length).toNat else highest)
      highest.toNat := by
  induction entries generalizing highest with
  | nil => rfl
  | cons entry entries ih =>
      rw [List.foldl_cons, List.foldl_cons, ih]
      congr 1
      rw [maxEnd]
      by_cases isUsable : entry.type = .usable
      · rw [if_pos isUsable, if_pos isUsable]
        by_cases below : entry.base + entry.length < highest
        · rw [if_pos below]
          rw [BitVec.lt_def] at below
          omega
        · rw [if_neg below]
          rw [BitVec.lt_def] at below
          omega
      · rw [if_neg isUsable, if_neg isUsable]

theorem highestEnd_eq_usableEnd (fits : ∀ entry ∈ entries, entry.type = .usable →
      entry.base.toNat + entry.length.toNat < 2 ^ 64) :
    highestEnd entries = usableEnd entries := by
  refine List.foldl_ext _ _ _ fun highest entry member => ?_
  by_cases isUsable : entry.type = .usable
  · rw [if_pos isUsable, if_pos isUsable, BitVec.toNat_add,
      Nat.mod_eq_of_lt (fits entry member isUsable)]
  · rw [if_neg isUsable, if_neg isUsable]

def MemmapEntry.shrink (entry : MemmapEntry) (size : Word) : MemmapEntry :=
  ⟨entry.base + size, entry.length - size, .usable⟩

theorem bitmapHome_cons (entry : MemmapEntry) (rest : List MemmapEntry) (size : Word) :
    bitmapHome (entry :: rest) size =
      if entry.type = .usable ∧ size ≤ entry.length then some entry else bitmapHome rest size := by
  rw [bitmapHome, List.find?_cons]
  by_cases longEnough : entry.type = .usable ∧ size ≤ entry.length
  · rw [if_pos longEnough, decide_eq_true longEnough]
  · rw [if_neg longEnough, decide_eq_false longEnough]
    rfl

def withoutBitmap (size : Word) : List MemmapEntry → List MemmapEntry
  | [] => []
  | entry :: rest =>
      if entry.type = .usable ∧ size ≤ entry.length then entry.shrink size :: rest
      else entry :: withoutBitmap size rest

def placeRound (hhdm size : Word) (i : Nat) (acc : List MemmapEntry × Word) :
    (List MemmapEntry × Word) × Bool :=
  match acc.1[i]? with
  | some entry =>
      if entry.type = .usable ∧ size ≤ entry.length then
        ((acc.1.set i (entry.shrink size), entry.base + hhdm), true)
      else (acc, false)
  | none => (acc, false)

theorem placeBitmap_eq_entryLoop (entries : List MemmapEntry) (hhdm size : Word) (fuel : Nat) :
    placeBitmap entries hhdm size fuel =
      entryLoop entries.length (placeRound hhdm size) fuel 0#8 (entries, 0#64) := by
  rw [placeBitmap]
  congr 1
  funext i ⟨current, bitmap⟩
  cases found : current[i]? with
  | none => simp [placeRound, found]
  | some entry =>
      rcases entry with ⟨base, length, type⟩
      cases type <;> simp [placeRound, found, MemmapEntry.shrink]

/-- The second loop from some entry on: it leaves the entries alone until it
has found one that is long enough. -/
theorem visit_placeRound (hhdm size : Word) (before rest : List MemmapEntry)
    (split : entries = before ++ rest) :
    (bitmapHome rest size = none ∧ visit (placeRound hhdm size)
      (List.range' before.length rest.length) (entries, 0#64) = (entries, 0#64)) ∨
    ∃ middle home tail, rest = middle ++ home :: tail ∧ bitmapHome rest size = some home ∧
      home.type = .usable ∧ size ≤ home.length ∧
      withoutBitmap size rest = middle ++ home.shrink size :: tail ∧
      visit (placeRound hhdm size) (List.range' before.length rest.length) (entries, 0#64) =
        (before ++ middle ++ home.shrink size :: tail, home.base + hhdm) := by
  induction rest generalizing before with
  | nil => exact .inl ⟨rfl, rfl⟩
  | cons entry rest ih =>
      have here : entries[before.length]? = some entry := by
        rw [split, List.getElem?_append_right le_rfl, Nat.sub_self]
        rfl
      have round : placeRound hhdm size before.length (entries, 0#64) =
          if entry.type = .usable ∧ size ≤ entry.length then
            ((entries.set before.length (entry.shrink size), entry.base + hhdm), true)
          else ((entries, 0#64), false) := by
        simp [placeRound, here]
      rw [List.length_cons, List.range'_succ, bitmapHome_cons]
      by_cases longEnough : entry.type = .usable ∧ size ≤ entry.length
      · right
        rw [if_pos longEnough] at round ⊢
        rw [visit_cons_of_break round]
        refine ⟨[], entry, rest, rfl, rfl, longEnough.1, longEnough.2, if_pos longEnough, ?_⟩
        rw [split, List.set_append_right _ _ le_rfl, Nat.sub_self, List.append_nil]
        rfl
      · rw [if_neg longEnough] at round ⊢
        rw [visit_cons_of_continue round]
        have later := ih (before ++ [entry]) (by rw [split, List.append_assoc]; rfl)
        rw [List.length_append, List.length_singleton] at later
        rcases later with ⟨noHome, same⟩ |
          ⟨middle, home, tail, restEq, homeEq, isUsable, sizeLe, without, visited⟩
        · exact .inl ⟨noHome, same⟩
        · refine .inr ⟨entry :: middle, home, tail, by rw [restEq]; rfl, homeEq, isUsable, sizeLe,
            ?_, ?_⟩
          · rw [withoutBitmap, if_neg longEnough, without, List.cons_append]
          · rwa [List.append_assoc before [entry]] at visited

/-- The second loop cuts the bitmap out of the first entry that is long
enough. -/
theorem placeBitmap_eq {after : List MemmapEntry} {hhdm size bitmap : Word}
    (countLe : entries.length ≤ 255)
    (ended : placeBitmap entries hhdm size fuel = some (after, bitmap)) :
    (bitmapHome entries size = none ∧ bitmap = 0#64) ∨
    ∃ before home rest, bitmapHome entries size = some home ∧ home.type = .usable ∧
      size ≤ home.length ∧ entries = before ++ home :: rest ∧
      after = before ++ home.shrink size :: rest := by
  rw [placeBitmap_eq_entryLoop] at ended
  have visited := entryLoop_eq_visit countLe ended
  rcases visit_placeRound hhdm size [] entries rfl with
    ⟨noHome, same⟩ | ⟨before, home, rest, split, homeEq, isUsable, sizeLe, -, result⟩
  · have resultEq := visited.trans same
    rw [Prod.mk.injEq] at resultEq
    exact .inl ⟨noHome, resultEq.2⟩
  · have resultEq := visited.trans result
    rw [Prod.mk.injEq] at resultEq
    exact .inr ⟨before, home, rest, homeEq, isUsable, sizeLe, split, resultEq.1⟩

def clearEntry (bitmap : Option Bitmap) (entry : MemmapEntry) : Option Bitmap :=
  if entry.type = .usable then
    bitmap.bind fun bitmap => (pageRounds entry.length).map (bitmapClearRange bitmap entry.base)
  else bitmap

theorem clearUsable_eq_entryLoop (entries : List MemmapEntry) (bitmap : Bitmap) (fuel : Nat) :
    clearUsable entries bitmap fuel = Option.join
      (entryLoop entries.length (foldRound entries clearEntry) fuel 0#8 (some bitmap)) := by
  rw [clearUsable]
  congr 2
  funext i bitmap
  cases found : entries[i]? with
  | none => simp [foldRound, found]
  | some entry =>
      rcases entry with ⟨base, length, type⟩
      cases type <;> simp [foldRound, found, clearEntry]

theorem clearUsable_eq {bitmap cleared : Bitmap} (countLe : entries.length ≤ 255)
    (ended : clearUsable entries bitmap fuel = some cleared) :
    entries.foldl clearEntry (some bitmap) = some cleared := by
  rw [clearUsable_eq_entryLoop, Option.join_eq_some_iff] at ended
  exact (entryLoop_foldRound countLe ended).symm

theorem foldl_clearEntry_get {bitmap cleared : Bitmap}
    (aligned : ∀ entry ∈ entries, entry.type = .usable →
      entry.base.toNat % pageSize = 0 ∧ entry.length.toNat % pageSize = 0)
    (fits : ∀ entry ∈ entries, entry.type = .usable →
      entry.base.toNat + entry.length.toNat < 2 ^ 64)
    (ended : entries.foldl clearEntry (some bitmap) = some cleared) (page : Nat) :
    bitmapGet cleared page = true ↔
      bitmapGet bitmap page = true ∧ ∀ entry ∈ entries, ¬entry.Contains page := by
  induction entries generalizing bitmap with
  | nil =>
      rw [List.foldl_nil, Option.some.injEq] at ended
      rw [ended]
      simp
  | cons entry entries ih =>
      have later := fun bitmap => @ih bitmap
        (fun other member => aligned other (List.mem_cons_of_mem _ member))
        (fun other member => fits other (List.mem_cons_of_mem _ member))
      rw [List.foldl_cons, clearEntry] at ended
      rw [List.forall_mem_cons]
      by_cases isUsable : entry.type = .usable
      · obtain ⟨baseAligned, lengthAligned⟩ := aligned entry List.mem_cons_self isUsable
        have entryFits := fits entry List.mem_cons_self isUsable
        have rounds : pageRounds entry.length = some (entry.length.toNat / pageSize) := by
          rw [pageRounds, if_pos (by rw [pageSize] at *; omega)]
          rw [pageSize] at *
          congr 1
          omega
        have inside : (entry.base.toNat / pageSize ≤ page ∧
            page < entry.base.toNat / pageSize + entry.length.toNat / pageSize) ↔
              entry.Contains page := by
          rw [MemmapEntry.Contains, and_iff_right isUsable]
          rw [pageSize] at *
          omega
        rw [if_pos isUsable, Option.bind_some, rounds, Option.map_some] at ended
        rw [later _ ended, bitmapGet_bitmapClearRange _ _ (by rw [pageSize] at *; omega),
          Bool.and_eq_true, Bool.not_eq_true', decide_eq_false_iff_not, inside, and_assoc,
          and_left_comm]
      · have outside : ¬entry.Contains page := fun contains => isUsable contains.1
        rw [if_neg isUsable] at ended
        rw [later _ ended, and_iff_right outside]

theorem bitmapSize_aligned (top : Nat) : (bitmapSize top).toNat % pageSize = 0 := by
  rw [bitmapSize, alignUp_page]
  split
  · exact Nat.mul_mod_left _ _
  · rfl

section Exact

variable {entries after : List MemmapEntry} {before rest : List MemmapEntry} {home : MemmapEntry}
variable {size : Word}

theorem usableEnd_ge (entry : MemmapEntry) (member : entry ∈ entries)
    (isUsable : entry.type = .usable) :
    entry.base.toNat + entry.length.toNat ≤ usableEnd entries := by
  have monotone : ∀ (entries : List MemmapEntry) (highest : Nat), highest ≤ entries.foldl
      (fun highest entry =>
        if entry.type = .usable then max highest (entry.base.toNat + entry.length.toNat)
        else highest) highest := by
    intro entries
    induction entries with
    | nil => exact fun highest => le_rfl
    | cons entry entries ih =>
        intro highest
        rw [List.foldl_cons]
        refine le_trans ?_ (ih _)
        split <;> omega
  rw [usableEnd]
  generalize 0 = start
  induction entries generalizing start with
  | nil => cases member
  | cons first entries ih =>
      rw [List.foldl_cons]
      rcases List.mem_cons.mp member with rfl | inRest
      · refine le_trans ?_ (monotone entries _)
        rw [if_pos isUsable]
        omega
      · exact ih inRest _

theorem MemmapEntry.shrink_toNat (sizeLe : size ≤ home.length)
    (fits : home.base.toNat + home.length.toNat < 2 ^ 64) :
    (home.shrink size).base.toNat = home.base.toNat + size.toNat ∧
      (home.shrink size).length.toNat = home.length.toNat - size.toNat := by
  rw [BitVec.le_def] at sizeLe
  rw [shrink, BitVec.toNat_add, BitVec.toNat_sub]
  omega

theorem contains_shrink_iff (whole : WholePages (before ++ home :: rest))
    (isUsable : home.type = .usable) (sizeLe : size ≤ home.length) (page : Nat) :
    (∃ entry ∈ before ++ home.shrink size :: rest, entry.Contains page) ↔
      (∃ entry ∈ before ++ home :: rest, entry.Contains page) ∧
        ¬(home.base.toNat ≤ page * pageSize ∧
          page * pageSize < home.base.toNat + size.toNat) := by
  have homeFits := whole.fits home (by simp) isUsable
  obtain ⟨baseEq, lengthEq⟩ := MemmapEntry.shrink_toNat sizeLe homeFits
  have sizeLe' : size.toNat ≤ home.length.toNat := sizeLe
  have shrunk : (home.shrink size).Contains page ↔ home.Contains page ∧
      ¬(home.base.toNat ≤ page * pageSize ∧ page * pageSize < home.base.toNat + size.toNat) := by
    have shrunkUsable : (home.shrink size).type = .usable := rfl
    rw [MemmapEntry.Contains, MemmapEntry.Contains, baseEq, lengthEq, and_iff_right isUsable,
      and_iff_right shrunkUsable]
    omega
  have others : ∀ entry ∈ before ++ rest, entry.Contains page →
      ¬(home.base.toNat ≤ page * pageSize ∧ page * pageSize < home.base.toNat + size.toNat) := by
    intro entry member contains inBitmap
    have homeContains : home.Contains page := ⟨isUsable, inBitmap.1, by omega⟩
    obtain ⟨-, restPairs, cross⟩ := List.pairwise_append.mp whole.disjoint
    rcases List.mem_append.mp member with inBefore | inRest
    · exact cross entry inBefore home List.mem_cons_self page contains homeContains
    · exact (List.pairwise_cons.mp restPairs).1 entry inRest page homeContains contains
  simp only [List.mem_append, List.mem_cons]
  constructor
  · rintro ⟨entry, inBefore | rfl | inRest, contains⟩
    · exact ⟨⟨entry, .inl inBefore, contains⟩,
        others entry (List.mem_append_left _ inBefore) contains⟩
    · exact ⟨⟨home, .inr (.inl rfl), (shrunk.mp contains).1⟩, (shrunk.mp contains).2⟩
    · exact ⟨⟨entry, .inr (.inr inRest), contains⟩,
        others entry (List.mem_append_right _ inRest) contains⟩
  · rintro ⟨⟨entry, inBefore | rfl | inRest, contains⟩, outside⟩
    · exact ⟨entry, .inl inBefore, contains⟩
    · exact ⟨_, .inr (.inl rfl), shrunk.mpr ⟨contains, outside⟩⟩
    · exact ⟨entry, .inr (.inr inRest), contains⟩

theorem WholePages.shrunk (whole : WholePages (before ++ home :: rest))
    (isUsable : home.type = .usable) (sizeLe : size ≤ home.length)
    (sizeAligned : size.toNat % pageSize = 0) {entry : MemmapEntry}
    (member : entry ∈ before ++ home.shrink size :: rest) (usable : entry.type = .usable) :
    (entry.base.toNat % pageSize = 0 ∧ entry.length.toNat % pageSize = 0) ∧
      entry.base.toNat + entry.length.toNat < 2 ^ 64 := by
  have isHome : home ∈ before ++ home :: rest := by simp
  rcases List.mem_append.mp member with inBefore | inRest
  · have inMap := List.mem_append_left (home :: rest) inBefore
    exact ⟨whole.aligned entry inMap usable, whole.fits entry inMap usable⟩
  · rcases List.mem_cons.mp inRest with rfl | inRest
    · have homeFits := whole.fits home isHome isUsable
      obtain ⟨baseEq, lengthEq⟩ := MemmapEntry.shrink_toNat sizeLe homeFits
      obtain ⟨baseAligned, lengthAligned⟩ := whole.aligned home isHome isUsable
      have sizeLe' : size.toNat ≤ home.length.toNat := sizeLe
      rw [baseEq, lengthEq]
      rw [pageSize] at *
      omega
    · have inMap := List.mem_append_right before (List.mem_cons_of_mem home inRest)
      exact ⟨whole.aligned entry inMap usable, whole.fits entry inMap usable⟩

end Exact

/-- The state that `pmm_init` sets up, on a map whose bitmap has a bit for every
page. -/
structure Pmm.Initial (entries : List MemmapEntry) (pmm : Pmm) : Prop where
  top_eq : pmm.bitmapTopIndex = mapTop entries
  prev_eq : pmm.bitmapPrevIndex = 0
  top_pos : 1 ≤ pmm.bitmapTopIndex
  zero_used : ¬pmm.Free 0
  free_eq : pmm.freeSet = allocatable entries

section Init

variable {entries : List MemmapEntry} {hhdm : Word} {ram : Nat → BitVec 8} {fuel : Nat} {pmm : Pmm}

/-- The top index is the number of whole pages below the highest usable end. -/
theorem pmmInit_top (booted : pmmInit entries hhdm ram fuel = some (.ok pmm)) :
    entries.length ≤ 255 ∧ pmm.bitmapTopIndex = highestEnd entries / pageSize := by
  obtain ⟨highest, after, bitmap, highestEq, -, -, topEq, -, -⟩ := pmmInit_eq_ok booted
  obtain ⟨countLe, rfl⟩ := highestAddr_eq highestEq
  rw [toNat_foldl_maxEnd] at topEq
  exact ⟨countLe, topEq⟩

/-- The page has a bit among the bytes reserved for the bitmap unless it is one
of up to seven pages behind the last whole page of bitmap. -/
theorem bitmapSize_covers_iff {top : Nat} (topLt : top < 2 ^ 52) :
    (∀ page < top, page / 8 < (bitmapSize top).toNat) ↔ top % 32768 = 0 ∨ 8 ≤ top % 32768 := by
  have value : (BitVec.ofNat 64 (top / 8)).toNat = top / 8 := by
    rw [BitVec.toNat_ofNat]
    omega
  rw [bitmapSize, alignUp_page, value, if_pos (by rw [pageSize]; omega), pageSize]
  constructor
  · intro covers
    by_contra neither
    have := covers (top - 1) (by omega)
    omega
  · intro sized page pageLt
    omega

/-- The bytes reserved for the bitmap have a bit for every page below the top
index exactly when the number of whole pages below the highest usable end does
not exceed a multiple of 32768 by one to seven. -/
theorem bitmap_covers_iff (booted : pmmInit entries hhdm ram fuel = some (.ok pmm)) :
    (∀ page < pmm.bitmapTopIndex, page / 8 < (bitmapSize pmm.bitmapTopIndex).toNat) ↔
      highestEnd entries / 4096 % 32768 = 0 ∨ 8 ≤ highestEnd entries / 4096 % 32768 := by
  have topLt := pmm.topIndex_lt
  rw [bitmapSize_covers_iff topLt, (pmmInit_top booted).2, pageSize]

theorem pmmInit_free (whole : WholePages entries)
    (sized : mapTop entries ≤ 8 * (bitmapSize (mapTop entries)).toNat)
    (booted : pmmInit entries hhdm ram fuel = some (.ok pmm)) :
    pmm.bitmapTopIndex = mapTop entries ∧ ∀ page < mapTop entries, pmm.Free page ↔
      (∃ entry ∈ entries, entry.Contains page) ∧ ¬InBitmap entries page := by
  obtain ⟨highest, after, bitmap, -, placed, clearedEq, -, prevEq, nonNull⟩ :=
    pmmInit_eq_ok booted
  obtain ⟨countLe, topEq⟩ := pmmInit_top booted
  rw [highestEnd_eq_usableEnd whole.fits] at topEq
  change pmm.bitmapTopIndex = mapTop entries at topEq
  rw [topEq] at placed clearedEq
  refine ⟨topEq, ?_⟩
  rcases placeBitmap_eq countLe placed with ⟨-, isNull⟩ |
    ⟨before, home, rest, homeEq, isUsable, sizeLe, rfl, rfl⟩
  · exact absurd isNull nonNull
  have countLe' : (before ++ home.shrink (bitmapSize (mapTop (before ++ home :: rest))) ::
      rest).length ≤ 255 := by
    simpa using countLe
  have sizeAligned := bitmapSize_aligned (mapTop (before ++ home :: rest))
  have get := foldl_clearEntry_get
    (fun entry member usable => (whole.shrunk isUsable sizeLe sizeAligned member usable).1)
    (fun entry member usable => (whole.shrunk isUsable sizeLe sizeAligned member usable).2)
    (clearUsable_eq countLe' clearedEq)
  intro page pageLt
  have marked : bitmapGet (fun byte =>
      if byte < (bitmapSize (mapTop (before ++ home :: rest))).toNat then 0xff#8
      else ram ((bitmap - hhdm).toNat + byte)) page = true := by
    have bitLt : page % 8 < 8 := Nat.mod_lt _ (by decide)
    have allOnes : (0xff#8) = BitVec.allOnes 8 := rfl
    rw [bitmapGet_eq_getLsbD, if_pos (by omega), allOnes, BitVec.getLsbD_allOnes,
      decide_eq_true bitLt]
  have inBitmap : InBitmap (before ++ home :: rest) page ↔
      home.base.toNat ≤ page * pageSize ∧ page * pageSize <
        home.base.toNat + (bitmapSize (mapTop (before ++ home :: rest))).toNat := by
    rw [InBitmap, homeEq]
    simp
  rw [inBitmap, ← contains_shrink_iff whole isUsable sizeLe, Pmm.Free, ← Bool.not_eq_true,
    get, and_iff_right marked]
  push Not
  rfl

/-- The third loop ends unless an entry reaches into the last page. -/
theorem foldl_clearEntry_some {entries : List MemmapEntry} (bitmap : Bitmap)
    (short : ∀ entry ∈ entries, entry.type = .usable → entry.length.toNat ≤ 2 ^ 64 - pageSize) :
    ∃ cleared, entries.foldl clearEntry (some bitmap) = some cleared := by
  induction entries generalizing bitmap with
  | nil => exact ⟨bitmap, rfl⟩
  | cons entry entries ih =>
      have later := fun bitmap => ih bitmap fun other member =>
        short other (List.mem_cons_of_mem _ member)
      rw [List.foldl_cons, clearEntry]
      by_cases isUsable : entry.type = .usable
      · rw [if_pos isUsable, Option.bind_some, pageRounds,
          if_pos (short entry List.mem_cons_self isUsable), Option.map_some]
        exact later _
      · rw [if_neg isUsable]
        exact later bitmap

theorem pmmInit_returns (whole : WholePages entries) (countLe : entries.length ≤ 255)
    {home : MemmapEntry} (homeEq : bitmapHome entries (bitmapSize (mapTop entries)) = some home)
    (nonNull : home.base + hhdm ≠ 0#64) (enough : entries.length < fuel) :
    ∃ pmm, pmmInit entries hhdm ram fuel = some (.ok pmm) := by
  have highestEq : highestAddr entries fuel = some (entries.foldl maxEnd 0#64) := by
    rw [highestAddr_eq_entryLoop]
    exact entryLoop_foldRound_of_fuel countLe enough 0#64
  have topEq : (entries.foldl maxEnd 0#64).toNat / pageSize = mapTop entries := by
    rw [toNat_foldl_maxEnd]
    exact congrArg (· / pageSize) (highestEnd_eq_usableEnd whole.fits)
  have fuelLt : entries.length - (0#8).toNat < fuel := by
    simp only [BitVec.toNat_ofNat]
    omega
  rcases visit_placeRound hhdm (bitmapSize (mapTop entries)) [] entries rfl with
    ⟨noHome, -⟩ | ⟨before, found, rest, split, foundEq, isUsable, sizeLe, -, visited⟩
  · rw [homeEq] at noHome
    cases noHome
  rw [homeEq] at foundEq
  cases foundEq
  let after := before ++ home.shrink (bitmapSize (mapTop entries)) :: rest
  have placed : placeBitmap entries hhdm (bitmapSize (mapTop entries)) fuel =
      some (after, home.base + hhdm) := by
    rw [placeBitmap_eq_entryLoop, entryLoop_of_fuel countLe fuelLt]
    exact congrArg some visited
  have lengthEq : after.length = entries.length := by
    rw [split, List.length_append, List.length_append, List.length_cons, List.length_cons]
  have short : ∀ entry ∈ after, entry.type = .usable →
      entry.length.toNat ≤ 2 ^ 64 - pageSize := by
    intro entry member usable
    obtain ⟨⟨-, aligned⟩, fits⟩ := (split ▸ whole).shrunk isUsable sizeLe
      (bitmapSize_aligned _) member usable
    rw [pageSize] at *
    omega
  have clearedEq : ∀ bytes, ∃ cleared, clearUsable after bytes fuel = some cleared := by
    intro bytes
    obtain ⟨cleared, foldEq⟩ := foldl_clearEntry_some bytes short
    refine ⟨cleared, ?_⟩
    rw [clearUsable_eq_entryLoop, entryLoop_foldRound_of_fuel (by omega) (by omega), foldEq]
    rfl
  rw [← topEq] at placed
  obtain ⟨cleared, cleared_eq⟩ := clearedEq _
  obtain ⟨pmm, booted, -⟩ := pmmInit_of_loops ram highestEq placed nonNull cleared_eq
  exact ⟨pmm, booted⟩

/-- On a map of at most 255 entries, `pmm_init` returns unless the bitmap falls
on the null pointer.  Where the bitmap has a bit for every page, it then marks
as free exactly the pages of usable entries outside the bitmap. -/
theorem initial_bitmap_exact (countLe : entries.length ≤ 255) (whole : WholePages entries)
    (sized : mapTop entries ≤ 8 * (bitmapSize (mapTop entries)).toNat)
    (room : ∃ entry ∈ entries, entry.type = .usable ∧
      bitmapSize (mapTop entries) ≤ entry.length) :
    (∃ home, bitmapHome entries (bitmapSize (mapTop entries)) = some home ∧
      (home.base + hhdm ≠ 0#64 → ∀ fuel, entries.length < fuel →
        ∃ pmm, pmmInit entries hhdm ram fuel = some (.ok pmm))) ∧
    ∀ fuel pmm, pmmInit entries hhdm ram fuel = some (.ok pmm) →
      pmm.bitmapTopIndex = mapTop entries ∧ ∀ page < pmm.bitmapTopIndex, pmm.Free page ↔
        (∃ entry ∈ entries, entry.Contains page) ∧ ¬InBitmap entries page := by
  constructor
  · obtain ⟨entry, member, longEnough⟩ := room
    have found : (bitmapHome entries (bitmapSize (mapTop entries))).isSome = true := by
      rw [bitmapHome, List.find?_isSome]
      exact ⟨entry, member, decide_eq_true longEnough⟩
    obtain ⟨home, homeEq⟩ := Option.isSome_iff_exists.mp found
    exact ⟨home, homeEq, fun nonNull fuel enough =>
      pmmInit_returns whole countLe homeEq nonNull enough⟩
  · intro fuel pmm booted
    obtain ⟨topEq, free⟩ := pmmInit_free whole sized booted
    rw [topEq]
    exact ⟨rfl, free⟩

theorem pmmInit_initial (limine : LimineMap entries)
    (sized : mapTop entries ≤ 8 * (bitmapSize (mapTop entries)).toNat)
    (booted : pmmInit entries hhdm ram fuel = some (.ok pmm)) : pmm.Initial entries := by
  obtain ⟨topEq, free⟩ := pmmInit_free limine.toWholePages sized booted
  obtain ⟨highest, after, bitmap, -, placed, -, -, prevEq, nonNull⟩ := pmmInit_eq_ok booted
  have topPos : 1 ≤ pmm.bitmapTopIndex := by
    rcases placeBitmap_eq (pmmInit_top booted).1 placed with ⟨-, isNull⟩ |
      ⟨before, home, rest, -, isUsable, -, rfl, -⟩
    · exact absurd isNull nonNull
    · have isHome : home ∈ before ++ home :: rest := by simp
      have homeFirst := limine.first home isHome isUsable
      have homeEnd := usableEnd_ge home isHome isUsable
      rw [topEq, mapTop]
      rw [pageSize] at *
      omega
  refine ⟨topEq, prevEq, topPos, ?_, ?_⟩
  · rw [free 0 (by omega)]
    rintro ⟨⟨entry, member, isUsable, below, -⟩, -⟩
    have := limine.first entry member isUsable
    rw [pageSize] at *
    omega
  · ext page
    rw [Pmm.mem_freeSet, topEq, allocatable, Finset.mem_filter, Finset.mem_range]
    constructor
    · rintro ⟨pageLt, isFree⟩
      exact ⟨pageLt, (free page pageLt).mp isFree⟩
    · rintro ⟨pageLt, contained⟩
      exact ⟨pageLt, (free page pageLt).mpr contained⟩

end Init

theorem machineMap_limine : LimineMap machineMap := by
  refine ⟨⟨by decide, by decide, ?_⟩, by decide⟩
  simp only [machineMap, List.pairwise_cons, List.mem_cons, List.not_mem_nil,
    MemmapEntry.Contains]
  simp

theorem machineMap_returns : ∃ pmm,
    pmmInit machineMap machineHhdm (fun _ => 0#8) 4 = some (.ok pmm) :=
  pmmInit_returns machineMap_limine.toWholePages (by decide)
    (by decide : bitmapHome machineMap (bitmapSize (mapTop machineMap)) =
      some ⟨0x100000#64, 0x7f00000#64, .usable⟩) (by decide) (by decide)

theorem bitmap_covers_iff_machine : ∃ pmm,
    pmmInit machineMap machineHhdm (fun _ => 0#8) 4 = some (.ok pmm) ∧
    ∀ page < pmm.bitmapTopIndex, page / 8 < (bitmapSize pmm.bitmapTopIndex).toNat := by
  obtain ⟨pmm, booted⟩ := machineMap_returns
  exact ⟨pmm, booted, (bitmap_covers_iff booted).mpr (.inl (by decide))⟩

theorem initial_bitmap_exact_machine : ∃ pmm,
    pmmInit machineMap machineHhdm (fun _ => 0#8) 4 = some (.ok pmm) ∧
    ¬pmm.Free 255 ∧ ¬pmm.Free 256 ∧ pmm.Free 257 := by
  obtain ⟨⟨home, homeEq, returns⟩, exact⟩ := @initial_bitmap_exact machineMap machineHhdm
    (fun _ => 0#8) (by decide) machineMap_limine.toWholePages (by decide)
    ⟨⟨0x100000#64, 0x7f00000#64, .usable⟩, by decide, rfl, by decide⟩
  have homeBase : bitmapHome machineMap (bitmapSize (mapTop machineMap)) =
      some ⟨0x100000#64, 0x7f00000#64, .usable⟩ := by decide
  rw [homeBase, Option.some.injEq] at homeEq
  obtain ⟨pmm, booted⟩ := returns (by rw [← homeEq]; decide) 4 (by decide)
  obtain ⟨topEq, free⟩ := exact 4 pmm booted
  have top : mapTop machineMap = 32768 := by decide
  rw [topEq, top] at free
  refine ⟨pmm, booted, ?_, ?_, ?_⟩
  · rw [free 255 (by decide)]
    decide
  · rw [free 256 (by decide)]
    decide
  · rw [free 257 (by decide)]
    decide

def oddMap : List MemmapEntry :=
  [⟨0#64, 0x100000#64, .reserved⟩, ⟨0x100000#64, 0x7f01000#64, .usable⟩]

theorem oddMap_wholePages : WholePages oddMap := by
  refine ⟨by decide, by decide, ?_⟩
  simp only [oddMap, List.pairwise_cons, List.mem_cons, List.not_mem_nil, MemmapEntry.Contains]
  simp

/-- The last page of this machine has no bit in the 4096 bytes of the bitmap. -/
theorem bitmap_too_short : ∃ pmm,
    pmmInit oddMap machineHhdm (fun _ => 0#8) 3 = some (.ok pmm) ∧
    32768 < pmm.bitmapTopIndex ∧ ¬32768 / 8 < (bitmapSize pmm.bitmapTopIndex).toNat := by
  obtain ⟨pmm, booted⟩ := @pmmInit_returns oddMap machineHhdm (fun _ => 0#8) 3 oddMap_wholePages
    (by decide) ⟨0x100000#64, 0x7f01000#64, .usable⟩ (by decide) (by decide) (by decide)
  have top : highestEnd oddMap / pageSize = 32769 := by decide
  refine ⟨pmm, booted, ?_, ?_⟩
  · rw [(pmmInit_top booted).2, top]
    decide
  · rw [(pmmInit_top booted).2, top]
    decide

end MmdOS
