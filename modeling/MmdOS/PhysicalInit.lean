import MmdOS.PhysicalFrames

/-!
# Building the page bitmap from the memory map

`pmm_init` sizes the bitmap by the highest usable address, places it at the
start of the first usable entry that is long enough, and unmarks the pages of
all usable entries.  Its loops count entries in a `uint8_t`, so they are given
fuel: with more than 255 entries they do not end.

The bitmap is kept as an array of its own.  That is how the kernel uses it as
long as the bytes reserved for it have a bit for every page.
-/

namespace MmdOS

variable {fuel : Nat} {hhdm : Word}
variable {base highest bitmap : Word} {count : Nat} {ram : Nat → BitVec 8} {pmm : Pmm}

inductive MemmapType
  | usable
  | reserved
  | acpiReclaimable
  | acpiNvs
  | badMemory
  | bootloaderReclaimable
  | kernelAndModules
  | framebuffer
  deriving DecidableEq

structure MemmapEntry where
  base : Word
  length : Word
  type : MemmapType
  deriving DecidableEq

/-- `for (uint8_t i = 0; i < entry_count; i++)`; the body reports whether it
has reached a `break`. -/
def entryLoop {α : Type} (entryCount : Nat) (body : Nat → α → α × Bool) :
    (fuel : Nat) → BitVec 8 → α → Option α
  | 0, _, _ => none
  | fuel + 1, i, acc =>
      if i.toNat < entryCount then
        let (acc, stop) := body i.toNat acc
        if stop then some acc else entryLoop entryCount body fuel (i + 1#8) acc
      else some acc

/-- The first loop: the end of the highest usable entry. -/
def highestAddr (entries : List MemmapEntry) (fuel : Nat) : Option Word :=
  entryLoop entries.length
    (fun i highest =>
      match entries[i]? with
      | some ⟨base, length, .usable⟩ =>
          (if base + length < highest then highest else base + length, false)
      | _ => (highest, false))
    fuel 0#8 0#64

def bitmapSize (bitmapTopIndex : Nat) : Word :=
  alignUp (BitVec.ofNat 64 (bitmapTopIndex / 8)) 4096#64

/-- The second loop: the memory map without the bytes of the bitmap, and the
bitmap's pointer, which stays null when no entry is long enough. -/
def placeBitmap (entries : List MemmapEntry) (hhdm size : Word) (fuel : Nat) :
    Option (List MemmapEntry × Word) :=
  entryLoop entries.length
    (fun i (entries, bitmap) =>
      match entries[i]? with
      | some ⟨base, length, .usable⟩ =>
          if size ≤ length then
            ((entries.set i ⟨base + size, length - size, .usable⟩, base + hhdm), true)
          else ((entries, bitmap), false)
      | _ => ((entries, bitmap), false))
    fuel 0#8 (entries, 0#64)

/-- `bitmap_clear` on `count` consecutive pages from the address `base` on. -/
def bitmapClearRange (bitmap : Bitmap) (base : Word) : Nat → Bitmap
  | 0 => bitmap
  | count + 1 =>
      bitmapClear (bitmapClearRange bitmap base count)
        ((base + BitVec.ofNat 64 (count * pageSize)).toNat / pageSize)

/-- The rounds of `for (uint64_t j = 0; j < length; j += PAGE_SIZE)`.  In the
last page below `2 ^ 64` the counter wraps and the loop does not end. -/
def pageRounds (length : Word) : Option Nat :=
  if length.toNat ≤ 2 ^ 64 - pageSize then some ((length.toNat + (pageSize - 1)) / pageSize)
  else none

/-- The third loop: unmark the usable pages. -/
def clearUsable (entries : List MemmapEntry) (bitmap : Bitmap) (fuel : Nat) : Option Bitmap :=
  Option.join <| entryLoop entries.length
    (fun i bitmap =>
      match entries[i]? with
      | some ⟨base, length, .usable⟩ =>
          (bitmap.bind fun bitmap => (pageRounds length).map (bitmapClearRange bitmap base), false)
      | _ => (bitmap, false))
    fuel 0#8 (some bitmap)

theorem pageOf_lt (address : Word) : address.toNat / pageSize < 2 ^ 52 := by
  have := address.isLt
  rw [pageSize]
  omega

/-- `pmm_init`.  The bytes behind the bitmap's own are whatever memory holds
there.  No result means that a loop does not end within the given fuel. -/
def pmmInit (entries : List MemmapEntry) (hhdm : Word) (ram : Nat → BitVec 8) (fuel : Nat) :
    Option (Except Panic Pmm) := do
  let highest ← highestAddr entries fuel
  let size := bitmapSize (highest.toNat / pageSize)
  let (entries, bitmap) ← placeBitmap entries hhdm size fuel
  if bitmap = 0#64 then some (.error .noSpaceForBitmap)
  else
    let bytes : Bitmap := fun byte =>
      if byte < size.toNat then 0xff#8 else ram ((bitmap - hhdm).toNat + byte)
    let cleared ← clearUsable entries bytes fuel
    some (.ok
      { bitmap := cleared
        bitmapTopIndex := highest.toNat / pageSize
        bitmapPrevIndex := 0
        topIndex_lt := pageOf_lt highest })

/-- What the body keeps holds at the end of the loop. -/
theorem entryLoop_invariant {α : Type} {entryCount : Nat} {body : Nat → α → α × Bool} {i : BitVec 8}
    {acc result : α} (Inv : α → Prop) (initial : Inv acc)
    (round : ∀ i acc, i < entryCount → Inv acc → Inv (body i acc).1)
    (ended : entryLoop entryCount body fuel i acc = some result) : Inv result := by
  induction fuel generalizing i acc with
  | zero => cases ended
  | succ fuel ih =>
      rw [entryLoop] at ended
      by_cases inside : i.toNat < entryCount
      · have next := round i.toNat acc inside initial
        rw [if_pos inside] at ended
        dsimp only at ended
        split at ended
        · rw [Option.some.injEq] at ended
          rwa [← ended]
        · exact ih next ended
      · rw [if_neg inside, Option.some.injEq] at ended
        rwa [← ended]

theorem page_of_offset (fits : base.toNat + count * pageSize < 2 ^ 64) :
    (base + BitVec.ofNat 64 (count * pageSize)).toNat / pageSize =
      base.toNat / pageSize + count := by
  have offsetLt : count * pageSize < 2 ^ 64 := by omega
  rw [BitVec.toNat_add, BitVec.toNat_ofNat, Nat.mod_eq_of_lt offsetLt, Nat.mod_eq_of_lt fits,
    Nat.add_mul_div_right _ _ (by decide : 0 < pageSize)]

theorem bitmapGet_bitmapClearRange (bitmap : Bitmap) (page : Nat)
    (fits : base.toNat + count * pageSize ≤ 2 ^ 64) :
    bitmapGet (bitmapClearRange bitmap base count) page =
      (!decide (base.toNat / pageSize ≤ page ∧ page < base.toNat / pageSize + count) &&
        bitmapGet bitmap page) := by
  induction count with
  | zero =>
      have nothing : ¬(base.toNat / pageSize ≤ page ∧ page < base.toNat / pageSize + 0) := by
        omega
      rw [bitmapClearRange, decide_eq_false nothing, Bool.not_false, Bool.true_and]
  | succ count ih =>
      have fitsBefore : base.toNat + count * pageSize < 2 ^ 64 := by
        rw [Nat.succ_mul] at fits
        have : 0 < pageSize := by decide
        omega
      rw [bitmapClearRange, bitmapGet_bitmapClear, page_of_offset fitsBefore, ih fitsBefore.le,
        ← Bool.and_assoc]
      congr 1
      rw [← Bool.not_or, ← Bool.decide_or]
      congr 1
      rw [decide_eq_decide]
      omega

/-- The usable memory lies in `[0x1000, 4 GiB)`. -/
def LowMemory (entries : List MemmapEntry) : Prop :=
  ∀ entry ∈ entries, entry.type = .usable →
    0x1000 ≤ entry.base.toNat ∧ entry.base.toNat + entry.length.toNat ≤ 2 ^ 32

variable {entries : List MemmapEntry}

theorem highestAddr_le (low : LowMemory entries) (ended : highestAddr entries fuel = some highest) :
    highest.toNat ≤ 2 ^ 32 := by
  refine entryLoop_invariant (fun highest => highest.toNat ≤ 2 ^ 32) (by decide) ?_ ended
  intro i acc _ accLe
  split
  · next base length found =>
    have bounds := low _ (List.mem_of_getElem? found) rfl
    dsimp only at bounds ⊢
    split
    · exact accLe
    · rw [BitVec.toNat_add]
      omega
  · exact accLe

theorem placeBitmap_low {after : List MemmapEntry} {size : Word} (low : LowMemory entries)
    (ended : placeBitmap entries hhdm size fuel = some (after, bitmap)) :
    LowMemory after := by
  refine entryLoop_invariant (fun acc => LowMemory acc.1) low ?_ ended
  rintro i ⟨entries, bitmap⟩ _ accLow
  dsimp only at accLow ⊢
  split
  · next base length found =>
    have bounds := accLow _ (List.mem_of_getElem? found) rfl
    split
    · next sizeLe =>
      intro entry member usable
      rcases List.mem_or_eq_of_mem_set member with old | rfl
      · exact accLow entry old usable
      · dsimp only at bounds ⊢
        have : size.toNat ≤ length.toNat := sizeLe
        rw [BitVec.toNat_add, BitVec.toNat_sub]
        omega
    · exact accLow
  · exact accLow

theorem clearUsable_zero {bitmap cleared : Bitmap} (low : LowMemory entries)
    (marked : bitmapGet bitmap 0 = true) (ended : clearUsable entries bitmap fuel = some cleared) :
    bitmapGet cleared 0 = true := by
  rw [clearUsable, Option.join_eq_some_iff] at ended
  refine entryLoop_invariant
    (fun acc => ∀ bitmap, acc = some bitmap → bitmapGet bitmap 0 = true) ?_ ?_ ended cleared rfl
  · intro start startEq
    rw [Option.some.injEq] at startEq
    rwa [← startEq]
  · intro i acc _ accMarked
    split
    · next base length found =>
      have bounds := low _ (List.mem_of_getElem? found) rfl
      intro after afterEq
      simp only [Option.bind_eq_some_iff, Option.map_eq_some_iff] at afterEq
      obtain ⟨before, beforeEq, rounds, roundsEq, rfl⟩ := afterEq
      have wasMarked := accMarked before beforeEq
      rw [pageRounds] at roundsEq
      split at roundsEq
      · rw [Option.some.injEq] at roundsEq
        dsimp only at bounds
        rw [bitmapGet_bitmapClearRange before 0 (by rw [← roundsEq, pageSize]; omega),
          wasMarked, Bool.and_true, Bool.not_eq_true', decide_eq_false_iff_not, pageSize]
        omega
      · cases roundsEq
    · exact accMarked

theorem pmmInit_eq_ok (booted : pmmInit entries hhdm ram fuel = some (.ok pmm)) :
    ∃ highest after bitmap, highestAddr entries fuel = some highest ∧
      placeBitmap entries hhdm (bitmapSize pmm.bitmapTopIndex) fuel = some (after, bitmap) ∧
      clearUsable after (fun byte =>
        if byte < (bitmapSize pmm.bitmapTopIndex).toNat then 0xff#8
        else ram ((bitmap - hhdm).toNat + byte)) fuel = some pmm.bitmap ∧
      pmm.bitmapTopIndex = highest.toNat / pageSize ∧ pmm.bitmapPrevIndex = 0 ∧
      bitmap ≠ 0#64 := by
  rw [pmmInit, Option.bind_eq_bind, Option.bind_eq_some_iff] at booted
  obtain ⟨highest, highestEq, booted⟩ := booted
  obtain ⟨⟨after, bitmap⟩, placed, booted⟩ := Option.bind_eq_some_iff.mp booted
  dsimp only at booted
  split at booted
  · cases booted
  · next nonNull =>
    obtain ⟨cleared, clearedEq, booted⟩ := Option.bind_eq_some_iff.mp booted
    cases booted
    exact ⟨highest, after, bitmap, highestEq, placed, clearedEq, rfl, rfl, nonNull⟩

theorem pmmInit_of_loops {after : List MemmapEntry} {cleared : Bitmap} (ram : Nat → BitVec 8)
    (highestEq : highestAddr entries fuel = some highest)
    (placed : placeBitmap entries hhdm (bitmapSize (highest.toNat / pageSize)) fuel =
      some (after, bitmap)) (nonNull : bitmap ≠ 0#64) (clearedEq : clearUsable after (fun byte =>
        if byte < (bitmapSize (highest.toNat / pageSize)).toNat then 0xff#8
        else ram ((bitmap - hhdm).toNat + byte)) fuel = some cleared) :
    ∃ pmm, pmmInit entries hhdm ram fuel = some (.ok pmm) ∧ pmm.bitmap = cleared ∧
      pmm.bitmapTopIndex = highest.toNat / pageSize ∧ pmm.bitmapPrevIndex = 0 := by
  rw [pmmInit, highestEq, Option.bind_eq_bind, Option.bind_some]
  dsimp only
  rw [placed, Option.bind_eq_bind, Option.bind_some]
  dsimp only
  rw [if_neg nonNull, clearedEq, Option.bind_eq_bind, Option.bind_some]
  exact ⟨_, rfl, rfl, rfl, rfl⟩

/-- On a machine with little memory, the allocator that `pmm_init` sets up is
valid and covered by the direct map. -/
theorem pmmInit_covered (low : LowMemory entries) (reach : hhdm.toNat + 2 ^ 32 ≤ 2 ^ 64)
    (booted : pmmInit entries hhdm ram fuel = some (.ok pmm)) (positive : 0 < pmm.bitmapTopIndex)
    (sized : pmm.bitmapTopIndex ≤ 8 * (bitmapSize pmm.bitmapTopIndex).toNat) :
    pmm.Covered hhdm ∧ pmm.bitmapTopIndex ≤ 2 ^ 20 := by
  obtain ⟨highest, after, bitmap, highestEq, placed, clearedEq, topEq, prevEq, -⟩ :=
    pmmInit_eq_ok booted
  have highestLe := highestAddr_le low highestEq
  have topLe : pmm.bitmapTopIndex ≤ 2 ^ 20 := by
    rw [topEq, pageSize]
    omega
  have zeroMarked := clearUsable_zero (placeBitmap_low low placed) (by
    rw [bitmapGet_eq_getLsbD, if_pos (by omega)]
    decide) clearedEq
  refine ⟨⟨⟨?_, by omega⟩, by omega, ?_⟩, topLe⟩
  · rw [Pmm.Free, zeroMarked]
    decide
  · rw [pageSize]
    omega

def machineMap : List MemmapEntry :=
  [⟨0#64, 0x100000#64, .reserved⟩, ⟨0x100000#64, 0x7f00000#64, .usable⟩,
    ⟨0x8000000#64, 0x3000#64, .kernelAndModules⟩]

def machineHhdm : Word := 0xffff800000000000#64

theorem machineMap_low : LowMemory machineMap := by
  intro entry member usable
  rcases List.mem_cons.mp member with rfl | member
  · cases usable
  · rcases List.mem_cons.mp member with rfl | member
    · decide
    · rw [List.mem_singleton.mp member] at usable
      cases usable

/-- The bitmap takes the page 256, and all later pages are free. -/
theorem machineMap_boots :
    ∃ pmm, pmmInit machineMap machineHhdm (fun _ => 0#8) 4 = some (.ok pmm) ∧
      pmm.bitmapTopIndex = 32768 ∧ ∀ page, 257 ≤ page → page < 32768 → pmm.Free page := by
  have highest : highestAddr machineMap 4 = some 0x8000000#64 := by decide
  have placed : placeBitmap machineMap machineHhdm (bitmapSize 32768) 4 =
      some ([⟨0#64, 0x100000#64, .reserved⟩, ⟨0x101000#64, 0x7eff000#64, .usable⟩,
        ⟨0x8000000#64, 0x3000#64, .kernelAndModules⟩], 0xffff800000100000#64) := by decide
  have rounds : pageRounds 0x7eff000#64 = some 32511 := by decide
  have cleared : ∀ bytes, clearUsable
      [⟨0#64, 0x100000#64, .reserved⟩, ⟨0x101000#64, 0x7eff000#64, .usable⟩,
        ⟨0x8000000#64, 0x3000#64, .kernelAndModules⟩] bytes 4 =
        some (bitmapClearRange bytes 0x101000#64 32511) := by
    intro bytes
    simp [clearUsable, entryLoop, rounds]
  obtain ⟨pmm, booted, bitmapEq, topEq, -⟩ :=
    pmmInit_of_loops (fun _ => 0#8) highest placed (by decide) (cleared _)
  refine ⟨pmm, booted, topEq, ?_⟩
  intro page pageGe pageLt
  rw [Pmm.Free, bitmapEq, bitmapGet_bitmapClearRange _ page (by decide)]
  have inside : (0x101000#64).toNat / pageSize ≤ page ∧
      page < (0x101000#64).toNat / pageSize + 32511 := ⟨pageGe, pageLt⟩
  rw [decide_eq_true inside, Bool.not_true, Bool.false_and]

end MmdOS
