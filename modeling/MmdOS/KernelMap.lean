import MmdOS.DirectMap

/-!
# The map that `vmm_init` establishes

Each section of the kernel gets its own permissions, the first four gigabytes
are mapped at their own addresses and through the direct map, and nothing else
is mapped.  The bounds of a section are rounded with wrapping arithmetic: a
section that reaches into the last page of the address space ends at zero
after the rounding, and none of its pages is mapped.
-/

namespace MmdOS

variable {hhdm : Word} {request : MapRequest}

section Translation

variable {σ : Type}

def vmmRoot (hhdm : Word) (state : MmState σ) (vmm : Word) : Nat :=
  (state.load hhdm (pmlField vmm) - hhdm).toNat / pageSize

def vmmPte (hhdm : Word) (state : MmState σ) (vmm virt : Word) : Word :=
  leafPte state.ram (vmmRoot hhdm state vmm) virt

theorem SpaceAt.vmmRoot_eq {source : FrameSource σ} {spec : FrameSpec hhdm source}
    {height : Nat → Option Nat} {state : MmState σ} {space : Space}
    (spaceAt : SpaceAt spec height state space) (tables : Tables spec height state) :
    vmmRoot hhdm state (space.vmm hhdm) = space.root := by
  have rootLt := (tables.direct spaceAt.root_height).2.1
  rw [vmmRoot, spaceAt.pml_eq, directPtr, BitVec.add_sub_cancel,
    pageAddress_toNat_div (by omega)]

end Translation

inductive KernelSection
  | text
  | rodata
  | data
  deriving DecidableEq

def KernelSection.flags : KernelSection → Word
  | text => ptePresent
  | rodata => ptePresent ||| pteNoExecute
  | data => ptePresent ||| pteWritable ||| pteNoExecute

def KernelSection.onFailure : KernelSection → Panic
  | text => .kernelText
  | rodata => .kernelRodata
  | data => .kernelData

def PageVirt (virt : Word) : Prop :=
  virt.toNat % pageSize = 0 ∧ (virt.toNat < 2 ^ 47 ∨ 2 ^ 64 - 2 ^ 47 ≤ virt.toNat)

def InLow (virt : Word) : Prop :=
  0x1000 ≤ virt.toNat ∧ virt.toNat < 2 ^ 32

def InDirect (hhdm virt : Word) : Prop :=
  hhdm.toNat + 0x1000 ≤ virt.toNat ∧ virt.toNat < hhdm.toNat + 2 ^ 32

instance (virt : Word) : Decidable (InLow virt) :=
  inferInstanceAs (Decidable (_ ∧ _))

instance (hhdm virt : Word) : Decidable (InDirect hhdm virt) :=
  inferInstanceAs (Decidable (_ ∧ _))

namespace KernelLayout

variable (layout : KernelLayout)

def first : KernelSection → Word
  | .text => layout.textStart
  | .rodata => layout.rodataStart
  | .data => layout.dataStart

def last : KernelSection → Word
  | .text => layout.textEnd
  | .rodata => layout.rodataEnd
  | .data => layout.dataEnd

/-- The pages of a section, with its bounds rounded outwards to whole pages. -/
def InSection (part : KernelSection) (virt : Word) : Prop :=
  (layout.first part).toNat / pageSize * pageSize ≤ virt.toNat ∧
    virt.toNat < ((layout.last part).toNat + (pageSize - 1)) / pageSize * pageSize

instance (part : KernelSection) (virt : Word) : Decidable (layout.InSection part virt) :=
  inferInstanceAs (Decidable (_ ∧ _))

def sectionEntry (part : KernelSection) (virt : Word) : Word :=
  (virt - layout.virtualBase + layout.physicalBase) ||| part.flags

def mapEntry (hhdm virt : Word) : Word :=
  if layout.InSection .text virt then layout.sectionEntry .text virt
  else if layout.InSection .rodata virt then layout.sectionEntry .rodata virt
  else if layout.InSection .data virt then layout.sectionEntry .data virt
  else if InLow virt then virt ||| (ptePresent ||| pteWritable)
  else if InDirect hhdm virt then (virt - hhdm) ||| (ptePresent ||| pteWritable ||| pteNoExecute)
  else 0#64

/-- The sections and the direct map lie apart from each other in the higher
half. -/
structure Separate (hhdm : Word) : Prop where
  aligned : hhdm.toNat % pageSize = 0
  directHigher : 2 ^ 64 - 2 ^ 47 ≤ hhdm.toNat + 0x1000
  reach : hhdm.toNat + 2 ^ 32 ≤ 2 ^ 64
  higher : ∀ part virt, layout.InSection part virt → 2 ^ 64 - 2 ^ 47 ≤ virt.toNat
  disjoint : ∀ part other virt, layout.InSection part virt → layout.InSection other virt →
    part = other
  apart : ∀ part virt, layout.InSection part virt → ¬InDirect hhdm virt

def partRequests (part : KernelSection) : List MapRequest :=
  layout.sectionRequests (layout.first part) (layout.last part) part.flags part.onFailure

theorem requests_eq (hhdm : Word) :
    layout.requests hhdm = layout.partRequests .text ++ (layout.partRequests .rodata ++
      (layout.partRequests .data ++ lowRequests hhdm)) :=
  rfl

theorem mem_requests :
    request ∈ layout.requests hhdm ↔
      (∃ part, request ∈ layout.partRequests part) ∨ request ∈ lowRequests hhdm := by
  rw [requests_eq, List.mem_append, List.mem_append, List.mem_append]
  constructor
  · rintro (inText | inRodata | inData | inLow)
    · exact .inl ⟨.text, inText⟩
    · exact .inl ⟨.rodata, inRodata⟩
    · exact .inl ⟨.data, inData⟩
    · exact .inr inLow
  · rintro (⟨part, inPart⟩ | inLow)
    · cases part with
      | text => exact .inl inPart
      | rodata => exact .inr (.inl inPart)
      | data => exact .inr (.inr (.inl inPart))
    · exact .inr (.inr (.inr inLow))

end KernelLayout

section Rounding

theorem mem_pageRange {start stop i : Word} (startAligned : start.toNat % pageSize = 0)
    (stopAligned : stop.toNat % pageSize = 0) :
    i ∈ pageRange start stop ↔
      i.toNat % pageSize = 0 ∧ start.toNat ≤ i.toNat ∧ i.toNat < stop.toNat := by
  have stopLt := stop.isLt
  rw [pageRange, List.mem_map]
  constructor
  · rintro ⟨k, inRange, rfl⟩
    rw [List.mem_range] at inRange
    rw [BitVec.toNat_add, BitVec.toNat_ofNat]
    rw [pageSize] at *
    omega
  · rintro ⟨iAligned, fromStart, belowStop⟩
    refine ⟨(i.toNat - start.toNat) / pageSize, ?_, ?_⟩
    · rw [List.mem_range]
      rw [pageSize] at *
      omega
    · apply BitVec.eq_of_toNat_eq
      rw [BitVec.toNat_add, BitVec.toNat_ofNat]
      rw [pageSize] at *
      omega

theorem PageVirt.eq_of_pageKey {first second : Word} (firstPage : PageVirt first)
    (secondPage : PageVirt second) (sameKey : pageKey first = pageKey second) : first = second := by
  obtain ⟨firstAligned, firstCanonical⟩ := firstPage
  obtain ⟨secondAligned, secondCanonical⟩ := secondPage
  have firstLt := first.isLt
  have secondLt := second.isLt
  rw [pageKey_eq, pageKey_eq] at sameKey
  rw [pageSize] at *
  apply BitVec.eq_of_toNat_eq
  omega

end Rounding

theorem KernelSection.present (part : KernelSection) (physical : Word) :
    Present (physical ||| part.flags) := by
  intro isZero
  have lowBit := congrArg (fun word => word.getLsbD 0) isZero
  cases part <;> simp [flags, ptePresent, pteWritable, pteNoExecute] at lowBit

namespace KernelLayout

variable {layout : KernelLayout} {hhdm : Word}

variable {part : KernelSection}

/-- A section is mapped page by page, unless its rounded end wraps. -/
theorem mem_partRequests :
    request ∈ layout.partRequests part ↔
      (layout.last part).toNat ≤ 2 ^ 64 - pageSize ∧ request.virt.toNat % pageSize = 0 ∧
        layout.InSection part request.virt ∧
        request = ⟨request.virt, request.virt - layout.virtualBase + layout.physicalBase,
          part.flags, part.onFailure⟩ := by
  have bounds : ∀ i, i ∈ pageRange (alignDown (layout.first part) 4096#64)
      (alignUp (layout.last part) 4096#64) ↔
        (layout.last part).toNat ≤ 2 ^ 64 - pageSize ∧ i.toNat % pageSize = 0 ∧
          layout.InSection part i := by
    intro i
    rw [mem_pageRange, alignDown_page, alignUp_page, InSection]
    · by_cases fits : (layout.last part).toNat ≤ 2 ^ 64 - pageSize
      · rw [if_pos fits]
        exact ⟨fun inside => ⟨fits, inside⟩, fun inside => inside.2⟩
      · rw [if_neg fits]
        exact ⟨fun inside => absurd inside.2.2 (Nat.not_lt_zero _),
          fun inside => absurd inside.1 fits⟩
    · rw [alignDown_page, Nat.mul_mod_left]
    · rw [alignUp_page]
      split
      · rw [Nat.mul_mod_left]
      · rfl
  rw [partRequests, sectionRequests, List.mem_map]
  constructor
  · rintro ⟨i, member, rfl⟩
    obtain ⟨fits, aligned, inside⟩ := (bounds i).mp member
    exact ⟨fits, aligned, inside, rfl⟩
  · rintro ⟨fits, aligned, inside, form⟩
    exact ⟨request.virt, (bounds _).mpr ⟨fits, aligned, inside⟩, form.symm⟩

theorem mem_lowRequests_iff (aligned : hhdm.toNat % pageSize = 0)
    (reach : hhdm.toNat + 2 ^ 32 ≤ 2 ^ 64) {virt : Word} (isPage : virt.toNat % pageSize = 0) :
    (InLow virt → ∃ request ∈ lowRequests hhdm, request.virt = virt ∧
      request.physical ||| request.flags = virt ||| (ptePresent ||| pteWritable)) ∧
    (InDirect hhdm virt → ∃ request ∈ lowRequests hhdm, request.virt = virt ∧
      request.physical ||| request.flags =
        (virt - hhdm) ||| (ptePresent ||| pteWritable ||| pteNoExecute)) := by
  constructor
  · rintro ⟨fromStart, below⟩
    have virtEq : pageAddress (virt.toNat / pageSize) = virt := by
      apply BitVec.eq_of_toNat_eq
      rw [pageAddress_toNat (by rw [pageSize]; omega)]
      rw [pageSize] at *
      omega
    refine ⟨identityRequest (virt.toNat / pageSize), mem_lowRequests.mpr
      ⟨_, by rw [pageSize]; omega, by rw [pageSize]; omega, .inl rfl⟩, virtEq, ?_⟩
    rw [identityRequest, virtEq]
  · rintro ⟨fromStart, below⟩
    have addressEq : pageAddress ((virt.toNat - hhdm.toNat) / pageSize) = virt - hhdm := by
      apply BitVec.eq_of_toNat_eq
      rw [pageAddress_toNat (by rw [pageSize]; omega), BitVec.toNat_sub]
      rw [pageSize] at *
      omega
    refine ⟨directRequest hhdm ((virt.toNat - hhdm.toNat) / pageSize), mem_lowRequests.mpr
      ⟨_, by rw [pageSize]; omega, by rw [pageSize]; omega, .inr rfl⟩, ?_, ?_⟩
    · rw [directRequest, directPtr, addressEq, BitVec.sub_add_cancel]
    · rw [directRequest, addressEq]

namespace Separate

variable (separate : layout.Separate hhdm)

include separate

theorem mapEntry_section {virt : Word} (inside : layout.InSection part virt) :
    layout.mapEntry hhdm virt = layout.sectionEntry part virt := by
  have others : ∀ other, other ≠ part → ¬layout.InSection other virt :=
    fun other different inOther => different (separate.disjoint other part virt inOther inside)
  cases part with
  | text => rw [mapEntry, if_pos inside]
  | rodata => rw [mapEntry, if_neg (others .text (by decide)), if_pos inside]
  | data =>
      rw [mapEntry, if_neg (others .text (by decide)), if_neg (others .rodata (by decide)),
        if_pos inside]

theorem not_inSection_of_low {virt : Word} (low : InLow virt) (part : KernelSection) :
    ¬layout.InSection part virt := by
  intro inside
  have := separate.higher part virt inside
  have := low.2
  omega

theorem mapEntry_low {virt : Word} (low : InLow virt) :
    layout.mapEntry hhdm virt = virt ||| (ptePresent ||| pteWritable) := by
  have outside := separate.not_inSection_of_low low
  rw [mapEntry, if_neg (outside .text), if_neg (outside .rodata), if_neg (outside .data),
    if_pos low]

theorem mapEntry_direct {virt : Word} (direct : InDirect hhdm virt) :
    layout.mapEntry hhdm virt =
      (virt - hhdm) ||| (ptePresent ||| pteWritable ||| pteNoExecute) := by
  have outside : ∀ part, ¬layout.InSection part virt :=
    fun part inside => separate.apart part virt inside direct
  have notLow : ¬InLow virt := by
    intro low
    have := separate.directHigher
    have := direct.1
    have := low.2
    omega
  rw [mapEntry, if_neg (outside .text), if_neg (outside .rodata), if_neg (outside .data),
    if_neg notLow, if_pos direct]

theorem request_entry (asked : request ∈ layout.requests hhdm) :
    PageVirt request.virt ∧
      request.physical ||| request.flags = layout.mapEntry hhdm request.virt ∧
      Present (request.physical ||| request.flags) := by
  have aligned := separate.aligned
  have directHigher := separate.directHigher
  have reach := separate.reach
  rcases layout.mem_requests.mp asked with ⟨part, inPart⟩ | inLow
  · obtain ⟨-, isPage, inside, form⟩ := mem_partRequests.mp inPart
    rw [form]
    refine ⟨⟨isPage, .inr (separate.higher part _ inside)⟩, ?_, ?_⟩
    · exact (separate.mapEntry_section inside).symm
    · exact part.present _
  · have present := lowRequest_present inLow
    obtain ⟨page, positive, pageLt, rfl | rfl⟩ := mem_lowRequests.mp inLow
    · have value : (pageAddress page).toNat = page * pageSize := pageAddress_toNat (by omega)
      rw [pageSize] at value
      have low : InLow (pageAddress page) := ⟨by omega, by omega⟩
      refine ⟨⟨?_, .inl ?_⟩, (separate.mapEntry_low low).symm, present⟩
      · rw [identityRequest, value, pageSize]
        omega
      · rw [identityRequest, value]
        omega
    · have value : (directPtr hhdm page).toNat = page * pageSize + hhdm.toNat :=
        directPtr_value reach pageLt
      rw [pageSize] at value aligned
      have direct : InDirect hhdm (directPtr hhdm page) := ⟨by omega, by omega⟩
      refine ⟨⟨?_, .inr ?_⟩, ?_, present⟩
      · rw [directRequest, value, pageSize]
        omega
      · rw [directRequest, value]
        omega
      · have entry := separate.mapEntry_direct direct
        rw [directPtr, BitVec.add_sub_cancel] at entry
        exact entry.symm

/-- In the lower half only the first top-level entry is asked for. -/
theorem request_row (asked : request ∈ layout.requests hhdm) :
    (lvl4Offset request.virt).toNat = 0 ∨ 256 ≤ (lvl4Offset request.virt).toNat := by
  have virtLt := request.virt.isLt
  have directHigher := separate.directHigher
  rw [lvl4Offset, lvlOffset_toNat (by decide)]
  rcases layout.mem_requests.mp asked with ⟨part, inPart⟩ | inLow
  · obtain ⟨-, -, inside, -⟩ := mem_partRequests.mp inPart
    have higher := separate.higher part _ inside
    omega
  · obtain ⟨page, positive, pageLt, rfl | rfl⟩ := mem_lowRequests.mp inLow
    · have value : (identityRequest page).virt.toNat = page * pageSize :=
        pageAddress_toNat (by omega)
      rw [pageSize] at value
      omega
    · have value : (directRequest hhdm page).virt.toNat = page * pageSize + hhdm.toNat :=
        directPtr_value separate.reach pageLt
      rw [pageSize] at value
      omega

theorem flatRun_asked (asked : request ∈ layout.requests hhdm) :
    (flatRun (fun _ => 0#64) ((layout.requests hhdm).map MapRequest.op)).2
      (pageKey request.virt) = layout.mapEntry hhdm request.virt := by
  obtain ⟨isPage, entryEq, present⟩ := separate.request_entry asked
  rw [entryEq] at present
  apply flatRun_of_agree _ present _ ⟨request, asked, rfl⟩ (by decide)
  intro other otherAsked sameKey
  obtain ⟨otherPage, otherEntry, -⟩ := separate.request_entry otherAsked
  rw [otherEntry, otherPage.eq_of_pageKey isPage sameKey]

theorem low_entry (asked : request ∈ lowRequests hhdm) :
    (flatRun (fun _ => 0#64) ((layout.requests hhdm).map MapRequest.op)).2
      (pageKey request.virt) = request.physical ||| request.flags := by
  have inRequests := layout.mem_requests.mpr (.inr asked)
  rw [separate.flatRun_asked inRequests, (separate.request_entry inRequests).2.1]

theorem identity_entry {page : Nat} (positive : 1 ≤ page) (pageLt : page < 2 ^ 20) :
    (flatRun (fun _ => 0#64) ((layout.requests hhdm).map MapRequest.op)).2
        (pageKey (pageAddress page)) = pageAddress page ||| (ptePresent ||| pteWritable) := by
  have asked : identityRequest page ∈ lowRequests hhdm :=
    mem_lowRequests.mpr ⟨page, positive, pageLt, .inl rfl⟩
  have entry := separate.low_entry asked
  dsimp only [identityRequest] at entry
  exact entry

theorem flatRun_unasked {virt : Word} (isPage : PageVirt virt)
    (unasked : ∀ request ∈ layout.requests hhdm, request.virt ≠ virt) :
    (flatRun (fun _ => 0#64) ((layout.requests hhdm).map MapRequest.op)).2 (pageKey virt) =
      0#64 := by
  apply flatRun_of_untouched
  intro request asked sameKey
  exact unasked request asked ((separate.request_entry asked).1.eq_of_pageKey isPage sameKey)

/-- When no section reaches the last page, every page that should be mapped is
asked for. -/
theorem asked_of_fits (fits : ∀ part, (layout.last part).toNat ≤ 2 ^ 64 - pageSize) {virt : Word}
    (isPage : PageVirt virt) (mapped : layout.mapEntry hhdm virt ≠ 0#64) :
    ∃ request ∈ layout.requests hhdm, request.virt = virt := by
  have asked : ∀ part, layout.InSection part virt →
      ∃ request ∈ layout.requests hhdm, request.virt = virt := by
    intro part inside
    exact ⟨⟨virt, virt - layout.virtualBase + layout.physicalBase, part.flags, part.onFailure⟩,
      layout.mem_requests.mpr (.inl ⟨part, mem_partRequests.mpr
        ⟨fits part, isPage.1, inside, rfl⟩⟩), rfl⟩
  have low := mem_lowRequests_iff separate.aligned separate.reach isPage.1
  rw [mapEntry] at mapped
  split at mapped
  · next inside => exact asked .text inside
  · split at mapped
    · next inside => exact asked .rodata inside
    · split at mapped
      · next inside => exact asked .data inside
      · split at mapped
        · next inside =>
          obtain ⟨request, inLow, virtEq, -⟩ := low.1 inside
          exact ⟨request, layout.mem_requests.mpr (.inr inLow), virtEq⟩
        · split at mapped
          · next inside =>
            obtain ⟨request, inLow, virtEq, -⟩ := low.2 inside
            exact ⟨request, layout.mem_requests.mpr (.inr inLow), virtEq⟩
          · exact absurd rfl mapped

/-- The last page of a section whose rounded end wraps is not asked for. -/
theorem unasked_of_wraps (wraps : ¬(layout.last part).toNat ≤ 2 ^ 64 - pageSize) :
    layout.InSection part 0xfffffffffffff000#64 ∧
      ∀ request ∈ layout.requests hhdm, request.virt ≠ 0xfffffffffffff000#64 := by
  have firstLt := (layout.first part).isLt
  have lastLt := (layout.last part).isLt
  have inside : layout.InSection part 0xfffffffffffff000#64 := by
    rw [InSection]
    change _ ≤ 0xfffffffffffff000 ∧ 0xfffffffffffff000 < _
    rw [pageSize] at *
    omega
  refine ⟨inside, ?_⟩
  intro request asked virtEq
  rcases layout.mem_requests.mp asked with ⟨other, inOther⟩ | inLow
  · obtain ⟨fits, -, otherInside, -⟩ := mem_partRequests.mp inOther
    rw [virtEq] at otherInside
    rw [separate.disjoint part other _ inside otherInside] at wraps
    exact wraps fits
  · have reach := separate.reach
    obtain ⟨page, positive, pageLt, rfl | rfl⟩ := mem_lowRequests.mp inLow
    · have value : (pageAddress page).toNat = page * pageSize := pageAddress_toNat (by omega)
      rw [identityRequest] at virtEq
      dsimp only at virtEq
      rw [virtEq, pageSize] at value
      change 0xfffffffffffff000 = _ at value
      omega
    · have value : (directPtr hhdm page).toNat = page * pageSize + hhdm.toNat :=
        directPtr_value reach pageLt
      rw [directRequest] at virtEq
      dsimp only at virtEq
      apply separate.apart part _ inside
      rw [virtEq, pageSize] at value
      rw [InDirect, value]
      omega

/-- The calls establish the whole map exactly when no section reaches the last
page. -/
theorem flatRun_eq_mapEntry_iff :
    (∀ virt, PageVirt virt →
      (flatRun (fun _ => 0#64) ((layout.requests hhdm).map MapRequest.op)).2 (pageKey virt) =
        layout.mapEntry hhdm virt) ↔
      ∀ part, (layout.last part).toNat ≤ 2 ^ 64 - pageSize := by
  constructor
  · intro exact part
    by_contra wraps
    obtain ⟨inside, unasked⟩ := separate.unasked_of_wraps wraps
    have isPage : PageVirt 0xfffffffffffff000#64 := ⟨by decide, .inr (by decide)⟩
    have mapped := exact _ isPage
    rw [separate.flatRun_unasked isPage unasked, separate.mapEntry_section inside,
      sectionEntry] at mapped
    have present := part.present
      (0xfffffffffffff000#64 - layout.virtualBase + layout.physicalBase)
    rw [← mapped] at present
    exact present (by decide)
  · intro fits virt isPage
    by_cases asked : ∃ request ∈ layout.requests hhdm, request.virt = virt
    · obtain ⟨request, inRequests, rfl⟩ := asked
      exact separate.flatRun_asked inRequests
    · have unasked : ∀ request ∈ layout.requests hhdm, request.virt ≠ virt :=
        fun request inRequests virtEq => asked ⟨request, inRequests, virtEq⟩
      have unmapped : layout.mapEntry hhdm virt = 0#64 := by
        by_contra mapped
        exact asked (separate.asked_of_fits fits isPage mapped)
      rw [separate.flatRun_unasked isPage unasked, unmapped]

end Separate

end KernelLayout

/-- With enough frames `vmm_init` returns, and then the map is exactly the one
asked for if and only if no section reaches the last page. -/
theorem vmm_init_map_iff {σ : Type} {hhdm : Word} {source : FrameSource σ}
    (spec : FrameSpec hhdm source) {state : MmState σ} (valid : spec.Valid state.frames)
    {layout : KernelLayout} (separate : layout.Separate hhdm) :
    (layout.bootFrames hhdm ≤ spec.supply state.frames →
      ∃ world, vmmInit hhdm source layout state = .ok world) ∧
    ∀ world, vmmInit hhdm source layout state = .ok world →
      ((∀ virt, PageVirt virt →
        vmmPte hhdm world.mm world.vmmKernel virt = layout.mapEntry hhdm virt) ↔
        ∀ part, (layout.last part).toNat ≤ 2 ^ 64 - pageSize) := by
  rcases vmmInit_spec valid layout with ⟨reason, -, short, stopped⟩ |
    ⟨kernel, height, final, returned, kernelEq, -, ready, -, flat, -, -⟩
  · constructor
    · intro enough
      omega
    · intro world returned
      rw [stopped] at returned
      cases returned
  · refine ⟨fun _ => ⟨final, returned⟩, ?_⟩
    intro world sameReturned
    rw [returned, Except.ok.injEq] at sameReturned
    rw [← sameReturned, ← separate.flatRun_eq_mapEntry_iff]
    simp only [vmmPte, kernelEq, ready.space_at.vmmRoot_eq ready.tables, flat]

/-- Sections that follow each other behind the direct map lie apart. -/
theorem KernelLayout.separate_of_ordered {layout : KernelLayout}
    (aligned : hhdm.toNat % pageSize = 0) (directHigher : 2 ^ 64 - 2 ^ 47 ≤ hhdm.toNat + 0x1000)
    (text : hhdm.toNat + 2 ^ 32 ≤ layout.textStart.toNat / pageSize * pageSize)
    (textOrder : layout.textStart.toNat ≤ layout.textEnd.toNat)
    (rodata : (layout.textEnd.toNat + (pageSize - 1)) / pageSize * pageSize ≤
      layout.rodataStart.toNat / pageSize * pageSize)
    (rodataOrder : layout.rodataStart.toNat ≤ layout.rodataEnd.toNat)
    (data : (layout.rodataEnd.toNat + (pageSize - 1)) / pageSize * pageSize ≤
      layout.dataStart.toNat / pageSize * pageSize) : layout.Separate hhdm := by
  have rounded : ∀ {low high : Nat}, low ≤ high →
      low / pageSize * pageSize ≤ (high + (pageSize - 1)) / pageSize * pageSize := by
    intro low high ordered
    exact Nat.mul_le_mul_right _ (Nat.div_le_div_right (by omega))
  have textSpan := rounded textOrder
  have rodataSpan := rounded rodataOrder
  have behind : ∀ part virt, layout.InSection part virt →
      layout.textStart.toNat / pageSize * pageSize ≤ virt.toNat := by
    rintro part virt ⟨atFirst, -⟩
    cases part <;> rw [first] at atFirst <;> omega
  refine ⟨aligned, directHigher, ?_, ?_, ?_, ?_⟩
  · have start := layout.textStart.isLt
    have below := Nat.div_mul_le_self layout.textStart.toNat pageSize
    omega
  · intro part virt inside
    have := behind part virt inside
    omega
  · intro part other virt inside inOther
    rw [InSection] at inside inOther
    cases part <;> cases other <;> simp only [first, last] at inside inOther <;>
      first | rfl | omega
  · intro part virt inside direct
    have := behind part virt inside
    rw [InDirect] at direct
    omega

theorem machineLayout_separate : machineLayout.Separate machineHhdm :=
  KernelLayout.separate_of_ordered (by decide) (by decide) (by decide) (by decide) (by decide)
    (by decide) (by decide)

theorem machine_boots : ∃ pmm kernel height world,
    pmmInit machineMap machineHhdm (fun _ => 0#8) 4 = some (.ok pmm) ∧
    pmm.bitmapTopIndex = 32768 ∧ (MmState.mk pmm fun _ => 0#8).frames.Covered machineHhdm ∧
    vmmInit machineHhdm pmmSource machineLayout ⟨pmm, fun _ => 0#8⟩ = .ok world ∧
    world.vmmKernel = Space.vmm machineHhdm kernel ∧
    KernelReady (pmmSpec machineHhdm) kernel height world.mm ∧
    (∀ virt, leafPte world.mm.ram kernel.root virt =
      (flatRun (fun _ => 0#64)
        ((machineLayout.requests machineHhdm).map MapRequest.op)).2 (pageKey virt)) ∧
    (∀ index : Fin 512, 0 < index.val → index.val < 256 →
      tableStore world.mm.ram kernel.root index = 0#64) ∧
    (∀ page ∈ world.mm.frames.freeSet, page < 32768) ∧
    100 ≤ (pmmSpec machineHhdm).supply world.mm.frames := by
  obtain ⟨pmm, booted, topEq, covered, enough⟩ := machine_frames
  have cost : machineLayout.bootFrames machineHhdm ≤ 12555 :=
    machineLayout.bootFrames_le (by decide) (by decide)
  have valid : (pmmSpec machineHhdm).Valid (MmState.mk pmm fun _ => 0#8).frames := covered
  rcases vmmInit_spec valid machineLayout with ⟨reason, -, short, -⟩ |
    ⟨kernel, height, world, returned, kernelEq, -, ready, ext, flat, -, rows, supplyLe⟩
  · dsimp only at short
    omega
  · dsimp only at supplyLe
    refine ⟨pmm, kernel, height, world, booted, topEq, covered, returned, kernelEq, ready, flat,
      ?_, ?_, by omega⟩
    · intro index positive lowerHalf
      refine rows index lowerHalf fun request asked isRow => ?_
      rw [isRow, tableIndex_val (lvl4Offset_lt _)] at positive lowerHalf
      rcases machineLayout_separate.request_row asked with first | upper <;> omega
    · intro page free
      rw [← topEq]
      exact (Pmm.mem_freeSet.mp ((ext.free_iff page).mp free).1).1

theorem vmm_init_map_iff_machine : ∃ pmm world,
    pmmInit machineMap machineHhdm (fun _ => 0#8) 4 = some (.ok pmm) ∧
    vmmInit machineHhdm pmmSource machineLayout ⟨pmm, fun _ => 0#8⟩ = .ok world ∧
    ∀ virt, PageVirt virt → vmmPte machineHhdm world.mm world.vmmKernel virt =
      machineLayout.mapEntry machineHhdm virt := by
  obtain ⟨pmm, booted, -, covered, enough⟩ := machine_frames
  have valid : (pmmSpec machineHhdm).Valid (MmState.mk pmm fun _ => 0#8).frames := covered
  have cost : machineLayout.bootFrames machineHhdm ≤ 12555 :=
    machineLayout.bootFrames_le (by decide) (by decide)
  obtain ⟨returns, exact⟩ :=
    vmm_init_map_iff (pmmSpec machineHhdm) valid machineLayout_separate
  obtain ⟨world, returned⟩ := returns (by dsimp only; omega)
  refine ⟨pmm, world, booted, returned, (exact world returned).mpr ?_⟩
  intro part
  cases part <;> decide

def lastPageLayout : KernelLayout :=
  { machineLayout with dataStart := 0xfffffffffffff000#64, dataEnd := 0xfffffffffffff800#64 }

theorem lastPageLayout_separate : lastPageLayout.Separate machineHhdm :=
  KernelLayout.separate_of_ordered (by decide) (by decide) (by decide) (by decide) (by decide)
    (by decide) (by decide)

/-- `vmm_init` leaves the data of this kernel unmapped. -/
theorem vmm_init_skips_last_page : ∃ pmm world,
    pmmInit machineMap machineHhdm (fun _ => 0#8) 4 = some (.ok pmm) ∧
    vmmInit machineHhdm pmmSource lastPageLayout ⟨pmm, fun _ => 0#8⟩ = .ok world ∧
    lastPageLayout.Separate machineHhdm ∧ PageVirt 0xfffffffffffff000#64 ∧
    lastPageLayout.InSection .data 0xfffffffffffff000#64 ∧
    vmmPte machineHhdm world.mm world.vmmKernel 0xfffffffffffff000#64 = 0#64 ∧
    lastPageLayout.mapEntry machineHhdm 0xfffffffffffff000#64 ≠ 0#64 := by
  obtain ⟨pmm, booted, -, covered, enough⟩ := machine_frames
  have valid : (pmmSpec machineHhdm).Valid (MmState.mk pmm fun _ => 0#8).frames := covered
  have cost : lastPageLayout.bootFrames machineHhdm ≤ 12552 :=
    lastPageLayout.bootFrames_le (by decide) (by decide)
  have isPage : PageVirt 0xfffffffffffff000#64 := ⟨by decide, .inr (by decide)⟩
  obtain ⟨inside, unasked⟩ := lastPageLayout_separate.unasked_of_wraps
    (by decide : ¬(lastPageLayout.last .data).toNat ≤ 2 ^ 64 - pageSize)
  rcases vmmInit_spec valid lastPageLayout with ⟨reason, -, short, -⟩ |
    ⟨kernel, height, world, returned, kernelEq, -, ready, -, flat, -, -⟩
  · dsimp only at short
    omega
  · refine ⟨pmm, world, booted, returned, lastPageLayout_separate, isPage, inside, ?_, ?_⟩
    · rw [vmmPte, kernelEq, ready.space_at.vmmRoot_eq ready.tables, flat,
        lastPageLayout_separate.flatRun_unasked isPage unasked]
    · rw [lastPageLayout_separate.mapEntry_section inside]
      decide

end MmdOS
