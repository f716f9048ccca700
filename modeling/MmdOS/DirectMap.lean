import MmdOS.KernelSpace
import MmdOS.PhysicalInit
import Mathlib.Algebra.Order.BigOperators.Group.Finset
import Mathlib.Order.Interval.Finset.Nat

/-!
# What `vmm_init` maps

The entries of the direct map are read off the flat description of the calls
that `vmm_init` makes: no two of them ask for different entries at one page
key, so the order of the calls does not matter.
-/

namespace MmdOS

open ByteMemory
open Function (update update_self update_of_ne)

variable {request : MapRequest} {hhdm : Word}

section Requests

variable {f : Nat → Word} {key : Nat}

theorem flatRun_request (f : Nat → Word) (request : MapRequest) (requests : List MapRequest) :
    (flatRun f ((request :: requests).map MapRequest.op)).2 =
      (flatRun (update f (pageKey request.virt)
        (request.op.onEntry (f (pageKey request.virt))).2) (requests.map MapRequest.op)).2 :=
  rfl

theorem flatRun_of_present (requests : List MapRequest) (present : Present (f key)) :
    (flatRun f (requests.map MapRequest.op)).2 key = f key := by
  induction requests generalizing f with
  | nil => rfl
  | cons request requests ih =>
      have kept : update f (pageKey request.virt)
          (request.op.onEntry (f (pageKey request.virt))).2 key = f key := by
        by_cases here : key = pageKey request.virt
        · rw [here] at present
          rw [here, update_self, MapRequest.op, PageOp.onEntry_map_present present]
        · rw [update_of_ne here]
      rw [flatRun_request]
      exact (ih (by rwa [kept])).trans kept

theorem flatRun_present (requests : List MapRequest) (asked : request ∈ requests)
    (present : Present (request.physical ||| request.flags)) :
    Present ((flatRun f (requests.map MapRequest.op)).2 (pageKey request.virt)) := by
  induction requests generalizing f with
  | nil => cases asked
  | cons first requests ih =>
      rw [flatRun_request]
      rcases List.mem_cons.mp asked with rfl | inRest
      · have filled : Present (update f (pageKey request.virt)
            (request.op.onEntry (f (pageKey request.virt))).2 (pageKey request.virt)) := by
          rw [update_self, MapRequest.op]
          by_cases before : Present (f (pageKey request.virt))
          · rwa [PageOp.onEntry_map_present before]
          · rwa [PageOp.onEntry_map_absent before]
        rwa [flatRun_of_present requests filled]
      · exact ih inRest

theorem flatRun_of_untouched (requests : List MapRequest)
    (untouched : ∀ request ∈ requests, pageKey request.virt ≠ key) :
    (flatRun f (requests.map MapRequest.op)).2 key = f key := by
  induction requests generalizing f with
  | nil => rfl
  | cons request requests ih =>
      rw [flatRun_request]
      refine (ih fun other member => untouched other (List.mem_cons_of_mem _ member)).trans ?_
      exact update_of_ne (untouched request List.mem_cons_self).symm _ _

theorem flatRun_of_agree (requests : List MapRequest) {entry : Word} (present : Present entry)
    (agree : ∀ request ∈ requests, pageKey request.virt = key →
      request.physical ||| request.flags = entry)
    (asked : ∃ request ∈ requests, pageKey request.virt = key) (absent : ¬ Present (f key)) :
    (flatRun f (requests.map MapRequest.op)).2 key = entry := by
  induction requests generalizing f with
  | nil =>
      obtain ⟨request, member, -⟩ := asked
      cases member
  | cons request requests ih =>
      rw [flatRun_request]
      by_cases here : pageKey request.virt = key
      · have written : update f (pageKey request.virt)
            (request.op.onEntry (f (pageKey request.virt))).2 key = entry := by
          rw [here, update_self, MapRequest.op, PageOp.onEntry_map_absent absent]
          exact agree request List.mem_cons_self here
        refine (flatRun_of_present requests ?_).trans written
        rwa [written]
      · have kept : update f (pageKey request.virt)
            (request.op.onEntry (f (pageKey request.virt))).2 key = f key :=
          update_of_ne (fun equal => here equal.symm) _ _
        refine ih (fun other member => agree other (List.mem_cons_of_mem _ member)) ?_ ?_
        · obtain ⟨other, member, otherKey⟩ := asked
          rcases List.mem_cons.mp member with rfl | inRest
          · exact absurd otherKey here
          · exact ⟨other, inRest, otherKey⟩
        · rwa [kept]

end Requests

def identityRequest (page : Nat) : MapRequest :=
  ⟨pageAddress page, pageAddress page, ptePresent ||| pteWritable, .identityMap⟩

def directRequest (hhdm : Word) (page : Nat) : MapRequest :=
  ⟨directPtr hhdm page, pageAddress page, ptePresent ||| pteWritable ||| pteNoExecute,
    .directMap⟩

theorem mem_lowRequests :
    request ∈ lowRequests hhdm ↔ ∃ page, 1 ≤ page ∧ page < 2 ^ 20 ∧
      (request = identityRequest page ∨ request = directRequest hhdm page) := by
  have counter : ∀ k : Nat, 0x1000#64 + BitVec.ofNat 64 (k * pageSize) = pageAddress (k + 1) := by
    intro k
    rw [pageAddress, show 0x1000#64 = BitVec.ofNat 64 pageSize from rfl, ← BitVec.ofNat_add,
      Nat.succ_mul, Nat.add_comm]
  have rounds : ((0x100000000#64).toNat - (0x1000#64).toNat) / pageSize = 2 ^ 20 - 1 := by
    decide
  rw [lowRequests, pageRange, rounds, List.mem_flatMap]
  constructor
  · rintro ⟨i, member, asked⟩
    obtain ⟨k, inRange, rfl⟩ := List.mem_map.mp member
    rw [List.mem_range] at inRange
    rw [counter] at asked
    refine ⟨k + 1, by omega, by omega, ?_⟩
    rcases List.mem_cons.mp asked with first | second
    · exact Or.inl first
    · exact Or.inr (List.mem_singleton.mp second)
  · rintro ⟨page, positive, pageLt, asked⟩
    refine ⟨pageAddress page, List.mem_map.mpr ⟨page - 1, ?_, ?_⟩, ?_⟩
    · rw [List.mem_range]
      omega
    · rw [counter, Nat.sub_add_cancel positive]
    · rcases asked with rfl | rfl
      · exact List.mem_cons_self
      · exact List.mem_cons_of_mem _ (List.mem_singleton.mpr rfl)

theorem pageKey_eq (virt : Word) : pageKey virt = virt.toNat / 2 ^ 12 % 2 ^ 36 := by
  rw [pageKey, BitVec.toNat_ushiftRight, Nat.shiftRight_eq_div_pow]

section Requests

variable {hhdm : Word}

theorem directPtr_value (reach : hhdm.toNat + 2 ^ 32 ≤ 2 ^ 64) {page : Nat}
    (pageLt : page < 2 ^ 20) :
    (directPtr hhdm page).toNat = page * pageSize + hhdm.toNat := by
  apply directPtr_toNat
  rw [pageSize]
  omega

theorem lowRequest_present (asked : request ∈ lowRequests hhdm) :
    Present (request.physical ||| request.flags) := by
  intro isZero
  have lowBit := congrArg (fun word => word.getLsbD 0) isZero
  obtain ⟨page, -, -, rfl | rfl⟩ := mem_lowRequests.mp asked
  · simp [identityRequest, ptePresent, pteWritable] at lowBit
  · simp [directRequest, ptePresent, pteWritable, pteNoExecute] at lowBit

end Requests

section Cost

theorem requestPaths_append (first second : List MapRequest) :
    requestPaths (first ++ second) = requestPaths first ∪ requestPaths second := by
  simp [requestPaths]

theorem card_requestPaths_le (requests : List MapRequest) :
    (requestPaths requests).card ≤ requests.length := by
  have bound := List.toFinset_card_le (requests.map fun request => tablePath request.virt)
  rwa [List.length_map] at bound

/-- A last-level table comes with at most two tables above it. -/
theorem card_requestPrefixes_le (requests : List MapRequest) :
    (requestPrefixes requests \ upperPaths).card ≤ 3 * (requestPaths requests).card := by
  have covered : requestPrefixes requests \ upperPaths ⊆
      (requestPaths requests).biUnion fun path => (path.inits.tail).toFinset := by
    intro start member
    rw [Finset.mem_sdiff, requestPrefixes, List.mem_toFinset, List.mem_flatMap] at member
    obtain ⟨⟨request, asked, isInit⟩, notUpper⟩ := member
    refine Finset.mem_biUnion.mpr ⟨tablePath request.virt, ?_, ?_⟩
    · rw [requestPaths, List.mem_toFinset]
      exact List.mem_map_of_mem asked
    · rw [tablePath, List.inits_cons] at isInit ⊢
      rcases List.mem_cons.mp isInit with rfl | longer
      · exact absurd (Finset.mem_insert_self _ _) notUpper
      · rwa [List.tail_cons, List.mem_toFinset]
  refine (Finset.card_le_card covered).trans ?_
  rw [Nat.mul_comm]
  apply Finset.card_biUnion_le_card_mul
  intro path member
  rw [requestPaths, List.mem_toFinset, List.mem_map] at member
  obtain ⟨request, -, rfl⟩ := member
  refine (List.toFinset_card_le _).trans ?_
  rw [List.length_tail, List.length_inits, length_tablePath]

/-- One last-level table serves a block of two megabytes. -/
theorem tablePath_congr {first second : Word}
    (sameBlock : first.toNat / 2 ^ 21 = second.toNat / 2 ^ 21) :
    tablePath first = tablePath second := by
  have indexEq : ∀ shift, 21 ≤ shift → shift ≤ 55 →
      tableIndex (lvlOffset shift first) = tableIndex (lvlOffset shift second) := by
    intro shift shiftGe shiftLe
    have split : 2 ^ shift = 2 ^ 21 * 2 ^ (shift - 21) := by
      rw [← pow_add]
      congr 1
      omega
    rw [Fin.ext_iff, tableIndex_val (lvlOffset_lt shiftLe _),
      tableIndex_val (lvlOffset_lt shiftLe _), lvlOffset_toNat shiftLe, lvlOffset_toNat shiftLe,
      split, ← Nat.div_div_eq_div_mul, ← Nat.div_div_eq_div_mul, sameBlock]
  rw [tablePath, tablePath, lvl4Offset, lvl3Offset, lvl2Offset, indexEq 39 (by omega) (by omega),
    indexEq 30 (by omega) (by omega), indexEq 21 (by omega) (by omega)]
  rfl

/-- Both maps of the first four gigabytes take 2048 last-level tables. -/
theorem card_lowRequests_le (aligned : hhdm.toNat % 2 ^ 21 = 0)
    (reach : hhdm.toNat + 2 ^ 32 ≤ 2 ^ 64) :
    (requestPaths (lowRequests hhdm)).card ≤ 4096 := by
  let identity := (Finset.range 2048).image fun block => tablePath (pageAddress (block * 512))
  let direct := (Finset.range 2048).image fun block => tablePath (directPtr hhdm (block * 512))
  have covered : requestPaths (lowRequests hhdm) ⊆ identity ∪ direct := by
    intro path member
    rw [requestPaths, List.mem_toFinset, List.mem_map] at member
    obtain ⟨request, asked, rfl⟩ := member
    obtain ⟨page, -, pageLt, rfl | rfl⟩ := mem_lowRequests.mp asked
    · apply Finset.mem_union_left
      refine Finset.mem_image.mpr ⟨page / 512, Finset.mem_range.mpr (by omega), ?_⟩
      apply tablePath_congr
      rw [identityRequest, pageAddress_toNat (by omega), pageAddress_toNat (by omega), pageSize]
      omega
    · apply Finset.mem_union_right
      refine Finset.mem_image.mpr ⟨page / 512, Finset.mem_range.mpr (by omega), ?_⟩
      apply tablePath_congr
      rw [directRequest, directPtr_value reach pageLt, directPtr_value reach (by omega), pageSize]
      omega
  calc (requestPaths (lowRequests hhdm)).card
      ≤ (identity ∪ direct).card := Finset.card_le_card covered
    _ ≤ identity.card + direct.card := Finset.card_union_le _ _
    _ ≤ 2048 + 2048 := by
        have first : identity.card ≤ (Finset.range 2048).card := Finset.card_image_le
        have second : direct.card ≤ (Finset.range 2048).card := Finset.card_image_le
        rw [Finset.card_range] at first second
        omega

theorem KernelLayout.card_requests_le (layout : KernelLayout) (aligned : hhdm.toNat % 2 ^ 21 = 0)
    (reach : hhdm.toNat + 2 ^ 32 ≤ 2 ^ 64) :
    (requestPaths (layout.requests hhdm)).card ≤ layout.textRequests.length +
      (layout.rodataRequests.length + (layout.dataRequests.length + 4096)) := by
  have text := card_requestPaths_le layout.textRequests
  have rodata := card_requestPaths_le layout.rodataRequests
  have data := card_requestPaths_le layout.dataRequests
  have low := card_lowRequests_le aligned reach
  rw [KernelLayout.requests, requestPaths_append, requestPaths_append, requestPaths_append]
  have withData := Finset.card_union_le (requestPaths layout.dataRequests)
    (requestPaths (lowRequests hhdm))
  have withRodata := Finset.card_union_le (requestPaths layout.rodataRequests)
    (requestPaths layout.dataRequests ∪ requestPaths (lowRequests hhdm))
  have withText := Finset.card_union_le (requestPaths layout.textRequests)
    (requestPaths layout.rodataRequests ∪
      (requestPaths layout.dataRequests ∪ requestPaths (lowRequests hhdm)))
  omega

theorem KernelLayout.bootFrames_le (layout : KernelLayout) (aligned : hhdm.toNat % 2 ^ 21 = 0)
    (reach : hhdm.toNat + 2 ^ 32 ≤ 2 ^ 64) :
    layout.bootFrames hhdm ≤ 258 + 3 * (layout.textRequests.length +
      (layout.rodataRequests.length + (layout.dataRequests.length + 4096))) := by
  have paths := layout.card_requests_le aligned reach
  have prefixes := card_requestPrefixes_le (layout.requests hhdm)
  rw [bootFrames_eq]
  omega

end Cost

def machineLayout : KernelLayout where
  textStart := 0xffffffff80000000#64
  textEnd := 0xffffffff80000abc#64
  rodataStart := 0xffffffff80001000#64
  rodataEnd := 0xffffffff80001def#64
  dataStart := 0xffffffff80002000#64
  dataEnd := 0xffffffff80002123#64
  virtualBase := 0xffffffff80000000#64
  physicalBase := 0x8000000#64

theorem machine_sized : (32768 : Nat) ≤ 8 * (bitmapSize 32768).toNat := by
  decide

theorem machine_frames : ∃ pmm,
    pmmInit machineMap machineHhdm (fun _ => 0#8) 4 = some (.ok pmm) ∧
    pmm.bitmapTopIndex = 32768 ∧ pmm.Covered machineHhdm ∧
    32511 ≤ (pmmSpec machineHhdm).supply pmm := by
  obtain ⟨pmm, booted, topEq, free⟩ := machineMap_boots
  obtain ⟨covered, -⟩ := pmmInit_covered machineMap_low (by decide) booted (by rw [topEq]; omega)
    (by rw [topEq]; exact machine_sized)
  have inside : Finset.Ico 257 32768 ⊆ pmm.freeSet := by
    intro page member
    rw [Finset.mem_Ico] at member
    rw [Pmm.mem_freeSet, topEq]
    exact ⟨member.2, free page member.1 member.2⟩
  have card := Finset.card_le_card inside
  rw [Nat.card_Ico] at card
  exact ⟨pmm, booted, topEq, covered, card⟩

end MmdOS
