import Cs241.Paging.Permissions

/-!
# Accesses outside of the segments

`mmu_read_from_virtual_address` and `mmu_write_to_virtual_address` ask for the segment of an
address after they have looked it up. Outside of the segments they therefore leave the
lookup behind, unless it was done before: the TLB has an entry for the page and the page
is present. The null address is refused at the start.
-/
namespace Cs241.Paging

variable {κ τ : Type*} {K : Kernel κ} {L : Tlb τ}
  {addressInSegmentations : List VmSegmentation → ℕ → Bool} {D : L.Contract} {w w' : Mmu κ τ}
  {a pid : ℕ} {slot : Slot}

/-- One segmentation fault was raised, and nothing else was changed but that the process may have
been switched to, which flushes the TLB. -/
structure FaultsOnly (D : L.Contract) (pid : ℕ) (w w' : Mmu κ τ) : Prop where
  rest : w' = { w with
    numSegmentationFaults := w.numSegmentationFaults + 1
    currPid := w'.currPid
    tlb := w'.tlb }
  switched : w'.currPid = w.currPid ∧ D.last w'.tlb = D.last w.tlb ∨
    w.currPid ≠ pid ∧ w'.currPid = pid ∧ D.last w'.tlb = D.last (L.flush w.tlb)

theorem FaultsOnly.counts (h : FaultsOnly D pid w w') :
    w'.numTlbMisses = w.numTlbMisses ∧ w'.numPageFaults = w.numPageFaults := by
  constructor
  · rw [h.rest]
  · rw [h.rest]

/-- The process has run last, and the TLB finds an entry for the address, which is present. -/
def Cached (L : Tlb τ) (a pid : ℕ) (w : Mmu κ τ) : Prop :=
  w.currPid = pid ∧
    ∃ slot ∈ (L.getPte w.tlb (a / 2 ^ 12)).1, (w.memory.entry slot).present = true

/-! ## What the lookup leaves behind -/

/-- The unit after the lookup and the fault, for an address that is not null. -/
def refuse (K : Kernel κ) (L : Tlb τ) (a pid : ℕ) (w : Mmu κ τ) : Option (Mmu κ τ) :=
  (findPte K L a pid w).map fun (slot, w) => (pageIn K slot w).raiseSegmentationFault

theorem switchTo_counts (L : Tlb τ) (pid : ℕ) (w : Mmu κ τ) :
    (switchTo L pid w).numTlbMisses = w.numTlbMisses ∧
      (switchTo L pid w).numPageFaults = w.numPageFaults := by
  unfold switchTo
  split_ifs
  · exact ⟨rfl, rfl⟩
  · exact ⟨rfl, rfl⟩

theorem findPte_segmentations (h : findPte K L a pid w = some (slot, w')) :
    (pageIn K slot w').segmentations = w.segmentations :=
  (pageIn_untouched K slot (findPte_untouched h)).segmentations

theorem findPte_hit (h : (L.getPte (switchTo L pid w).tlb (a / 2 ^ 12)).1 = some slot) :
    findPte K L a pid w = some (slot, { switchTo L pid w with
      tlb := (L.getPte (switchTo L pid w).tlb (a / 2 ^ 12)).2 }) := by
  unfold findPte
  dsimp only
  rw [h]

theorem tlbMiss_numTlbMisses (K : Kernel κ) (L : Tlb τ) (d a : ℕ) (w : Mmu κ τ) :
    (tlbMiss K L d a w).2.numTlbMisses = w.numTlbMisses + 1 := by
  unfold tlbMiss directoryEntry
  dsimp only
  split_ifs
  · rfl
  · rfl

theorem findPte_miss (h : (L.getPte (switchTo L pid w).tlb (a / 2 ^ 12)).1 = none)
    (hfind : findPte K L a pid w = some (slot, w')) : w'.numTlbMisses = w.numTlbMisses + 1 := by
  unfold findPte at hfind
  dsimp only at hfind
  rw [h] at hfind
  obtain ⟨d, -, hmiss⟩ := Option.map_eq_some_iff.mp hfind
  have hw : _ = w' := congrArg Prod.snd hmiss
  rw [← (switchTo_counts L pid w).1, ← hw]
  exact tlbMiss_numTlbMisses K L d a _

theorem pageIn_absent (h : (w.memory.entry slot).present = false) :
    (pageIn K slot w).numPageFaults = w.numPageFaults + 1 := by
  unfold pageIn
  rw [if_neg (by simp [h])]
  rfl

theorem pageIn_numTlbMisses (K : Kernel κ) (slot : Slot) (w : Mmu κ τ) :
    (pageIn K slot w).numTlbMisses = w.numTlbMisses := by
  unfold pageIn
  split_ifs
  · rfl
  · rfl

/-- After a flush nothing is found. -/
theorem getPte_switchTo (D : L.Contract) (hne : w.currPid ≠ pid) (n : ℕ) :
    (L.getPte (switchTo L pid w).tlb n).1 = none := by
  have htlb : (switchTo L pid w).tlb = L.flush w.tlb := by rw [switchTo, if_pos hne]
  rw [htlb]
  rcases D.get (L.flush w.tlb) n with hnone | hlast
  · exact hnone
  · rw [hlast, D.flush]

/-- The lookup leaves nothing behind exactly if it was done before. -/
theorem refuse_faultsOnly_iff (D : L.Contract) :
    (∃ w', refuse K L a pid w = some w' ∧ FaultsOnly D pid w w') ↔ Cached L a pid w := by
  constructor
  · rintro ⟨w', hrefuse, hfaults⟩
    obtain ⟨⟨slot, w₁⟩, hfind, rfl⟩ := Option.map_eq_some_iff.mp hrefuse
    have hmisses : (pageIn K slot w₁).numTlbMisses = w.numTlbMisses := hfaults.counts.1
    have hpageFaults : (pageIn K slot w₁).numPageFaults = w.numPageFaults := hfaults.counts.2
    cases hhit : (L.getPte (switchTo L pid w).tlb (a / 2 ^ 12)).1 with
    | none =>
      rw [pageIn_numTlbMisses, findPte_miss hhit hfind] at hmisses
      exact absurd hmisses (Nat.succ_ne_self _)
    | some slot' =>
      have hpid : w.currPid = pid := by
        by_contra hne
        rw [getPte_switchTo D hne] at hhit
        exact absurd hhit.symm (Option.some_ne_none _)
      obtain ⟨rfl, rfl⟩ := Prod.mk.inj (Option.some.inj ((findPte_hit hhit).symm.trans hfind))
      have hsame : switchTo L pid w = w := by rw [switchTo, if_neg (not_not.mpr hpid)]
      rw [hsame] at hhit hpageFaults
      refine ⟨hpid, slot', hhit, ?_⟩
      by_contra hpresent
      rw [pageIn_absent (by simpa using hpresent)] at hpageFaults
      exact absurd hpageFaults (Nat.succ_ne_self _)
  · rintro ⟨hpid, slot, hhit, hpresent⟩
    have hsame : switchTo L pid w = w := by rw [switchTo, if_neg (not_not.mpr hpid)]
    have hfind : findPte K L a pid w = _ := findPte_hit (by rw [hsame]; exact hhit)
    rw [hsame] at hfind
    have hrefuse : refuse K L a pid w = some
        { w with
          numSegmentationFaults := w.numSegmentationFaults + 1
          tlb := (L.getPte w.tlb (a / 2 ^ 12)).2 } := by
      rw [refuse, hfind, Option.map_some]
      dsimp only
      rw [pageIn, if_pos hpresent]
      rfl
    exact ⟨_, hrefuse, rfl, .inl ⟨rfl, D.get_last _ _⟩⟩

/-! ## Reads and writes -/

theorem read_refused (hout : addressInSegmentations (w.segmentations pid) a = false) (ha : a ≠ 0)
    (n : ℕ) : mmuReadFromVirtualAddress K L addressInSegmentations a pid n w =
      (refuse K L a pid w).map fun w' => (none, w') := by
  rw [mmuReadFromVirtualAddress, if_neg ha, refuse, Option.map_map]
  refine Option.map_congr ?_
  rintro ⟨slot, w₁⟩ hfind
  simp [findPte_segmentations hfind, hout]

theorem write_refused (hout : addressInSegmentations (w.segmentations pid) a = false) (ha : a ≠ 0)
    (buffer : List UInt8) : mmuWriteToVirtualAddress K L addressInSegmentations a pid buffer w =
      refuse K L a pid w := by
  rw [mmuWriteToVirtualAddress, if_neg ha, refuse]
  refine Option.map_congr ?_
  rintro ⟨slot, w₁⟩ hfind
  simp [findPte_segmentations hfind, hout]

/-- A read that is refused. -/
def ReadFaults (K : Kernel κ) (addressInSegmentations : List VmSegmentation → ℕ → Bool)
    (D : L.Contract) (a pid n : ℕ) (w : Mmu κ τ) : Prop :=
  ∃ w', mmuReadFromVirtualAddress K L addressInSegmentations a pid n w = some (none, w') ∧
    FaultsOnly D pid w w'

/-- A write that is refused. -/
def WriteFaults (K : Kernel κ) (addressInSegmentations : List VmSegmentation → ℕ → Bool)
    (D : L.Contract) (a pid : ℕ) (buffer : List UInt8) (w : Mmu κ τ) : Prop :=
  ∃ w', mmuWriteToVirtualAddress K L addressInSegmentations a pid buffer w = some w' ∧
    FaultsOnly D pid w w'

/-- Outside of the segments a read or a write is refused and leaves nothing else behind, exactly if
the address is null or was looked up before. -/
theorem faults_iff (D : L.Contract)
    (hsegmentations : ∀ segs a, addressInSegmentations segs a = true ↔
      ∃ seg ∈ segs, seg.Contains a)
    (hout : ∀ seg ∈ w.segmentations pid, ¬ seg.Contains a) :
    (∀ n, ReadFaults K addressInSegmentations D a pid n w ↔ a = 0 ∨ Cached L a pid w) ∧
      ∀ buffer, WriteFaults K addressInSegmentations D a pid buffer w ↔
        a = 0 ∨ Cached L a pid w := by
  have hout' : addressInSegmentations (w.segmentations pid) a = false := by
    rw [Bool.eq_false_iff, ne_eq, hsegmentations]
    rintro ⟨seg, hseg, ha⟩
    exact hout seg hseg ha
  have hnull : FaultsOnly D pid w w.raiseSegmentationFault := ⟨rfl, .inl ⟨rfl, rfl⟩⟩
  by_cases ha : a = 0
  · constructor
    · intro n
      exact iff_of_true ⟨_, by rw [mmuReadFromVirtualAddress, if_pos ha], hnull⟩ (.inl ha)
    · intro buffer
      exact iff_of_true ⟨_, by rw [mmuWriteToVirtualAddress, if_pos ha], hnull⟩ (.inl ha)
  · rw [or_iff_right ha, ← refuse_faultsOnly_iff (K := K) D]
    constructor
    · intro n
      simp [ReadFaults, read_refused hout' ha]
    · intro buffer
      simp [WriteFaults, write_refused hout' ha]

instance : Decidable (Cached L a pid w) :=
  inferInstanceAs (Decidable (_ ∧ _))

/-- Process 1 was added. -/
def populated : Mmu (List (Option Ref)) (ℕ → Option Slot) :=
  mmuAddProcess orderedKernel.toKernel 1 switchedOn

/-- The second read at an address between the segments. -/
theorem faults_iff_again : ∃ w, mmuReadFromVirtualAddress orderedKernel.toKernel plainTlb inSegments
      0x100000 1 1 populated = some (none, w) ∧
    ReadFaults orderedKernel.toKernel inSegments plainTlbContract 0x100000 1 1 w := by
  have hread : (mmuReadFromVirtualAddress orderedKernel.toKernel plainTlb inSegments 0x100000 1 1
      populated).map (fun r => (r.1, decide ((∀ seg ∈ r.2.segmentations 1,
        ¬ seg.Contains 0x100000) ∧ Cached plainTlb 0x100000 1 r.2))) = some (none, true) := by
    decide +kernel
  obtain ⟨⟨result, w⟩, hw, hcached⟩ := Option.map_eq_some_iff.mp hread
  obtain ⟨hresult, hdecided⟩ := Prod.mk.inj hcached
  obtain ⟨hout, hlookup⟩ := of_decide_eq_true hdecided
  dsimp only at hresult
  exact ⟨w, hresult ▸ hw, ((faults_iff plainTlbContract inSegments_iff hout).1 1).mpr
    (.inr hlookup)⟩

/-- The first one is a TLB miss and two page faults. -/
theorem not_faults : (∀ seg ∈ populated.segmentations 1, ¬ seg.Contains 0x100000) ∧
    ¬ ReadFaults orderedKernel.toKernel inSegments plainTlbContract 0x100000 1 1 populated := by
  have hmisses : (mmuReadFromVirtualAddress orderedKernel.toKernel plainTlb inSegments 0x100000 1 1
      populated).map (fun r => r.2.numTlbMisses) = some 1 := by
    decide +kernel
  refine ⟨by decide, ?_⟩
  rintro ⟨w', hread, hfaults⟩
  rw [hread] at hmisses
  exact absurd (hfaults.counts.1.symm.trans (Option.some.inj hmisses)) (by decide)

end Cs241.Paging
