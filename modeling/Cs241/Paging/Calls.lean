import Cs241.Paging.Frames

/-!
# What the calls of the unit keep

A page table that is made for a directory entry which is not present is reached
through the TLB only; the accesses ask that nothing but zeros was written to a
page for which such a table is made.
-/
namespace Cs241.Paging

variable {κ τ : Type*} {K : Kernel κ} {L : Tlb τ}
  {addressInSegmentations : List VmSegmentation → ℕ → Bool} {C : K.Contract} {D : L.Contract}
  {owner : ℕ → Option (ℕ × ℕ)} {values : ℕ → ℕ → UInt8} {w w' : Mmu κ τ} {slot : Slot}
  {pid d f : ℕ}

theorem findPte_spec {n a : ℕ} (hi : Inv (view C D owner values w))
    (hd : w.pageDirectories pid = some d) (hn : a / 2 ^ 12 = n)
    (hg : (L.getPte (switchTo L pid w).tlb n).1 = none →
      (w.memory.entry (d, a / 2 ^ 22)).present = false →
        ∀ off < 4096, values pid (4096 * n + off) = 0) :
    ∃ slot w' owner', findPte K L a pid w = some (slot, w') ∧ Inv (view C D owner' values w') ∧
      D.last w'.tlb n = some slot ∧ w'.currPid = pid ∧ w'.segmentations = w.segmentations := by
  subst hn
  obtain ⟨slot, w', owner', hfind, htraced, hloc, hcurr, hsegs, horigin⟩ :=
    findPte_traced hi.traced hd a
  refine ⟨slot, w', owner', hfind, ?_, hloc.found, hcurr, hsegs⟩
  have hcurr' : (view C D owner' values w').curr = pid := hcurr
  refine hi.of_located htraced hloc (by rw [hcurr']; exact hd) ?_
  rw [hcurr']
  refine horigin.imp_right (Or.imp_right ?_)
  rintro ⟨hmiss, habs, hzero⟩
  exact ⟨habs, fun off hoff => (hzero off).trans (hg hmiss habs off hoff).symm⟩

/-! ## Accesses -/

/-- The values that a history has written. -/
def valuesOf (history : List Access) (p a : ℕ) : UInt8 := lastWritten p a history

/-- The TLB, flushed if another process ran last, has no entry for an address and the directory
entry is not present either. -/
def NoTable (L : Tlb τ) (a pid : ℕ) (w : Mmu κ τ) : Prop :=
  (L.getPte (switchTo L pid w).tlb (a / 2 ^ 12)).1 = none ∧
    ∀ d ∈ w.pageDirectories pid, (w.memory.entry (d, a / 2 ^ 22)).present = false

/-- The page of an address that a process can access is found and brought into memory. -/
theorem locate_spec {a n : ℕ} (hi : Inv (view C D owner values w))
    (hvalid : ValidAccess addressInSegmentations w a pid n)
    (hg : NoTable L a pid w → ∀ off < 4096, values pid (4096 * (a / 2 ^ 12) + off) = 0) :
    ∃ slot w₁ owner', findPte K L a pid w = some (slot, w₁) ∧
      Inv (view C D owner' values (pageIn K slot w₁)) ∧
      ((pageIn K slot w₁).memory.entry slot).present = true ∧
      D.last (pageIn K slot w₁).tlb (a / 4096) = some slot ∧
      (pageIn K slot w₁).currPid = pid ∧
      addressInSegmentations ((pageIn K slot w₁).segmentations pid) a = true := by
  obtain ⟨d, hd⟩ := Option.ne_none_iff_exists'.mp hvalid.added
  obtain ⟨slot, w₁, owner', hfind, hi₁, hlast, hpid, hsegs⟩ :=
    findPte_spec hi hd rfl fun hmiss hp => hg ⟨hmiss, fun d' hd' => by
      obtain rfl : d = d' := Option.some.inj (hd.symm.trans hd')
      exact hp⟩
  have hown : owner' slot.1 ≠ none := fun h =>
    absurd (h.symm.trans (hi₁.cached hlast).1) (by simp)
  obtain ⟨hplaced, hkeeps, hp, hsegs₂⟩ := pageIn_spec hi₁.traced.placed hown trivial
  obtain ⟨htlb, hcurr, -⟩ := hkeeps.rest
  refine ⟨slot, w₁, owner', hfind, hi₁.of_keeps hplaced hkeeps, hp, ?_, hcurr.trans hpid, ?_⟩
  · exact (congrFun htlb _).trans hlast
  · rw [hsegs₂, hsegs]
    exact hvalid.inside

theorem read_spec {history : List Access} {a n : ℕ}
    (hi : Inv (view C D owner (valuesOf history) w))
    (hvalid : ValidAccess addressInSegmentations w a pid n)
    (hg : NoTable L a pid w →
      ∀ off < 4096, valuesOf history pid (4096 * (a / 2 ^ 12) + off) = 0) :
    ∃ w' owner', mmuReadFromVirtualAddress K L addressInSegmentations a pid n w =
        some (some ((List.range n).map fun i => lastWritten pid (a + i) history), w') ∧
      Inv (view C D owner' (valuesOf history) w') := by
  obtain ⟨slot, w₁, owner', hfind, hi₂, hp, hlast, hcurr, hin⟩ := locate_spec hi hvalid hg
  set w₂ := pageIn K slot w₁
  have htouch : Inv (view C D owner' (valuesOf history)
      (w₂.setEntry slot { w₂.memory.entry slot with accessed := true })) := hi₂.touch rfl rfl
  refine ⟨_, owner', ?_, htouch⟩
  unfold mmuReadFromVirtualAddress
  rw [if_neg hvalid.nonzero, hfind, Option.map_some]
  dsimp only
  rw [if_pos hin]
  refine congrArg (fun l => some (some l, _)) (List.map_congr_left fun i hi' => ?_)
  have hlt := List.mem_range.mp hi'
  have hpage := hvalid.page
  have hhold := (hi₂.cached hlast).2.2 (a % 4096 + i) (by omega)
  rw [View.content_of_present (v := view C D owner' (valuesOf history) w₂) hp,
    show (view C D owner' (valuesOf history) w₂).curr = pid from hcurr] at hhold
  have haddr : a % 2 ^ 12 + (w₂.memory.entry slot).baseAddr * 4096 + i =
      4096 * (w₂.memory.entry slot).baseAddr + (a % 4096 + i) := by omega
  have hva : 4096 * (a / 4096) + (a % 4096 + i) = a + i := by omega
  rw [haddr]
  exact hhold.trans (congrArg (lastWritten pid · history) hva)

theorem write_spec {history : List Access} {a : ℕ} {buffer : List UInt8}
    (hi : Inv (view C D owner (valuesOf history) w))
    (hvalid : ValidAccess addressInSegmentations w a pid buffer.length)
    (hg : NoTable L a pid w →
      ∀ off < 4096, valuesOf history pid (4096 * (a / 2 ^ 12) + off) = 0) :
    ∃ w' owner', mmuWriteToVirtualAddress K L addressInSegmentations a pid buffer w = some w' ∧
      Inv (view C D owner' (valuesOf (.write pid a buffer :: history)) w') := by
  obtain ⟨slot, w₁, owner', hfind, hi₂, hp, hlast, hcurr, hin⟩ := locate_spec hi hvalid hg
  set w₂ := pageIn K slot w₁
  set e : Entry := { w₂.memory.entry slot with dirty := true, accessed := true }
  have hrun : mmuWriteToVirtualAddress K L addressInSegmentations a pid buffer w =
      some { w₂.setEntry slot e with
        memory := (w₂.memory.setEntry slot e).write (a % 4096 + e.baseAddr * 4096) buffer } := by
    unfold mmuWriteToVirtualAddress
    rw [if_neg hvalid.nonzero, hfind, Option.map_some]
    dsimp only
    rw [if_pos hin]
    rfl
  have htouch : Inv (view C D owner' (valuesOf history) (w₂.setEntry slot e)) := hi₂.touch rfl rfl
  have hentry : (w₂.memory.setEntry slot e).entry slot = e := Memory.entry_setEntry_self ..
  have hstore : Inv ((view C D owner' (valuesOf history) (w₂.setEntry slot e)).written slot
      (a % 4096) buffer (valuesOf (.write pid a buffer :: history))) := by
    refine htouch.store (n := a / 4096) hlast ((congrArg Entry.present hentry).trans hp)
      hvalid.page fun q x => ?_
    rw [show 4096 * (a / 4096) + a % 4096 = a by omega,
      show (view C D owner' (valuesOf history) (w₂.setEntry slot e)).curr = pid from hcurr]
    rfl
  refine ⟨_, owner', hrun, ?_⟩
  simpa only [View.written, view, Mmu.setEntry, hentry] using hstore

/-! ## Adding a process -/

/-- A new process gets a directory and a first table of zeros. -/
theorem mmuAddProcess_spec (hi : Inv (view C D owner values w))
    (hnew : w.pageDirectories pid = none) :
    ∃ owner', Inv (view C D owner' values (mmuAddProcess K pid w)) := by
  obtain ⟨d, t, htraced, hentered⟩ := mmuAddProcess_traced hi.traced (fun _ _ => trivial) hnew
  exact ⟨_, hi.of_entered htraced hnew hentered⟩

end Cs241.Paging
