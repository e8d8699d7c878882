import Cs241.Foundation.Runs
import Cs241.Paging.Releases

/-!
# Calls without histories

The unit alone, with calls of any process in any order. What a call changes beside
the memory does not depend on the kernel, and the TLB knows pages of a process
that is present only.
-/
namespace Cs241.Paging

open Foundation

variable {κ τ : Type*}

section Handle

variable (K : FrameKernel κ) (L : Tlb τ) (addressInSegmentations : List VmSegmentation → ℕ → Bool)

/-- The unit after a call; `none` when the call is not allowed or the source follows a null
pointer. -/
def handle (w : Mmu κ τ) : Call → Option (Mmu κ τ)
  | .add pid =>
    if w.pageDirectories pid = none then some (mmuAddProcess K.toKernel pid w) else none
  | .remove pid => some (mmuRemoveProcess K L pid w)
  | .read pid a n =>
    if Allowed w a pid n then
      (mmuReadFromVirtualAddress K.toKernel L addressInSegmentations a pid n w).map Prod.snd
    else none
  | .write pid a buffer =>
    if Allowed w a pid buffer.length then
      mmuWriteToVirtualAddress K.toKernel L addressInSegmentations a pid buffer w
    else none

def Handles (w : Mmu κ τ) (call : Call) (w' : Mmu κ τ) : Prop :=
  handle K L addressInSegmentations w call = some w'

end Handle

/-- What an access of `pid` leaves alone beside the memory, and the process that has run. -/
structure Untouched (pid : ℕ) (w w' : Mmu κ τ) : Prop where
  currPid : w'.currPid = pid
  pageDirectories : w'.pageDirectories = w.pageDirectories
  segmentations : w'.segmentations = w.segmentations
  faults : w'.numSegmentationFaults = w.numSegmentationFaults

theorem findPte_untouched {K : Kernel κ} {L : Tlb τ} {a pid : ℕ} {w w' : Mmu κ τ} {slot : Slot}
    (h : findPte K L a pid w = some (slot, w')) : Untouched pid w w' := by
  have hswitch : Untouched pid w (switchTo L pid w) := by
    unfold switchTo
    split_ifs with hne
    · exact ⟨rfl, rfl, rfl, rfl⟩
    · exact ⟨by simpa using hne, rfl, rfl, rfl⟩
  have hmiss : ∀ d (v : Mmu κ τ), Untouched pid w v → Untouched pid w (tlbMiss K L d a v).2 := by
    intro d v hv
    unfold tlbMiss directoryEntry
    dsimp only
    split_ifs
    · exact { hv with }
    · exact { hv with }
  unfold findPte at h
  dsimp only at h
  split at h
  · obtain ⟨-, rfl⟩ := Prod.mk.inj (Option.some.inj h)
    exact { hswitch with }
  · obtain ⟨d, -, h⟩ := Option.map_eq_some_iff.mp h
    have heq := (Prod.mk.inj h).2
    exact heq ▸ hmiss d _ { hswitch with }

theorem pageIn_untouched (K : Kernel κ) {pid : ℕ} {w w' : Mmu κ τ} (slot : Slot)
    (h : Untouched pid w w') : Untouched pid w (pageIn K slot w') := by
  unfold pageIn
  split_ifs
  · exact h
  · exact { h with }

/-- Removing a process asks the kernel to take frames back and changes no memory. -/
theorem mmuRemoveProcess_eq (K : FrameKernel κ) (L : Tlb τ) (pid : ℕ) (w : Mmu κ τ) :
    ∃ kernel, mmuRemoveProcess K L pid w = { w with
      kernel := kernel
      pageDirectories := Function.update w.pageDirectories pid none
      segmentations := Function.update w.segmentations pid []
      tlb := if w.currPid = pid then L.flush w.tlb else w.tlb } := by
  cases hd : w.pageDirectories pid with
  | none => exact ⟨_, mmuRemoveProcess_none K L hd⟩
  | some d => exact ⟨_, mmuRemoveProcess_some L hd⟩

/-- A read or a write finds its entry and brings in the page. The entry gets other bits if the
address is in a segment. -/
inductive Accessed (K : FrameKernel κ) (L : Tlb τ) (a pid : ℕ) (w : Mmu κ τ) : Mmu κ τ → Prop
  | null : a = 0 → Accessed K L a pid w w.raiseSegmentationFault
  | outside {slot w₁} : findPte K.toKernel L a pid w = some (slot, w₁) →
      Accessed K L a pid w (pageIn K.toKernel slot w₁).raiseSegmentationFault
  | inside {slot w₁ e memory} : findPte K.toKernel L a pid w = some (slot, w₁) →
      e.present = ((pageIn K.toKernel slot w₁).memory.entry slot).present →
      e.baseAddr = ((pageIn K.toKernel slot w₁).memory.entry slot).baseAddr →
      memory.entry = Function.update (pageIn K.toKernel slot w₁).memory.entry slot e →
      Accessed K L a pid w { pageIn K.toKernel slot w₁ with memory := memory }

theorem handle_accessed {K : FrameKernel κ} {L : Tlb τ}
    {addressInSegmentations : List VmSegmentation → ℕ → Bool} {w w' : Mmu κ τ} {call : Call}
    {a pid : ℕ} (hc : call.access = some (pid, a))
    (hs : Handles K L addressInSegmentations w call w') :
    w.pageDirectories pid ≠ none ∧ Accessed K L a pid w w' := by
  cases call with
  | add _ | remove _ => simp [Call.access] at hc
  | read p b n =>
    obtain ⟨rfl, rfl⟩ := Prod.mk.inj (Option.some.inj hc)
    rw [Handles, handle] at hs
    split_ifs at hs with hallowed
    refine ⟨hallowed.1, ?_⟩
    obtain ⟨⟨result, v⟩, hread, rfl⟩ := Option.map_eq_some_iff.mp hs
    unfold mmuReadFromVirtualAddress at hread
    split_ifs at hread with ha
    · obtain ⟨-, rfl⟩ := Prod.mk.inj (Option.some.inj hread)
      exact .null ha
    obtain ⟨⟨slot, w₁⟩, hfind, hread⟩ := Option.map_eq_some_iff.mp hread
    dsimp only at hread
    split_ifs at hread
    · obtain ⟨-, rfl⟩ := Prod.mk.inj hread
      refine .inside hfind ?_ ?_ rfl
      exacts [rfl, rfl]
    · obtain ⟨-, rfl⟩ := Prod.mk.inj hread
      exact .outside hfind
  | write p b buffer =>
    obtain ⟨rfl, rfl⟩ := Prod.mk.inj (Option.some.inj hc)
    rw [Handles, handle] at hs
    split_ifs at hs with hallowed
    refine ⟨hallowed.1, ?_⟩
    unfold mmuWriteToVirtualAddress at hs
    split_ifs at hs with ha
    · obtain rfl := Option.some.inj hs
      exact .null ha
    obtain ⟨⟨slot, w₁⟩, hfind, rfl⟩ := Option.map_eq_some_iff.mp hs
    dsimp only
    split_ifs
    · refine .inside hfind ?_ ?_ rfl
      exacts [rfl, rfl]
    · exact .outside hfind

/-- The TLB knows pages of a process that is present, whatever the kernel does. -/
theorem run_known {K : FrameKernel κ} {L : Tlb τ}
    {addressInSegmentations : List VmSegmentation → ℕ → Bool} (D : L.Tagged) {kernel : κ}
    {memory : Memory} {calls : List Call} {w : Mmu κ τ}
    (hr : Run (Handles K L addressInSegmentations) (mmuCreate L kernel memory) calls w) :
    ∀ n s, D.added w.tlb n s → w.pageDirectories w.currPid ≠ none := by
  refine hr.invariant (P := fun w => ∀ n s, D.added w.tlb n s → w.pageDirectories w.currPid ≠ none)
    (fun n s hs => absurd hs (D.create n s)) fun {t call u} ht hs => ?_
  have haccess : ∀ {pid a}, call.access = some (pid, a) →
      ∀ n s, D.added u.tlb n s → u.pageDirectories u.currPid ≠ none := by
    intro pid a hc n s hs'
    obtain ⟨hp, haccessed⟩ := handle_accessed hc hs
    have hfound : ∀ {slot w₁}, findPte K.toKernel L a pid t = some (slot, w₁) →
        (pageIn K.toKernel slot w₁).pageDirectories (pageIn K.toKernel slot w₁).currPid ≠ none := by
      intro slot w₁ hfind
      have hrest := pageIn_untouched K.toKernel slot (findPte_untouched hfind)
      rwa [hrest.pageDirectories, hrest.currPid]
    cases haccessed with
    | null => exact ht n s hs'
    | outside hfind => exact hfound hfind
    | inside hfind => exact hfound hfind
  cases call with
  | add pid =>
    rw [Handles, handle] at hs
    split_ifs at hs with hnew
    obtain rfl := Option.some.inj hs
    obtain ⟨d, hdirs⟩ : ∃ d, (mmuAddProcess K.toKernel pid t).pageDirectories =
        Function.update t.pageDirectories pid (some d) := ⟨_, rfl⟩
    intro n s hs
    have hold : t.pageDirectories t.currPid ≠ none := ht n s hs
    rw [hdirs, show (mmuAddProcess K.toKernel pid t).currPid = t.currPid from rfl]
    by_cases hpid : t.currPid = pid
    · simp [hpid]
    · rwa [Function.update_of_ne hpid]
  | remove pid =>
    obtain ⟨k, heq⟩ := mmuRemoveProcess_eq K L pid t
    obtain rfl := Option.some.inj hs
    rw [heq]
    intro n s hs
    dsimp only at hs ⊢
    split_ifs at hs with hpid
    · exact absurd hs (D.flush _ _ _)
    · rw [Function.update_of_ne hpid]
      exact ht n s hs
  | read pid a n => exact haccess rfl
  | write pid a buffer => exact haccess rfl

end Cs241.Paging
