import Cs241.Paging.Removal

/-!
# What a removal gives back

`mmu_remove_process` changes no memory, so what it gives back can be listed
beforehand: for each table of the directory its pages and their swap files, then
the table, at the end the directory. The kernel is told this list in order.
-/
namespace Cs241.Paging

variable {κ τ : Type*}

/-- Something that the kernel takes back. -/
inductive Release
  | frame (frame : ℕ)
  | swapFile (slot : Slot)

def Release.run (K : FrameKernel κ) (k : κ) : Release → κ
  | .frame f => K.returnFrameToKernel k (4096 * f)
  | .swapFile slot => K.removeSwapFile k slot

def Mmu.release (K : FrameKernel κ) (releases : List Release) (w : Mmu κ τ) : Mmu κ τ :=
  { w with kernel := releases.foldl (Release.run K) w.kernel }

def pageReleases (m : Memory) (slot : Slot) : List Release :=
  (if (m.entry slot).present then [.frame (m.entry slot).baseAddr] else []) ++ [.swapFile slot]

def tableReleases (m : Memory) (slot : Slot) : List Release :=
  if (m.entry slot).present then
    (List.range 1024).flatMap (fun i => pageReleases m ((m.entry slot).baseAddr, i)) ++
      [.frame (m.entry slot).baseAddr]
  else []

def directoryReleases (m : Memory) (d : ℕ) : List Release :=
  (List.range 1024).flatMap (fun j => tableReleases m (d, j)) ++ [.frame d]

/-! ## The loops -/

section Loops

variable {K : FrameKernel κ} {L : Tlb τ} {pid d : ℕ} {w : Mmu κ τ}

theorem release_append (as bs : List Release) (w : Mmu κ τ) :
    w.release K (as ++ bs) = (w.release K as).release K bs := by
  simp [Mmu.release, List.foldl_append]

/-- A loop over a table or a directory, which reads the memory only. -/
theorem foldl_release {g : Mmu κ τ → ℕ → Mmu κ τ} (out : Memory → ℕ → List Release) (xs : List ℕ)
    (hg : ∀ v x, g v x = v.release K (out v.memory x)) (w : Mmu κ τ) :
    xs.foldl g w = w.release K (xs.flatMap (out w.memory)) := by
  induction xs generalizing w with
  | nil => rfl
  | cons x xs ih =>
    rw [List.foldl_cons, hg, ih, List.flatMap_cons, release_append]
    rfl

theorem removePage_eq (slot : Slot) (w : Mmu κ τ) :
    removePage K slot w = w.release K (pageReleases w.memory slot) := by
  unfold removePage pageReleases
  dsimp only
  split_ifs <;> rfl

theorem removeTable_eq (slot : Slot) (w : Mmu κ τ) :
    removeTable K slot w = w.release K (tableReleases w.memory slot) := by
  unfold removeTable tableReleases
  dsimp only
  split_ifs with hp
  · rw [release_append,
      foldl_release (fun m i => pageReleases m ((w.memory.entry slot).baseAddr, i))
      _ (fun v i => removePage_eq _ v) w]
    rfl
  · rfl

/-- Removing a process gives back what its directory leads to and changes no memory. -/
theorem mmuRemoveProcess_some (L : Tlb τ) (hd : w.pageDirectories pid = some d) :
    mmuRemoveProcess K L pid w = { w with
      kernel := (directoryReleases w.memory d).foldl (Release.run K) w.kernel
      pageDirectories := Function.update w.pageDirectories pid none
      segmentations := Function.update w.segmentations pid []
      tlb := if w.currPid = pid then L.flush w.tlb else w.tlb } := by
  have hloop : (List.range 1024).foldl (fun w vpn1 => removeTable K (d, vpn1) w) w =
      w.release K ((List.range 1024).flatMap fun j => tableReleases w.memory (d, j)) :=
    foldl_release (fun m j => tableReleases m (d, j)) _ (fun v j => removeTable_eq (d, j) v) w
  have hall : (w.release K ((List.range 1024).flatMap fun j =>
      tableReleases w.memory (d, j))).returnFrameToKernel K d =
        w.release K (directoryReleases w.memory d) := (release_append _ [.frame d] w).symm
  unfold mmuRemoveProcess
  rw [hd]
  dsimp only
  rw [hloop, hall]
  generalize directoryReleases w.memory d = releases
  rfl

theorem mmuRemoveProcess_none (K : FrameKernel κ) (L : Tlb τ) (hd : w.pageDirectories pid = none) :
    mmuRemoveProcess K L pid w = { w with
      pageDirectories := Function.update w.pageDirectories pid none
      segmentations := Function.update w.segmentations pid []
      tlb := if w.currPid = pid then L.flush w.tlb else w.tlb } := by
  unfold mmuRemoveProcess
  rw [hd]

end Loops

/-! ## What is on the list -/

/-- The directory leads to the table, or the table to the page. -/
def LedTo (m : Memory) (d t : ℕ) : Prop :=
  ∃ j < 1024, (m.entry (d, j)).present = true ∧ (m.entry (d, j)).baseAddr = t

/-- A directory, its tables and their pages. -/
def Reached (m : Memory) (d f : ℕ) : Prop :=
  f = d ∨ ∃ t, LedTo m d t ∧ (f = t ∨ LedTo m t f)

section Listed

variable {m : Memory} {slot s : Slot} {d f : ℕ}

theorem frame_mem_pageReleases : .frame f ∈ pageReleases m slot ↔
    (m.entry slot).present = true ∧ (m.entry slot).baseAddr = f := by
  unfold pageReleases
  split_ifs with hp
  · simp [hp, eq_comm]
  · simp [hp]

theorem swapFile_mem_pageReleases : .swapFile s ∈ pageReleases m slot ↔ s = slot := by
  unfold pageReleases
  split_ifs <;> simp

theorem frame_mem_tableReleases : .frame f ∈ tableReleases m slot ↔
    (m.entry slot).present = true ∧
      (f = (m.entry slot).baseAddr ∨ LedTo m (m.entry slot).baseAddr f) := by
  unfold tableReleases
  split_ifs with hp
  · simp [hp, frame_mem_pageReleases, LedTo, or_comm]
  · simp [hp]

theorem swapFile_mem_tableReleases : .swapFile s ∈ tableReleases m slot ↔
    (m.entry slot).present = true ∧ s.1 = (m.entry slot).baseAddr ∧ s.2 < 1024 := by
  unfold tableReleases
  split_ifs with hp
  · simp only [List.mem_append, List.mem_flatMap, List.mem_range, swapFile_mem_pageReleases,
      List.mem_singleton, reduceCtorEq, or_false, hp, true_and]
    constructor
    · rintro ⟨i, hi, rfl⟩
      exact ⟨rfl, hi⟩
    · rintro ⟨ht, hi⟩
      exact ⟨s.2, hi, Prod.ext ht rfl⟩
  · simp [hp]

theorem frame_mem_directoryReleases : .frame f ∈ directoryReleases m d ↔ Reached m d f := by
  simp only [directoryReleases, List.mem_append, List.mem_flatMap, List.mem_range,
    frame_mem_tableReleases, List.mem_singleton, Release.frame.injEq]
  constructor
  · rintro (⟨j, hj, hp, hf⟩ | rfl)
    · exact .inr ⟨_, ⟨j, hj, hp, rfl⟩, hf⟩
    · exact .inl rfl
  · rintro (rfl | ⟨t, ⟨j, hj, hp, rfl⟩, hf⟩)
    · exact .inr rfl
    · exact .inl ⟨j, hj, hp, hf⟩

theorem swapFile_mem_directoryReleases : .swapFile s ∈ directoryReleases m d ↔
    LedTo m d s.1 ∧ s.2 < 1024 := by
  simp only [directoryReleases, List.mem_append, List.mem_flatMap, List.mem_range,
    swapFile_mem_tableReleases, List.mem_singleton, reduceCtorEq, or_false]
  constructor
  · rintro ⟨j, hj, hp, hs, hlt⟩
    exact ⟨⟨j, hj, hp, hs.symm⟩, hlt⟩
  · rintro ⟨⟨j, hj, hp, hs⟩, hlt⟩
    exact ⟨j, hj, hp, hs.symm, hlt⟩

end Listed

end Cs241.Paging
