import Mathlib.Data.List.Nodup
import Cs241.Paging.Estate
import Cs241.Paging.Isolation

/-!
# What the kernel gets back

`mmu_remove_process` walks from the directory of a process to its first table and
the pages of that table. Tables that were made for directory entries which are not
present, and their pages, are lost.
-/
namespace Cs241.Paging

open Foundation

variable {κ τ : Type*}

/-! ## Accesses -/

variable {K : FrameKernel κ} {L : Tlb τ} {addressInSegmentations : List VmSegmentation → ℕ → Bool}

/-- What the TLB knows counts only for the process that ran last. -/
def estate (C : K.Contract) (D : L.Tagged) (pid : ℕ) (w : Mmu (κ × Journal) τ) : Estate where
  dir := w.pageDirectories pid
  entry := w.memory.entry
  inUse := C.inUse w.kernel.1
  added n s := w.currPid = pid ∧ D.added w.tlb n s
  journal := w.kernel.2

variable {C : K.Contract} {D : L.Tagged} {pid d t : ℕ} {w w' : Mmu (κ × Journal) τ} {slot : Slot}
  {a : ℕ}

theorem estate_ask (C : K.Contract) (D : L.Tagged) (pid : ℕ) (w : Mmu (κ × Journal) τ)
    (ref : Ref) :
    ∃ f, (w.askKernelForFrame K.journaled.toKernel ref).1 / 4096 = f ∧
      ¬ (estate C D pid w).inUse f ∧
      estate C D pid (w.askKernelForFrame K.journaled.toKernel ref).2 =
        { estate C D pid w with
          entry := fun s => if s.1 = f then .zero else w.memory.entry s
          inUse := fun g => g = f ∨ C.inUse w.kernel.1 g
          journal := { w.kernel.2 with handedOut := f :: w.kernel.2.handedOut } } := by
  obtain ⟨f, haddr, hfresh, huse, hmem⟩ := C.ask w.kernel.1 w.memory ref
  have hf : (K.askForFrame w.kernel.1 w.memory ref).1 / 4096 = f := by
    rw [haddr]
    omega
  have huse' : C.inUse (K.askForFrame w.kernel.1 w.memory ref).2.1 =
      fun g => g = f ∨ C.inUse w.kernel.1 g := funext fun g => propext (huse g)
  refine ⟨f, hf, hfresh, ?_⟩
  simp only [estate, Mmu.askKernelForFrame, FrameKernel.journaled, hf, huse', hmem]
  rfl

theorem estate_read (C : K.Contract) (D : L.Tagged) (pid : ℕ) (w : Mmu (κ × Journal) τ)
    (ref : Ref) :
    estate C D pid (w.readPageFromDisk K.journaled.toKernel ref) = estate C D pid w := by
  obtain ⟨huse, hmem⟩ := C.read w.kernel.1 w.memory ref
  have huse' : C.inUse (K.readPageFromDisk w.kernel.1 w.memory ref).1 = C.inUse w.kernel.1 :=
    funext fun g => propext (huse g)
  simp only [estate, Mmu.readPageFromDisk, FrameKernel.journaled, huse', hmem]

/-- A frame for a process that is present is lost as long as nothing leads to it. -/
theorem ask_lodged (h : Lodged d t (estate C D pid w)) (ref : Ref) :
    ∃ f, (w.askKernelForFrame K.journaled.toKernel ref).1 / 4096 = f ∧
      Lodged d t (estate C D pid (w.askKernelForFrame K.journaled.toKernel ref).2) ∧
      (∀ g, Lost d t (estate C D pid (w.askKernelForFrame K.journaled.toKernel ref).2) g ↔
        g = f ∨ Lost d t (estate C D pid w) g) ∧
      f ∉ w.kernel.2.handedOut ∧ ∀ s : Slot, s.1 ∈ w.kernel.2.handedOut →
        (w.askKernelForFrame K.journaled.toKernel ref).2.memory.entry s = w.memory.entry s := by
  obtain ⟨f, hf, hfresh, hestate⟩ := estate_ask C D pid w ref
  obtain ⟨h', hlost⟩ := h.ask hfresh
  rw [hestate]
  refine ⟨f, hf, h', hlost, fun hmem => hfresh (h.used hmem), fun s hs => ?_⟩
  have hne : s.1 ≠ f := by
    rintro rfl
    exact hfresh (h.used hs)
  exact (congrFun (congrArg Estate.entry hestate) s).trans (if_neg hne)

/-- A frame for an entry of the first table is not lost. -/
theorem ask_map {i : ℕ} (h : Lodged d t (estate C D pid w)) (hi : i < 1024)
    (habs : (w.memory.entry (t, i)).present = false) (ref : Ref) :
    ∃ f, (w.askKernelForFrame K.journaled.toKernel ref).1 / 4096 = f ∧
      (w.askKernelForFrame K.journaled.toKernel ref).2.memory.entry (t, i) =
        w.memory.entry (t, i) ∧
      ∀ {w' : Mmu (κ × Journal) τ} {e : Entry}, e.present = true ∧ e.baseAddr = f →
        w' = (w.askKernelForFrame K.journaled.toKernel ref).2.setEntry (t, i) e →
          Lodged d t (estate C D pid w') ∧
          (∀ g, Lost d t (estate C D pid w') g ↔ Lost d t (estate C D pid w) g) ∧
          ∀ j, j ≠ i → w'.memory.entry (t, j) = w.memory.entry (t, j) := by
  obtain ⟨f, hf, h₁, hlost, hfresh, hkeep⟩ := ask_lodged h ref
  have hentry := fun j => hkeep (t, j) h.handed.2.1
  refine ⟨f, hf, hentry i, ?_⟩
  rintro w' e he rfl
  have hknown : ∀ n s, (estate C D pid w).added n s → s.1 ≠ f := by
    rintro n s hs rfl
    exact hfresh (h.known_handed hs)
  obtain ⟨h₂, hlost₂⟩ := h₁.map hi ((congrArg Entry.present (hentry i)).trans habs)
    ((hlost f).mpr (.inl rfl)) hknown he
  refine ⟨h₂, fun g => (hlost₂ g).trans ?_, fun j hj => ?_⟩
  · rw [hlost]
    constructor
    · exact fun hg => hg.2.resolve_left hg.1
    · refine fun hg => ⟨?_, .inr hg⟩
      rintro rfl
      exact hfresh hg.1
  · have hne : ((t, j) : Slot) ≠ (t, i) := fun heq => hj (Prod.mk.inj heq).2
    exact (Memory.entry_setEntry_of_ne _ _ hne).trans (hentry j)

/-- The changes of an access: `slot` is where it leads to, and a frame gets lost if it is not to one
of the first pages. -/
structure Found (d t a : ℕ) (v v' : Estate) (slot : Slot) : Prop where
  lodged : Lodged d t v'
  near : a < 2 ^ 22 → slot = (t, a / 2 ^ 12) ∧ ∀ g, Lost d t v' g ↔ Lost d t v g
  far : 2 ^ 22 ≤ a → Lost d t v' slot.1 ∧ ∀ g, Lost d t v g → Lost d t v' g

theorem tlbMiss_found (h : Lodged d t (estate C D pid w)) (hpid : w.currPid = pid) (a : ℕ) :
    Found d t a (estate C D pid w) (estate C D pid (tlbMiss K.journaled.toKernel L d a w).2)
      (tlbMiss K.journaled.toKernel L d a w).1 := by
  by_cases ha : a < 2 ^ 22
  · have hfirst := h.first
    have hentry : directoryEntry K.journaled.toKernel d (a / 2 ^ 22) w =
        (w.memory.entry (d, 0), w) := by
      rw [Nat.div_eq_of_lt ha]
      exact if_pos hfirst.1
    have hslot : ((w.memory.entry (d, 0)).baseAddr, a / 2 ^ 12 % 2 ^ 10) = (t, a / 2 ^ 12) := by
      rw [show (w.memory.entry (d, 0)).baseAddr = t from hfirst.2,
        Nat.mod_eq_of_lt (show a / 2 ^ 12 < 2 ^ 10 by omega)]
    unfold tlbMiss
    rw [hentry]
    dsimp only
    rw [hslot]
    refine ⟨h.learn ?_, fun _ => ⟨rfl, fun _ => Iff.rfl⟩, fun hfar => absurd ha hfar.not_gt⟩
    rintro n s ⟨-, hs⟩
    rcases D.add _ _ _ _ _ hs with ⟨rfl, rfl⟩ | hold
    · exact .inl ⟨by omega, rfl⟩
    · exact h.known ⟨hpid, hold⟩
  · have habs : ¬ (w.memory.entry (d, a / 2 ^ 22)).present = true := by
      have hrest := h.rest (a / 2 ^ 22) (by omega)
      exact fun hp => absurd (hrest.symm.trans hp) (by simp)
    obtain ⟨f, hf, h₁, hlost, -, -⟩ := ask_lodged h .localCopy
    have hread := estate_read C D pid (w.askKernelForFrame K.journaled.toKernel .localCopy).2
      .localCopy
    unfold tlbMiss directoryEntry
    dsimp only
    rw [if_neg habs]
    dsimp only
    rw [hf]
    set w₁ := (w.askKernelForFrame K.journaled.toKernel .localCopy).2
    rw [← hread] at h₁ hlost
    refine ⟨h₁.learn ?_, fun hnear => absurd hnear ha, fun _ =>
      ⟨(hlost f).mpr (.inl rfl), fun g hg => (hlost g).mpr (.inr hg)⟩⟩
    rintro n s ⟨-, hs⟩
    rcases D.add _ _ _ _ _ hs with ⟨rfl, rfl⟩ | hold
    · exact .inr ⟨by omega, (hlost f).mpr (.inl rfl)⟩
    · exact h₁.known ⟨hpid, hold⟩

/-- The switch to a process and a lookup tell the TLB nothing new. -/
theorem switchTo_lodged (h : Lodged d t (estate C D pid w)) (tlb : τ)
    (htlb : ∀ n s, D.added tlb n s → D.added (switchTo L pid w).tlb n s) :
    (switchTo L pid w).currPid = pid ∧ (switchTo L pid w).pageDirectories pid = some d ∧
      Lodged d t (estate C D pid { switchTo L pid w with tlb := tlb }) ∧
      ∀ g, Lost d t (estate C D pid { switchTo L pid w with tlb := tlb }) g ↔
        Lost d t (estate C D pid w) g := by
  have hdir := h.dir
  unfold switchTo at htlb ⊢
  split_ifs at htlb ⊢ with hne
  · exact ⟨rfl, hdir, h.learn fun hs => absurd (htlb _ _ hs.2) (D.flush _ _ _), fun _ => Iff.rfl⟩
  · have hpid : w.currPid = pid := by simpa using hne
    exact ⟨hpid, hdir, h.learn fun hs => h.known ⟨hpid, htlb _ _ hs.2⟩, fun _ => Iff.rfl⟩

/-- The entry that is found for an access. -/
theorem findPte_found (h : Lodged d t (estate C D pid w)) (a : ℕ) :
    ∃ slot w', findPte K.journaled.toKernel L a pid w = some (slot, w') ∧
      Found d t a (estate C D pid w) (estate C D pid w') slot := by
  obtain ⟨hpid, hdir, h₁, hsame⟩ := switchTo_lodged h
    (L.getPte (switchTo L pid w).tlb (a / 2 ^ 12)).2 fun n s hs => D.get_added _ _ _ _ hs
  have hget := D.get (switchTo L pid w).tlb (a / 2 ^ 12)
  have hback := fun n s => D.get_added (switchTo L pid w).tlb (a / 2 ^ 12) n s
  unfold findPte
  dsimp only
  cases hhit : (L.getPte (switchTo L pid w).tlb (a / 2 ^ 12)).1 with
  | some slot =>
    obtain ⟨-, -, h₀, hsame₀⟩ := switchTo_lodged h (switchTo L pid w).tlb fun _ _ hs => hs
    have hknown := h₀.known ⟨hpid, hget slot hhit⟩
    refine ⟨slot, _, rfl, h₁, fun ha => ⟨?_, hsame⟩, fun ha => ⟨?_, fun g => (hsame g).mpr⟩⟩
    · exact (hknown.resolve_right fun hfar => by omega).2
    · have hlost := (hknown.resolve_left fun hnear => by omega).2
      exact (hsame _).mpr ((hsame₀ _).mp hlost)
  | none =>
    have hfound := tlbMiss_found (L := L) h₁ hpid a
    refine ⟨_, _, by rw [hdir, Option.map_some], hfound.lodged, fun ha => ?_, fun ha => ?_⟩
    · obtain ⟨hslot, hlost⟩ := hfound.near ha
      exact ⟨hslot, fun g => (hlost g).trans (hsame g)⟩
    · obtain ⟨hslot, hlost⟩ := hfound.far ha
      exact ⟨hslot, fun g hg => hlost g ((hsame g).mpr hg)⟩

/-- Bringing a page in changes what is lost only if the page is one of a lost table. -/
theorem pageIn_found {v : Estate} (h : Found d t a v (estate C D pid w) slot) :
    Found d t a v (estate C D pid (pageIn K.journaled.toKernel slot w)) slot := by
  unfold pageIn
  split_ifs with hp
  · exact h
  have habs : (w.memory.entry slot).present = false := by simpa using hp
  have hread := fun e => estate_read C D pid
    ((w.askKernelForFrame K.journaled.toKernel (.entry slot)).2.setEntry slot e) (.entry slot)
  have hraise : ∀ {x y : Mmu (κ × Journal) τ}, estate C D pid x = estate C D pid y →
      estate C D pid x.raisePageFault = estate C D pid y := fun heq => heq
  dsimp only
  rw [hraise (hread _)]
  by_cases ha : a < 2 ^ 22
  · obtain ⟨rfl, hsame⟩ := h.near ha
    obtain ⟨f, hf, -, hmap⟩ := ask_map h.lodged (i := a / 2 ^ 12) (by omega) habs
      (.entry (t, a / 2 ^ 12))
    refine ⟨(hmap ⟨rfl, hf⟩ rfl).1, fun _ => ⟨rfl, fun g => ?_⟩, fun hfar => absurd ha hfar.not_gt⟩
    exact ((hmap ⟨rfl, hf⟩ rfl).2.1 g).trans (hsame g)
  · obtain ⟨hslot, hmono⟩ := h.far (not_lt.mp ha)
    obtain ⟨f, hf, h₁, hlost, -, -⟩ := ask_lodged h.lodged (.entry slot)
    obtain ⟨h₂, hlost₂⟩ := h₁.elsewhere (s := slot) hslot.2.1 hslot.2.2.1
    refine ⟨h₂, fun hnear => absurd hnear ha, fun _ => ⟨?_, fun g hg => ?_⟩⟩
    · exact (hlost₂ _).mpr ((hlost _).mpr (.inr hslot))
    · exact (hlost₂ g).mpr ((hlost g).mpr (.inr (hmono g hg)))

/-- Some frame is lost. -/
def Stray (d t : ℕ) (v : Estate) : Prop := ∃ f, Lost d t v f

theorem Found.stray {v v' : Estate} (h : Found d t a v v' slot) :
    Stray d t v' ↔ Stray d t v ∨ 2 ^ 22 ≤ a := by
  by_cases ha : a < 2 ^ 22
  · exact (exists_congr (h.near ha).2).trans (or_iff_left ha.not_ge).symm
  · have hfar := not_lt.mp ha
    exact iff_of_true ⟨slot.1, (h.far hfar).1⟩ (.inr hfar)

/-- The bits that an access sets lead nowhere else. -/
theorem Found.mark {v : Estate} {e : Entry} (h : Found d t a v (estate C D pid w) slot)
    (hp : e.present = (w.memory.entry slot).present)
    (hb : e.baseAddr = (w.memory.entry slot).baseAddr) :
    Found d t a v (estate C D pid (w.setEntry slot e)) slot := by
  obtain ⟨h', hlost⟩ := h.lodged.mark (s := slot) hp hb
  refine ⟨h', fun ha => ?_, fun ha => ?_⟩
  · obtain ⟨hslot, hsame⟩ := h.near ha
    exact ⟨hslot, fun g => (hlost g).trans (hsame g)⟩
  · obtain ⟨hslot, hmono⟩ := h.far ha
    exact ⟨(hlost _).mpr hslot, fun g hg => (hlost g).mpr (hmono g hg)⟩

/-- An access of the process loses a frame if it is not to one of the first pages. -/
theorem handle_access {call : Call} (h : Lodged d t (estate C D pid w))
    (hc : call.access = some (pid, a))
    (hs : Handles K.journaled L addressInSegmentations w call w') :
    Lodged d t (estate C D pid w') ∧
      (Stray d t (estate C D pid w') ↔ Stray d t (estate C D pid w) ∨ 2 ^ 22 ≤ a) := by
  obtain ⟨slot, w₁, hfind, hfound⟩ := findPte_found (L := L) h a
  have hin := pageIn_found hfound
  have hsame : ∀ {slot' w₁'}, findPte K.journaled.toKernel L a pid w = some (slot', w₁') →
      slot = slot' ∧ w₁ = w₁' := fun hfind' =>
    Prod.mk.inj (Option.some.inj (hfind.symm.trans hfind'))
  cases (handle_accessed hc hs).2 with
  | null ha =>
    have hestate : estate C D pid w.raiseSegmentationFault = estate C D pid w := rfl
    rw [hestate, ha]
    exact ⟨h, by simp⟩
  | outside hfind' =>
    obtain ⟨rfl, rfl⟩ := hsame hfind'
    exact ⟨hin.lodged, hin.stray⟩
  | @inside _ _ e memory hfind' hp hb hentry =>
    obtain ⟨rfl, rfl⟩ := hsame hfind'
    have hmarked := hin.mark hp hb
    have hestate : estate C D pid { pageIn K.journaled.toKernel slot w₁ with memory := memory } =
        estate C D pid ((pageIn K.journaled.toKernel slot w₁).setEntry slot e) := by
      simp only [estate, Mmu.setEntry, Memory.setEntry, hentry]
    rw [hestate]
    exact ⟨hmarked.lodged, hmarked.stray⟩

/-! ## Adding a process -/

theorem mapTesting_lodged {i : ℕ} (h : Lodged d t (estate C D pid w)) (hi : i < 1024)
    (habs : (w.memory.entry (t, i)).present = false) :
    Lodged d t (estate C D pid (mapTesting K.journaled.toKernel d i w)) ∧
      (∀ g, Lost d t (estate C D pid (mapTesting K.journaled.toKernel d i w)) g ↔
        Lost d t (estate C D pid w) g) ∧
      ∀ j, j ≠ i →
        (mapTesting K.journaled.toKernel d i w).memory.entry (t, j) = w.memory.entry (t, j) := by
  have hbase : (w.memory.entry (d, 0)).baseAddr = t := h.first.2
  obtain ⟨f, hf, -, hmap⟩ := ask_map h hi habs (.entry (t, i))
  unfold mapTesting mapEntry
  rw [hbase]
  exact hmap ⟨rfl, hf⟩ rfl

/-- A directory and a blank table. -/
theorem lodged_start {v : Estate} (hdt : d ≠ t) (hdir : v.dir = some d)
    (hfirst : (v.entry (d, 0)).present = true ∧ (v.entry (d, 0)).baseAddr = t)
    (hrest : ∀ j, j ≠ 0 → (v.entry (d, j)).present = false)
    (hblank : ∀ i, (v.entry (t, i)).present = false) (hused : v.inUse d ∧ v.inUse t)
    (hjournal : v.journal = { handedOut := [t, d], returned := [] })
    (hcold : ∀ n s, ¬ v.added n s) : Lodged d t v ∧ ¬ Stray d t v := by
  have hhanded : ∀ {f}, f ∈ v.journal.handedOut → f = t ∨ f = d := by
    intro f hf
    simpa [hjournal] using hf
  constructor
  · constructor
    case dir => exact hdir
    case first => exact hfirst
    case rest => exact hrest
    case used =>
      intro f hf
      rcases hhanded hf with rfl | rfl
      exacts [hused.2, hused.1]
    case handed => simp [hjournal, hdt]
    case page => simp [hblank]
    case apart => simp [hblank]
    case known => exact fun hs => absurd hs (hcold _ _)
    case kept => simp [hjournal]
  · rintro ⟨f, hf, hfd, hft, -⟩
    rcases hhanded hf with heq | heq
    exacts [hft heq, hfd heq]

/-- A process starts with a directory, a table and two pages, and nothing is lost. -/
theorem mmuAddProcess_lodged {w : Mmu κ τ} (C : K.Contract) (D : L.Tagged)
    (hcold : ∀ n s, ¬ (w.currPid = pid ∧ D.added w.tlb n s)) :
    ∃ d t, Lodged d t (estate C D pid (mmuAddProcess K.journaled.toKernel pid w.observed)) ∧
      ¬ Stray d t (estate C D pid (mmuAddProcess K.journaled.toKernel pid w.observed)) := by
  obtain ⟨d, hd, hfresh, hestate⟩ := estate_ask C D pid w.observed .null
  unfold mmuAddProcess
  dsimp only
  rw [hd]
  set w₁ := (w.observed.askKernelForFrame K.journaled.toKernel .null).2
  set w₂ : Mmu (κ × Journal) τ := { w₁ with
    pageDirectories := Function.update w₁.pageDirectories pid (some d)
    segmentations := Function.update w₁.segmentations pid segments }
  have hestate₂ : estate C D pid w₂ = { estate C D pid w₁ with dir := some d } := by
    simp [estate, w₂]
  obtain ⟨t, ht, hfresh', hestate₃⟩ := estate_ask C D pid w₂ .null
  set w₃ := (w₂.askKernelForFrame K.journaled.toKernel .null).2
  have hdt : d ≠ t := by
    rintro rfl
    apply hfresh'
    rw [hestate₂, hestate]
    exact .inl rfl
  unfold mapEntry
  rw [ht]
  set e : Entry := { w₃.memory.entry (d, 0) with
    baseAddr := t, present := true, readWrite := true, userSupervisor := true }
  have hentry₁ : ∀ s : Slot, w₁.memory.entry s = if s.1 = d then .zero else w.memory.entry s :=
    congrFun (congrArg Estate.entry hestate)
  have hentry₃ : ∀ s : Slot, w₃.memory.entry s = if s.1 = t then .zero else w₁.memory.entry s :=
    congrFun (congrArg Estate.entry hestate₃)
  have hblank : ∀ i, ((w₃.setEntry (d, 0) e).memory.entry (t, i)).present = false := by
    intro i
    have hne : ((t, i) : Slot) ≠ (d, 0) := fun heq => hdt (Prod.mk.inj heq).1.symm
    rw [show (w₃.setEntry (d, 0) e).memory.entry (t, i) = w₃.memory.entry (t, i) from
      Memory.entry_setEntry_of_ne _ _ hne, hentry₃, if_pos rfl]
    rfl
  have hjournal : w₃.kernel.2 = { handedOut := [t, d], returned := [] } := by
    have h₁ : w₁.kernel.2 = { handedOut := [d], returned := [] } :=
      congrArg Estate.journal hestate
    have h₃ : w₃.kernel.2 = { w₁.kernel.2 with handedOut := t :: w₁.kernel.2.handedOut } :=
      congrArg Estate.journal hestate₃
    rw [h₃, h₁]
  have hused : C.inUse w₃.kernel.1 d ∧ C.inUse w₃.kernel.1 t := by
    have h₁ : C.inUse w₁.kernel.1 d = (d = d ∨ C.inUse w.kernel d) :=
      congrFun (congrArg Estate.inUse hestate) d
    have h₃ : ∀ g, C.inUse w₃.kernel.1 g = (g = t ∨ C.inUse w₁.kernel.1 g) :=
      congrFun (congrArg Estate.inUse hestate₃)
    rw [h₃, h₃, h₁]
    exact ⟨.inr (.inl rfl), .inl rfl⟩
  obtain ⟨h₄, hstray⟩ := lodged_start (v := estate C D pid (w₃.setEntry (d, 0) e)) hdt
    (Function.update_self ..) ⟨by simp [estate, Mmu.setEntry, e], by simp [estate, Mmu.setEntry, e]⟩
    (fun j hj => by
      have hne : ((d, j) : Slot) ≠ (d, 0) := fun heq => hj (Prod.mk.inj heq).2
      rw [show (estate C D pid (w₃.setEntry (d, 0) e)).entry (d, j) = w₃.memory.entry (d, j) from
        Memory.entry_setEntry_of_ne _ _ hne, hentry₃, if_neg hdt, hentry₁, if_pos rfl]
      rfl)
    hblank hused hjournal hcold
  obtain ⟨h₅, hlost₅, hkeep⟩ := mapTesting_lodged (i := 1) h₄ (by decide) (hblank 1)
  obtain ⟨h₆, hlost₆, -⟩ := mapTesting_lodged (i := 2) h₅ (by decide)
    ((congrArg Entry.present (hkeep 2 (by decide))).trans (hblank 2))
  refine ⟨d, t, h₆, ?_⟩
  rintro ⟨g, hg⟩
  exact hstray ⟨g, (hlost₅ g).mp ((hlost₆ g).mp hg)⟩

/-! ## Removing a process -/

/-- The frames of a list of releases. -/
def framesOf (releases : List Release) : List ℕ :=
  releases.filterMap fun
    | .frame f => some f
    | .swapFile _ => none

/-- The journal notes the frames of the list, the last one first. -/
theorem journal_releases (releases : List Release) (k : κ × Journal) :
    (releases.foldl (Release.run K.journaled) k).2 =
      { k.2 with returned := (framesOf releases).reverse ++ k.2.returned } := by
  induction releases generalizing k with
  | nil => rfl
  | cons r rs ih =>
    rw [List.foldl_cons, ih]
    cases r with
    | frame f => simp [Release.run, FrameKernel.journaled, framesOf]
    | swapFile s => rfl

/-- The frames of the pages of a table. -/
def pagesOf (t : ℕ) (m : Memory) : List ℕ :=
  (List.range 1024).flatMap fun i =>
    if (m.entry (t, i)).present then [(m.entry (t, i)).baseAddr] else []

theorem nodup_pagesOf {m : Memory}
    (hinj : ∀ i i', (m.entry (t, i)).present = true → (m.entry (t, i')).present = true →
      (m.entry (t, i)).baseAddr = (m.entry (t, i')).baseAddr → i = i') : (pagesOf t m).Nodup := by
  apply List.nodup_flatMap.mpr
  constructor
  · intro i _
    split_ifs <;> simp
  · apply List.nodup_range.imp
    intro i i' hne
    simp only [Function.onFun]
    split_ifs with hi hi'
    · simpa using fun heq => hne (hinj i i' hi hi' heq.symm)
    all_goals simp

theorem framesOf_append (as bs : List Release) :
    framesOf (as ++ bs) = framesOf as ++ framesOf bs := by
  simp [framesOf]

theorem framesOf_flatMap (xs : List ℕ) (out : ℕ → List Release) :
    framesOf (xs.flatMap out) = xs.flatMap fun x => framesOf (out x) := by
  induction xs with
  | nil => rfl
  | cons x xs ih => rw [List.flatMap_cons, framesOf_append, ih, List.flatMap_cons]

theorem framesOf_table {m : Memory} (hp : (m.entry slot).present = true)
    (ht : (m.entry slot).baseAddr = t) : framesOf (tableReleases m slot) = pagesOf t m ++ [t] := by
  have hpage : ∀ i, framesOf (pageReleases m (t, i)) =
      if (m.entry (t, i)).present then [(m.entry (t, i)).baseAddr] else [] := by
    intro i
    unfold pageReleases
    split_ifs <;> rfl
  unfold tableReleases pagesOf
  rw [if_pos hp, ht, framesOf_append, framesOf_flatMap]
  simp only [hpage]
  rfl

/-- Of the entries of the directory only the first one counts. -/
theorem framesOf_directory (h : Lodged d t (estate C D pid w)) :
    framesOf (directoryReleases w.memory d) = pagesOf t w.memory ++ [t, d] := by
  have hrest : ∀ n, (List.range (n + 1)).flatMap (fun j => tableReleases w.memory (d, j)) =
      tableReleases w.memory (d, 0) := by
    intro n
    induction n with
    | zero => simp
    | succ n ih =>
      have habs : (w.memory.entry (d, n + 1)).present = false := h.rest (n + 1) (by omega)
      have hempty : tableReleases w.memory (d, n + 1) = [] := if_neg (by simp [habs])
      rw [List.range_succ, List.flatMap_append, ih]
      simp [hempty]
  unfold directoryReleases
  rw [hrest 1023, framesOf_append, framesOf_table h.first.1 h.first.2]
  simp [framesOf]

/-- The frames that come back are those to which the directory leads. -/
theorem mmuRemoveProcess_returned (h : Lodged d t (estate C D pid w)) :
    (mmuRemoveProcess K.journaled L pid w).kernel.2 =
      { w.kernel.2 with returned := d :: t :: (pagesOf t w.memory).reverse } := by
  have hreturned : w.kernel.2.returned = [] := h.kept
  rw [mmuRemoveProcess_some L h.dir]
  dsimp only
  rw [journal_releases, framesOf_directory h, hreturned]
  simp

/-- What is lost does not come back, and all else comes back once. -/
theorem returned_once_iff (h : Lodged d t (estate C D pid w)) :
    (∀ f ∈ w.kernel.2.handedOut, (d :: t :: (pagesOf t w.memory).reverse).count f = 1) ↔
      ¬ Stray d t (estate C D pid w) := by
  have hmem : ∀ {f}, f ∈ pagesOf t w.memory ↔ ∃ i < 1024,
      (w.memory.entry (t, i)).present = true ∧ (w.memory.entry (t, i)).baseAddr = f := by
    intro f
    simp only [pagesOf, List.mem_flatMap, List.mem_range]
    refine exists_congr fun i => and_congr_right fun _ => ?_
    split_ifs with hi
    · simp [hi, eq_comm]
    · simp [hi]
  have hpage : ∀ {f}, f ∈ pagesOf t w.memory → f ≠ d ∧ f ≠ t := by
    intro f hf
    obtain ⟨i, -, hi, rfl⟩ := hmem.mp hf
    exact (h.page hi).2.2
  have hnodup : (d :: t :: (pagesOf t w.memory).reverse).Nodup := by
    have hpages := nodup_pagesOf (m := w.memory) fun i i' hi hi' => h.apart hi hi'
    simp only [List.nodup_cons, List.mem_cons, List.mem_reverse, not_or, List.nodup_reverse]
    exact ⟨⟨h.handed.2.2, fun hd => (hpage hd).1 rfl⟩, fun ht => (hpage ht).2 rfl, hpages⟩
  constructor
  · rintro hall ⟨f, hf, hfd, hft, hstray⟩
    have hcount := List.count_pos_iff.mp ((hall f hf).symm ▸ Nat.one_pos)
    simp only [List.mem_cons, hfd, hft, false_or, List.mem_reverse] at hcount
    obtain ⟨i, -, hi, hbase⟩ := hmem.mp hcount
    exact hstray i hi hbase
  · intro hstray f hf
    apply List.count_eq_one_of_mem hnodup
    by_contra hnot
    simp only [List.mem_cons, not_or, List.mem_reverse, hmem, not_exists, not_and] at hnot
    exact hstray ⟨f, hf, hnot.1, hnot.2.1, fun i hi => hnot.2.2 i (h.page hi).1 hi⟩

/-! ## A lifetime -/

/-- Frames get lost by accesses to other than the first pages, and by nothing else. -/
theorem run_lodged {accesses : List Call} (h : Lodged d t (estate C D pid w))
    (hacc : ∀ call ∈ accesses, ∃ a, call.access = some (pid, a))
    (hr : Run (Handles K.journaled L addressInSegmentations) w accesses w') :
    Lodged d t (estate C D pid w') ∧ (Stray d t (estate C D pid w') ↔
      Stray d t (estate C D pid w) ∨
        ∃ call ∈ accesses, ∃ a, call.access = some (pid, a) ∧ 2 ^ 22 ≤ a) := by
  induction hr with
  | refl => exact ⟨h, by simp⟩
  | @tail as _ call _ _ hs ih =>
    obtain ⟨h', hstray⟩ := ih fun c hc => hacc c (List.mem_append_left _ hc)
    obtain ⟨a, hc⟩ := hacc call (List.mem_append_right _ List.mem_cons_self)
    obtain ⟨h'', hstray'⟩ := handle_access h' hc hs
    refine ⟨h'', ?_⟩
    rw [hstray', hstray, or_assoc]
    simp [hc, or_and_right, exists_or]

/-- The lifetime of a process that finds nothing of its own in the TLB. -/
theorem returned_of_cold (C : K.Contract) (D : L.Tagged) {accesses : List Call} {w₀ : Mmu κ τ}
    (hcold : w₀.pageDirectories pid = none → ∀ n s, ¬ (w₀.currPid = pid ∧ D.added w₀.tlb n s))
    (hacc : ∀ call ∈ accesses, ∃ a, call.access = some (pid, a))
    (hlife : Run (Handles K.journaled L addressInSegmentations) w₀.observed
      (.add pid :: accesses ++ [.remove pid]) w) :
    (∀ f ∈ w.kernel.2.handedOut, w.kernel.2.returned.count f = 1) ↔
      ∀ call ∈ accesses, ∀ a, call.access = some (pid, a) → a < 2 ^ 22 := by
  obtain ⟨w₂, hrun, hremove⟩ := hlife.unsnoc
  obtain ⟨w₁, hadd, haccs⟩ := hrun.uncons
  rw [Handles, handle] at hadd
  split_ifs at hadd with hnew
  obtain rfl := Option.some.inj hadd
  obtain rfl := Option.some.inj hremove
  obtain ⟨d, t, h₁, hnone⟩ := mmuAddProcess_lodged C D (hcold hnew)
  obtain ⟨h₂, hstray⟩ := run_lodged h₁ hacc haccs
  rw [mmuRemoveProcess_returned h₂]
  refine (returned_once_iff h₂).trans ?_
  rw [hstray]
  simp [hnone]

/-- From any state that the unit reaches: a new process is added, it reads and writes, and it is
removed. Every frame that the kernel handed out for it has come back, exactly once, if and only if
all its accesses were to the first 4 MB. -/
theorem lifetime_returned_iff (C : K.Contract) (D : L.Tagged) {kernel : κ} {memory : Memory}
    {before accesses : List Call} {w₀ : Mmu κ τ}
    (hr : Run (Handles K L addressInSegmentations) (mmuCreate L kernel memory) before w₀)
    (hacc : ∀ call ∈ accesses, ∃ a, call.access = some (pid, a))
    (hlife : Run (Handles K.journaled L addressInSegmentations) w₀.observed
      (.add pid :: accesses ++ [.remove pid]) w) :
    (∀ f ∈ w.kernel.2.handedOut, w.kernel.2.returned.count f = 1) ↔
      ∀ call ∈ accesses, ∀ a, call.access = some (pid, a) → a < 2 ^ 22 := by
  apply returned_of_cold C D _ hacc hlife
  intro hnew n s hs
  exact run_known D hr n s hs.2 (hs.1 ▸ hnew)

/-- The unit before any process is added, on the kernel that keeps a list. -/
def powered : Mmu (List ℕ) (ℕ → Option Slot) :=
  mmuCreate plainTlb [] ⟨fun _ => .zero, fun _ => 0⟩

/-- A process uses a page of its first table only, and its frames all come back. -/
theorem lifetime_returned_iff_testing : ∃ w : Mmu (List ℕ × Journal) (ℕ → Option Slot),
    Run (Handles listKernel.journaled plainTlb inSegments) powered.observed
      [.add 1, .write 1 4096 [7], .read 1 4096 1, .remove 1] w ∧
      ∀ f ∈ w.kernel.2.handedOut, w.kernel.2.returned.count f = 1 := by
  have hfold : (([.add 1, .write 1 4096 [7], .read 1 4096 1].foldlM
      (handle listKernel.journaled plainTlb inSegments) powered.observed).map
        fun w => w.kernel.2.handedOut) = some [4, 3, 2, 1] := by
    decide +kernel
  obtain ⟨w₁, hw, -⟩ := Option.map_eq_some_iff.mp hfold
  have hrun := (Run.of_fold hw).tail (a := .remove 1) rfl
  have hacc : ∀ call ∈ [Call.write 1 4096 [7], .read 1 4096 1],
      ∃ a, call.access = some (1, a) := by simp [Call.access]
  refine ⟨_, hrun, ?_⟩
  apply (lifetime_returned_iff listKernelContract plainTlbTagged .refl hacc hrun).mpr
  simp [Call.access]

/-- A byte is written to the first data page, and the table made for that page is never returned. -/
theorem not_lifetime_returned :
    ¬ ∀ (κ τ : Type) (K : FrameKernel κ) (L : Tlb τ)
      (addressInSegmentations : List VmSegmentation → ℕ → Bool) (_ : K.Contract) (_ : L.Tagged)
      (kernel : κ) (memory : Memory) (before accesses : List Call) (w₀ : Mmu κ τ) (pid : ℕ)
      (w : Mmu (κ × Journal) τ),
      Run (Handles K L addressInSegmentations) (mmuCreate L kernel memory) before w₀ →
      (∀ call ∈ accesses, ∃ a, a ≠ 0 ∧ call.access = some (pid, a)) →
      Run (Handles K.journaled L addressInSegmentations) w₀.observed
        (.add pid :: accesses ++ [.remove pid]) w →
        ∀ f ∈ w.kernel.2.handedOut, w.kernel.2.returned.count f = 1 := by
  intro hall
  have hfold : (([.add 1, .write 1 0x08052000 [7]].foldlM
      (handle listKernel.journaled plainTlb inSegments) powered.observed).map
        fun w => w.kernel.2.handedOut) = some [6, 5, 4, 3, 2, 1] := by
    decide +kernel
  obtain ⟨w₁, hw, -⟩ := Option.map_eq_some_iff.mp hfold
  have hrun := (Run.of_fold hw).tail (a := .remove 1) rfl
  have hreturned := hall _ _ listKernel plainTlb inSegments listKernelContract plainTlbTagged _ _ _
    [.write 1 0x08052000 [7]] powered 1 _ .refl (by simp [Call.access]) hrun
  have hnear := (returned_of_cold listKernelContract plainTlbTagged
    (fun _ n s hs => plainTlbTagged.create n s hs.2) (by simp [Call.access]) hrun).mp hreturned
  have hfar := hnear _ List.mem_cons_self 0x08052000 rfl
  exact absurd hfar (by decide)

end Cs241.Paging
