import Cs241.Paging.Midway
import Cs241.Paging.Releases

/-!
# Processes do not reach each other's frames

Removing a process gives back only its own frames. With the calls of `Midway`
this makes a step of the unit keep the invariant, whatever processes come and go,
and an access leaves the frames of all other processes as they are.
-/
namespace Cs241.Paging

open Foundation

variable {κ τ : Type*} {K : FrameKernel κ} {L : Tlb τ}
  {addressInSegmentations : List VmSegmentation → ℕ → Bool}

variable {C : K.Contract} {D : L.Tagged} {life : ℕ → Life} {kernel : κ} {pid : ℕ}
  {tables : ℕ → ℕ → Prop} {w w' : Mmu κ τ} {slot : Slot} {a : ℕ}

/-- A part of `mmuRemoveProcess`: only frames of the process are given back. -/
structure Released (C : K.Contract) (mine : ℕ → Prop) (w w' : Mmu κ τ) : Prop where
  rest : w'.memory = w.memory ∧ w'.tlb = w.tlb ∧ w'.currPid = w.currPid ∧
    w'.pageDirectories = w.pageDirectories
  kept : ∀ f, C.inUse w.kernel f → ¬ mine f → C.inUse w'.kernel f

/-- A frame that is not on the list stays in use. -/
theorem inUse_releases (C : K.Contract) {releases : List Release} {k : κ} {f : ℕ}
    (hf : C.inUse k f) (hnot : .frame f ∉ releases) :
    C.inUse (releases.foldl (Release.run K) k) f := by
  induction releases generalizing k with
  | nil => exact hf
  | cons r rs ih =>
    obtain ⟨hr, hrs⟩ : .frame f ≠ r ∧ .frame f ∉ rs := by simpa using hnot
    apply ih _ hrs
    cases r with
    | frame g =>
      refine (C.giveBack k g f).mpr ⟨?_, hf⟩
      rintro rfl
      exact hr rfl
    | swapFile s => exact (C.removeSwap k s f).mpr hf

/-- What `mmuRemoveProcess` does beside giving frames back. -/
theorem mmuRemoveProcess_released (C : K.Contract) (L : Tlb τ) (pid : ℕ) (w : Mmu κ τ)
    (mine : ℕ → Prop)
    (hmine : ∀ d, w.pageDirectories pid = some d → mine d ∧
      ∀ j, (w.memory.entry (d, j)).present = true → mine (w.memory.entry (d, j)).baseAddr ∧
        ∀ i, (w.memory.entry ((w.memory.entry (d, j)).baseAddr, i)).present = true →
          mine (w.memory.entry ((w.memory.entry (d, j)).baseAddr, i)).baseAddr) :
    ∃ w₁, Released C mine w w₁ ∧ mmuRemoveProcess K L pid w = { w₁ with
      pageDirectories := Function.update w.pageDirectories pid none
      segmentations := Function.update w₁.segmentations pid []
      tlb := if w.currPid = pid then L.flush w.tlb else w.tlb } := by
  cases hd : w.pageDirectories pid with
  | none => exact ⟨w, ⟨⟨rfl, rfl, rfl, rfl⟩, fun _ hf _ => hf⟩, mmuRemoveProcess_none K L hd⟩
  | some d =>
    obtain ⟨hdir, htables⟩ := hmine d hd
    have hreached : ∀ f, Reached w.memory d f → mine f := by
      rintro f (rfl | ⟨t, ⟨j, -, hj, rfl⟩, rfl | ⟨i, -, hi, rfl⟩⟩)
      exacts [hdir, (htables j hj).1, (htables j hj).2 i hi]
    have hkept : ∀ f, C.inUse w.kernel f → ¬ mine f →
        C.inUse ((directoryReleases w.memory d).foldl (Release.run K) w.kernel) f :=
      fun f hf hnot => inUse_releases C hf fun hmem =>
        hnot (hreached f (frame_mem_directoryReleases.mp hmem))
    have heq := mmuRemoveProcess_some (K := K) L hd
    generalize (directoryReleases w.memory d).foldl (Release.run K) w.kernel = k at hkept heq
    exact ⟨{ w with kernel := k }, ⟨⟨rfl, rfl, rfl, rfl⟩, hkept⟩, heq⟩

theorem mmuRemoveProcess_dirs (C : K.Contract) (w : Mmu κ τ) :
    (mmuRemoveProcess K L pid w).pageDirectories = Function.update w.pageDirectories pid none := by
  obtain ⟨w₁, -, heq⟩ := mmuRemoveProcess_released C L pid w (fun _ => True) fun _ _ =>
    ⟨trivial, fun _ _ => ⟨trivial, fun _ _ => trivial⟩⟩
  rw [heq]

/-- Only frames of the process are given back when it is removed. -/
theorem mmuRemoveProcess_apart (h : Midway C D life w.kernel pid tables w) :
    Apart (scene C D life (mmuRemoveProcess K L pid w).kernel 0 tables
      (mmuRemoveProcess K L pid w)) ∧
      (mmuRemoveProcess K L pid w).currPid = w.currPid ∧
      ∀ n s, D.added (mmuRemoveProcess K L pid w).tlb n s →
        D.added w.tlb n s ∧ w.currPid ≠ pid := by
  have hown : ∀ {f}, (scene C D life w.kernel pid tables w).frames pid f → (life pid).frames f :=
    fun hf => by rwa [scene_frames] at hf
  obtain ⟨w₁, hrel, heq⟩ := mmuRemoveProcess_released C L pid w
    (fun f => w.pageDirectories pid ≠ none ∧ (life pid).frames f) fun d hd => by
      have hlive : w.pageDirectories pid ≠ none := live_of_dirs hd
      refine ⟨⟨hlive, hown (h.apart.directory hd).1⟩, fun j hj => ?_⟩
      have ht := h.apart.linked hd hj
      exact ⟨⟨hlive, hown (h.apart.table hlive ht)⟩,
        fun i hi => ⟨hlive, hown (h.apart.page hlive ht hi).1⟩⟩
  obtain ⟨hmem, -, hpid, -⟩ := hrel.rest
  have hadded : ∀ {n s}, D.added (mmuRemoveProcess K L pid w).tlb n s →
      D.added w.tlb n s ∧ w.currPid ≠ pid := by
    intro n s hs
    rw [heq] at hs
    dsimp only at hs
    split_ifs at hs with hcurr
    · exact absurd hs (D.flush _ _ _)
    · exact ⟨hs, hcurr⟩
  refine ⟨?_, by rw [heq]; exact hpid, fun n s hs => hadded hs⟩
  have hleave := h.apart.leave pid (C.inUse w₁.kernel)
    (fun f hf hnot => hrel.kept f hf fun hmine =>
      hnot hmine.1 (by rw [scene_frames]; exact hmine.2))
    hadded
  have hscene : scene C D life (mmuRemoveProcess K L pid w).kernel 0 tables
      (mmuRemoveProcess K L pid w) = { scene C D life w.kernel pid tables w with
        inUse := C.inUse w₁.kernel
        added := D.added (mmuRemoveProcess K L pid w).tlb
        dirs := Function.update w.pageDirectories pid none } := by
    rw [heq]
    simp only [scene, hmem, hpid]
    congr 1
    funext q f
    simp
  rw [hscene]
  exact hleave

/-! ## Runs -/

/-- A step of the unit and of the histories of its processes. -/
def Serves (K : FrameKernel κ) (L : Tlb τ)
    (addressInSegmentations : List VmSegmentation → ℕ → Bool) (C : K.Contract)
    (w : Tenants κ τ) (call : Call) (w' : Tenants κ τ) : Prop :=
  serve L addressInSegmentations C w call = some w'

/-- No allowed call follows a null pointer. -/
theorem serve_allowed {w : Tenants κ τ} {call : Call} (hc : call.Allowed w.mmu) :
    ∃ w', Serves K L addressInSegmentations C w call w' := by
  have hfind : ∀ {pid} (a : ℕ), w.mmu.pageDirectories pid ≠ none →
      ∃ slot w₁, findPte K.toKernel L a pid w.mmu = some (slot, w₁) := by
    intro pid a hp
    obtain ⟨d, hd⟩ := Option.ne_none_iff_exists'.mp hp
    unfold findPte
    dsimp only
    split
    · exact ⟨_, _, rfl⟩
    · rw [(switchTo_rest L pid w.mmu).2, hd]
      exact ⟨_, _, rfl⟩
  cases call with
  | add pid => exact ⟨_, if_pos hc⟩
  | remove pid => exact ⟨_, rfl⟩
  | read pid a n =>
    obtain ⟨slot, w₁, hfound⟩ := hfind a hc.1
    have hallowed : Allowed w.mmu a pid n := hc
    simp only [Serves, serve, mmuReadFromVirtualAddress, hfound, hallowed, if_true]
    split_ifs <;> exact ⟨_, rfl⟩
  | write pid a buffer =>
    obtain ⟨slot, w₁, hfound⟩ := hfind a hc.1
    have hallowed : Allowed w.mmu a pid buffer.length := hc
    simp only [Serves, serve, mmuWriteToVirtualAddress, hfound, hallowed, if_true]
    split_ifs <;> exact ⟨_, rfl⟩

/-- What holds between two calls. -/
structure Tenants.Inv (C : K.Contract) (D : L.Tagged) (w : Tenants κ τ) : Prop where
  apart : ∃ tables, Apart (scene C D w.life w.mmu.kernel 0 tables w.mmu)
  cached : ∀ n s, D.added w.mmu.tlb n s → (w.life w.mmu.currPid).cached n s

/-- Every process may be the next to call. -/
theorem Midway.start (pid : ℕ) (h : Apart (scene C D life w.kernel 0 tables w)) :
    Midway C D life w.kernel pid tables w := by
  refine ⟨?_, fun _ hf => hf⟩
  have hscene : scene C D life w.kernel pid tables w = scene C D life w.kernel 0 tables w := by
    have hframes :=
      (scene_frames C D life pid tables w).trans (scene_frames C D life 0 tables w).symm
    simp only [scene] at hframes ⊢
    rw [hframes]
  rw [hscene]
  exact h

/-- After a call its frames are part of the life of the process. -/
theorem Midway.settle {l : Life} (h : Midway C D life w.kernel pid tables w')
    (hl : ∀ f, l.frames f ↔ (life pid).frames f ∨ (¬ C.inUse w.kernel f ∧ C.inUse w'.kernel f)) :
    Apart (scene C D (Function.update life pid l) w'.kernel 0 tables w') := by
  have hscene : scene C D (Function.update life pid l) w'.kernel 0 tables w' =
      scene C D life w.kernel pid tables w' := by
    have hframes : (scene C D (Function.update life pid l) w'.kernel 0 tables w').frames =
        (scene C D life w.kernel pid tables w').frames := by
      rw [scene_frames]
      funext q f
      apply propext
      by_cases hq : q = pid
      · subst hq
        simp [scene, hl]
      · simp [scene, hq]
    simp only [scene] at hframes ⊢
    rw [hframes]
  rw [hscene]
  exact h.apart

theorem inv_created {kernel : κ} {memory : Memory} {life : ℕ → Life} :
    Tenants.Inv C D ⟨mmuCreate L kernel memory, life⟩ := by
  refine ⟨⟨fun _ _ => False, ?_⟩, fun n s hs => absurd hs (D.create n s)⟩
  constructor
  case known => exact fun hs => absurd hs (D.create _ _)
  all_goals simp [scene, mmuCreate]

/-- A read or a write keeps the invariant. -/
theorem Tenants.Inv.served {w : Tenants κ τ} {mmu : Mmu κ τ} (hi : w.Inv C D)
    (h : Served C D w.life pid a w.mmu mmu) :
    Tenants.Inv C D ⟨mmu, Function.update w.life pid
      ((w.life pid).after C w.mmu mmu (a / 2 ^ 12) (tlbAdded K L a pid w.mmu))⟩ := by
  obtain ⟨tables, hmid⟩ := h.midway
  refine ⟨⟨tables, hmid.settle fun _ => Iff.rfl⟩, fun n s hs => ?_⟩
  have hgrow : ∀ q, (w.life q).cached n s → (Function.update w.life pid
      ((w.life pid).after C w.mmu mmu (a / 2 ^ 12) (tlbAdded K L a pid w.mmu)) q).cached n s := by
    intro q hq
    by_cases hqp : q = pid
    · subst hqp
      rw [Function.update_self]
      exact .inl hq
    · rwa [Function.update_of_ne hqp]
  rcases h.added n s hs with ⟨hcurr, hold⟩ | ⟨hcurr, hnew⟩
  · dsimp only
    rw [hcurr]
    exact hgrow _ (hi.cached n s hold)
  · dsimp only
    rw [hcurr, Function.update_self]
    exact .inr hnew

theorem Tenants.Inv.step {w w' : Tenants κ τ} {call : Call} (hi : w.Inv C D)
    (hs : Serves K L addressInSegmentations C w call w') : w'.Inv C D := by
  obtain ⟨tables, hapart⟩ := hi.apart
  cases call with
  | add pid =>
    rw [Serves, serve] at hs
    split_ifs at hs with hnew
    obtain rfl := Option.some.inj hs
    obtain ⟨⟨tables', hmid⟩, htlb, hcurr⟩ := mmuAddProcess_midway (.start pid hapart) hnew
    refine ⟨⟨tables', ?_⟩, fun n s hs => ?_⟩
    · have hsettle := hmid.settle (l := Life.empty.after C w.mmu
        (mmuAddProcess K.toKernel pid w.mmu) 0 none) fun f => by
          rw [Function.update_self]
          exact Iff.rfl
      rwa [Function.update_idem] at hsettle
    · dsimp only at hs ⊢
      rw [htlb] at hs
      have hne : w.mmu.currPid ≠ pid := fun hc =>
        (hapart.known hs).1 ((congrArg w.mmu.pageDirectories hc).trans hnew)
      rw [hcurr, Function.update_of_ne hne]
      exact hi.cached n s hs
  | remove pid =>
    obtain rfl := Option.some.inj hs
    obtain ⟨h, hcurr, hadded⟩ := mmuRemoveProcess_apart (.start pid hapart)
    refine ⟨⟨tables, h⟩, fun n s hs => ?_⟩
    dsimp only at hs ⊢
    rw [hcurr]
    exact hi.cached n s (hadded n s hs).1
  | read pid a n =>
    rw [Serves, serve] at hs
    split_ifs at hs with hallowed
    obtain ⟨⟨result, mmu⟩, hread, rfl⟩ := Option.map_eq_some_iff.mp hs
    exact hi.served (read_served (.start pid hapart) hallowed.1 hread)
  | write pid a buffer =>
    rw [Serves, serve] at hs
    split_ifs at hs with hallowed
    obtain ⟨mmu, hwrite, rfl⟩ := Option.map_eq_some_iff.mp hs
    exact hi.served (write_served (.start pid hapart) hallowed.1 hwrite)

/-! ## What an access leaves alone -/

namespace Memory.SameFrame

variable {m m' m'' : Memory} {f : ℕ}

theorem refl (m : Memory) (f : ℕ) : m.SameFrame m f := ⟨fun _ => rfl, fun _ _ => rfl⟩

theorem trans (h : m.SameFrame m' f) (h' : m'.SameFrame m'' f) : m.SameFrame m'' f :=
  ⟨fun i => (h'.1 i).trans (h.1 i), fun off hoff => (h'.2 off hoff).trans (h.2 off hoff)⟩

theorem setEntry {e : Entry} (hf : f ≠ slot.1) : m.SameFrame (m.setEntry slot e) f := by
  refine ⟨fun i => m.entry_setEntry_of_ne e ?_, fun _ _ => rfl⟩
  rintro rfl
  exact hf rfl

theorem ask (C : K.Contract) {ref : Ref}
    (hf : f ≠ (w.askKernelForFrame K.toKernel ref).1 / 4096) :
    w.memory.SameFrame (w.askKernelForFrame K.toKernel ref).2.memory f := by
  obtain ⟨g, haddr, -, -, hmem⟩ := C.ask w.kernel w.memory ref
  have hfg : f ≠ g := by
    rintro rfl
    apply hf
    change f = (K.askForFrame w.kernel w.memory ref).1 / 4096
    rw [haddr]
    omega
  rw [show (w.askKernelForFrame K.toKernel ref).2.memory = w.memory.zero g from hmem]
  exact ⟨fun i => Memory.entry_zero_of_ne _ _ hfg,
    fun off hoff => (Memory.page_zero _ _ _ hoff).trans (if_neg hfg)⟩

theorem read (C : K.Contract) (w : Mmu κ τ) (ref : Ref) (f : ℕ) :
    w.memory.SameFrame (w.readPageFromDisk K.toKernel ref).memory f := by
  rw [show (w.readPageFromDisk K.toKernel ref).memory = w.memory from (C.read _ _ ref).2]
  exact refl _ _

theorem write {bytes : List UInt8} {g o : ℕ} (hf : f ≠ g) (ho : bytes.length + o ≤ 4096) :
    m.SameFrame (m.write (o + g * 4096) bytes) f :=
  ⟨fun _ => rfl, fun _ hoff => (Memory.page_write _ _ _ _ hoff ho).trans (if_neg fun h => hf h.1)⟩

theorem directoryEntry {d j : ℕ} (C : K.Contract)
    (hf : f ≠ (Paging.directoryEntry K.toKernel d j w).1.baseAddr) :
    w.memory.SameFrame (Paging.directoryEntry K.toKernel d j w).2.memory f := by
  unfold Paging.directoryEntry at hf ⊢
  dsimp only at hf ⊢
  split_ifs at hf ⊢ with hj
  · exact refl _ _
  · exact (ask C hf).trans (read C _ _ f)

theorem findPte (C : K.Contract) (hfind : Paging.findPte K.toKernel L a pid w = some (slot, w'))
    (hf : f ≠ slot.1) : w.memory.SameFrame w'.memory f := by
  obtain ⟨hswitch, -⟩ := switchTo_rest L pid w
  unfold Paging.findPte at hfind
  dsimp only at hfind
  split at hfind
  · obtain ⟨-, rfl⟩ := Prod.mk.inj (Option.some.inj hfind)
    exact hswitch ▸ refl w.memory f
  · obtain ⟨d, -, hmiss⟩ := Option.map_eq_some_iff.mp hfind
    obtain ⟨rfl, rfl⟩ := Prod.mk.inj hmiss
    rw [← hswitch]
    exact directoryEntry C hf

theorem pageIn (C : K.Contract) (hf : f ≠ slot.1)
    (hbase : f ≠ ((Paging.pageIn K.toKernel slot w).memory.entry slot).baseAddr) :
    w.memory.SameFrame (Paging.pageIn K.toKernel slot w).memory f := by
  unfold Paging.pageIn at hbase ⊢
  split_ifs at hbase ⊢ with hp
  · exact refl _ _
  · dsimp only at hbase ⊢
    have hread := (C.read (w.askKernelForFrame K.toKernel (.entry slot)).2.kernel
      ((w.askKernelForFrame K.toKernel (.entry slot)).2.setEntry slot
        { (w.askKernelForFrame K.toKernel (.entry slot)).2.memory.entry slot with
          baseAddr := (w.askKernelForFrame K.toKernel (.entry slot)).1 / 4096
          present := true }).memory (.entry slot)).2
    have hentry := congrArg (fun m : Memory => (m.entry slot).baseAddr) hread
    refine ((ask C ?_).trans (setEntry hf)).trans (read C _ _ f)
    exact fun heq => hbase (heq.trans (hentry.trans (by simp [Mmu.setEntry])).symm)

/-- An access that finds its page changes the frames of the table and of the page only. -/
theorem located (C : K.Contract) (ha : a ≠ 0) (hfind : Paging.findPte K.toKernel L a pid w =
    some (slot, w')) (hf : f ∉ touched K L a pid w) :
    w.memory.SameFrame (Paging.pageIn K.toKernel slot w').memory f ∧ f ≠ slot.1 ∧
      f ≠ ((Paging.pageIn K.toKernel slot w').memory.entry slot).baseAddr := by
  have hnot : f ∉ [slot.1, ((Paging.pageIn K.toKernel slot w').memory.entry slot).baseAddr] := by
    simp only [touched, ha, if_false, hfind] at hf
    cases hget : (L.getPte (switchTo L pid w).tlb (a / 2 ^ 12)).1 with
    | some _ => simpa only [hget] using hf
    | none =>
      simp only [hget] at hf
      exact fun hmem => hf (List.mem_append_right _ hmem)
  simp only [List.mem_cons, List.not_mem_nil, or_false, not_or] at hnot
  exact ⟨(findPte C hfind hnot.1).trans (pageIn C hnot.1 hnot.2), hnot⟩

end Memory.SameFrame

/-- An access leaves the frames alone that it does not go through. -/
theorem serve_same {w w' : Tenants κ τ} {call : Call} {p f : ℕ}
    (hs : Serves K L addressInSegmentations C w call w') (hc : call.access = some (p, a))
    (hf : f ∉ touched K L a p w.mmu) : w.mmu.memory.SameFrame w'.mmu.memory f := by
  cases call with
  | add _ | remove _ => simp [Call.access] at hc
  | read pid b n =>
    obtain ⟨rfl, rfl⟩ := Prod.mk.inj (Option.some.inj hc)
    rw [Serves, serve] at hs
    split_ifs at hs with hallowed
    obtain ⟨⟨result, mmu⟩, hread, rfl⟩ := Option.map_eq_some_iff.mp hs
    unfold mmuReadFromVirtualAddress at hread
    split_ifs at hread with ha
    · obtain ⟨-, rfl⟩ := Prod.mk.inj (Option.some.inj hread)
      exact .refl _ _
    obtain ⟨⟨slot, w₁⟩, hfind, hread⟩ := Option.map_eq_some_iff.mp hread
    obtain ⟨hsame, htable, -⟩ := Memory.SameFrame.located C ha hfind hf
    dsimp only at hread
    split_ifs at hread
    · obtain ⟨-, rfl⟩ := Prod.mk.inj hread
      exact hsame.trans (.setEntry htable)
    · obtain ⟨-, rfl⟩ := Prod.mk.inj hread
      exact hsame
  | write pid b buffer =>
    obtain ⟨rfl, rfl⟩ := Prod.mk.inj (Option.some.inj hc)
    rw [Serves, serve] at hs
    split_ifs at hs with hallowed
    obtain ⟨mmu, hwrite, rfl⟩ := Option.map_eq_some_iff.mp hs
    unfold mmuWriteToVirtualAddress at hwrite
    split_ifs at hwrite with ha
    · obtain rfl := Option.some.inj hwrite
      exact .refl _ _
    obtain ⟨⟨slot, w₁⟩, hfind, rfl⟩ := Option.map_eq_some_iff.mp hwrite
    obtain ⟨hsame, htable, hpage⟩ := Memory.SameFrame.located C ha hfind hf
    dsimp only
    split_ifs
    · exact (hsame.trans (.setEntry htable)).trans (.write hpage hallowed.2.2)
    · exact hsame

/-- No access goes through a frame of another process that is present. -/
theorem Tenants.Inv.untouched {w : Tenants κ τ} {p q f : ℕ} (hi : w.Inv C D) (hp : w.Live p)
    (hq : w.Live q) (hne : q ≠ p) (hf : (w.life q).frames f) : f ∉ touched K L a p w.mmu := by
  intro hmem
  obtain ⟨tables, hapart⟩ := hi.apart
  by_cases ha : a = 0
  · simp [touched, ha] at hmem
  obtain ⟨slot, w₁, tables', -, h₁, -, hdirs, -, -, -, htouched⟩ :=
    locate_midway (.start p hapart) hp ha
  refine hne (h₁.apart.disjoint (f := f) ?_ ?_ (.inl hf) (htouched f hmem))
  · exact fun hnone => hq ((congrFun hdirs q).symm.trans hnone)
  · exact fun hnone => hp ((congrFun hdirs p).symm.trans hnone)

/-- The page that an access reads or writes is no directory and no table of any process, so that
bytes and entries do not get mixed up. -/
theorem Tenants.Inv.page_apart {w : Tenants κ τ} {w₁ : Mmu κ τ} {p q d f j : ℕ} (hi : w.Inv C D)
    (hp : w.Live p) (ha : a ≠ 0) (hfind : findPte K.toKernel L a p w.mmu = some (slot, w₁))
    (hf : ((pageIn K.toKernel slot w₁).memory.entry slot).baseAddr = f)
    (hd : w.mmu.pageDirectories q = some d) :
    f ≠ d ∧ (((pageIn K.toKernel slot w₁).memory.entry (d, j)).present = true →
      f ≠ ((pageIn K.toKernel slot w₁).memory.entry (d, j)).baseAddr) := by
  obtain ⟨tables, hapart⟩ := hi.apart
  obtain ⟨slot', w₁', tables', hfind', h₁, ht, hdirs, -, hpresent, -, -⟩ :=
    locate_midway (L := L) (.start p hapart) hp ha
  obtain ⟨rfl, rfl⟩ := Prod.mk.inj (Option.some.inj (hfind'.symm.trans hfind))
  have hlive : (pageIn K.toKernel slot' w₁').pageDirectories p ≠ none := hdirs ▸ hp
  have hq : (pageIn K.toKernel slot' w₁').pageDirectories q = some d :=
    (congrFun hdirs q).trans hd
  obtain ⟨hown, hnot, hdir⟩ := h₁.apart.page hlive ht hpresent
  have hsame : (scene C D w.life w.mmu.kernel p tables' (pageIn K.toKernel slot' w₁')).frames q f →
      q = p := fun hqf => h₁.apart.disjoint (live_of_dirs hq) hlive hqf (hf ▸ hown)
  refine ⟨?_, fun hj hb => ?_⟩
  · rintro rfl
    obtain rfl := hsame (h₁.apart.directory hq).1
    exact hdir (hf ▸ hq)
  · have hlinked := h₁.apart.linked hq hj
    obtain rfl := hsame (hb ▸ h₁.apart.table (live_of_dirs hq) hlinked)
    exact hnot (hf ▸ hb ▸ hlinked)

/-- Whatever processes come, go and access memory: the TLB knows only what accesses of the current
process have added since it was added, all that a process holds was handed out to it since then,
and no access goes through, or changes, a frame that was handed out to another process that is
present. -/
theorem run_isolated (C : K.Contract) (D : L.Tagged) {kernel : κ} {memory : Memory}
    {calls : List Call} {w : Tenants κ τ}
    (hr : Run (Serves K L addressInSegmentations C)
      ⟨mmuCreate L kernel memory, fun _ => .empty⟩ calls w) :
    (∀ n s, D.added w.mmu.tlb n s →
      w.Live w.mmu.currPid ∧ (w.life w.mmu.currPid).cached n s) ∧
      (∀ p f, Held w.mmu p f → (w.life p).frames f) ∧
      ∀ p q a f, w.Live p → w.Live q → q ≠ p → (w.life q).frames f →
        f ∉ touched K L a p w.mmu ∧ ∀ call w', call.access = some (p, a) →
          Serves K L addressInSegmentations C w call w' →
            w.mmu.memory.SameFrame w'.mmu.memory f := by
  have hi : w.Inv C D := hr.invariant inv_created fun hi hs => hi.step hs
  obtain ⟨tables, hapart⟩ := hi.apart
  refine ⟨fun n s hs => ⟨(hapart.known hs).1, hi.cached n s hs⟩, fun p f hf => ?_,
    fun p q a f hp hq hne hf => ?_⟩
  · have hmid : Midway C D w.life w.mmu.kernel p tables w.mmu := .start p hapart
    have hframes := congrFun (scene_frames C D w.life p tables w.mmu) p
    rw [← hframes]
    cases hf with
    | directory hd => exact (hmid.apart.directory hd).1
    | table hd hj => exact hmid.apart.table (live_of_dirs hd) (hmid.apart.linked hd hj)
    | page hd hj hi => exact (hmid.apart.page (live_of_dirs hd) (hmid.apart.linked hd hj) hi).1
  · have hnot : f ∉ touched K L a p w.mmu := hi.untouched hp hq hne hf
    exact ⟨hnot, fun call w' hc hs => serve_same hs hc hnot⟩

/-! ## A kernel that takes frames back -/

/-- The kernel keeps the list of the frames in use and hands out the next one. -/
def listKernel : FrameKernel (List ℕ) where
  askForFrame k m _ :=
    (4096 * (k.foldr max 0 + 1), (k.foldr max 0 + 1) :: k, m.zero (k.foldr max 0 + 1))
  readPageFromDisk k m _ := (k, m)
  returnFrameToKernel k address := k.filter (· ≠ address / 4096)
  removeSwapFile k _ := k

theorem le_foldr_max {k : List ℕ} {f : ℕ} (hf : f ∈ k) : f ≤ k.foldr max 0 := by
  induction k with
  | nil => simp at hf
  | cons g k ih =>
    rcases List.mem_cons.mp hf with rfl | hf
    · exact Nat.le_max_left _ _
    · exact Nat.le_trans (ih hf) (Nat.le_max_right _ _)

def listKernelContract : listKernel.Contract where
  inUse k f := f ∈ k
  ask k m _ := by
    refine ⟨k.foldr max 0 + 1, rfl, fun hf => ?_, fun f => List.mem_cons, rfl⟩
    have hle := le_foldr_max hf
    omega
  read _ _ _ := ⟨fun _ => Iff.rfl, rfl⟩
  giveBack k frame f := by simp [listKernel, and_comm]
  removeSwap _ _ _ := Iff.rfl

def plainTlbTagged : plainTlb.Tagged where
  added t n s := t n = some s
  create _ _ h := (nomatch h)
  get _ _ _ h := h
  get_added _ _ _ _ h := h
  add t n slot m s h := by
    by_cases hm : m = n
    · subst hm
      exact .inl ⟨rfl, by simpa [plainTlb] using h.symm⟩
    · exact .inr (by simpa [plainTlb, hm] using h)
  flush _ _ _ h := (nomatch h)

/-- The unit before any process is added. -/
def vacant : Tenants (List ℕ) (ℕ → Option Slot) :=
  ⟨mmuCreate plainTlb [] ⟨fun _ => .zero, fun _ => 0⟩, fun _ => .empty⟩

/-- Process 1 leaves and comes back; then its accesses do not go through a frame of process 2. -/
theorem run_isolated_return : ∃ w : Tenants (List ℕ) (ℕ → Option Slot), w.Live 1 ∧ w.Live 2 ∧
    ∀ f, (w.life 2).frames f → f ∉ touched listKernel plainTlb 4096 1 w.mmu := by
  have hfold : (([.add 2, .add 1, .write 1 4096 [7]].foldlM
      (fun w call => if True then serve plainTlb inSegments listKernelContract w call else none)
      vacant).map fun w => w.mmu.pageDirectories 2) = some (some 1) := by
    decide +kernel
  obtain ⟨w₁, hw, hend⟩ := Option.map_eq_some_iff.mp hfold
  set mmu₂ := mmuRemoveProcess listKernel plainTlb 1 w₁.mmu
  have hdirs : mmu₂.pageDirectories = Function.update w₁.mmu.pageDirectories 1 none :=
    mmuRemoveProcess_dirs listKernelContract w₁.mmu
  have hgone : mmu₂.pageDirectories 1 = none := by rw [hdirs, Function.update_self]
  obtain ⟨w₃, hw₃⟩ : ∃ w₃, Serves listKernel plainTlb inSegments listKernelContract
      ⟨mmu₂, w₁.life⟩ (.add 1) w₃ := serve_allowed hgone
  have hmmu₃ : mmuAddProcess listKernel.toKernel 1 mmu₂ = w₃.mmu :=
    congrArg Tenants.mmu (Option.some.inj ((if_pos (e := none) hgone).symm.trans hw₃))
  obtain ⟨d, hadd⟩ := mmuAddProcess_dirs listKernel.toKernel 1 mmu₂
  have h₁ : w₃.Live 1 := by
    rw [Tenants.Live, ← hmmu₃, hadd]
    simp
  have h₂ : w₃.Live 2 := by
    rw [Tenants.Live, ← hmmu₃, hadd, hdirs]
    simp [hend]
  have hrun : Run (Serves listKernel plainTlb inSegments listKernelContract) vacant _ w₃ :=
    (((Run.of_foldlM hw).mono fun h => h.2).tail (a := .remove 1) rfl).tail hw₃
  have hall := (run_isolated listKernelContract plainTlbTagged hrun).2.2 1 2 4096
  exact ⟨w₃, h₁, h₂, fun f hf => (hall f h₁ h₂ (by decide) hf).1⟩

end Cs241.Paging
