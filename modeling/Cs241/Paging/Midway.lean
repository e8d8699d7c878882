import Cs241.Paging.Readback
import Cs241.Paging.Scene

/-!
# One call of a process, in the scene

The frames that the kernel hands out during a call belong to its process. Each
function of the unit is followed through its changes of the scene, so that a call
keeps the processes apart and adds to the TLB only entries of its own process.
-/
namespace Cs241.Paging

open Foundation

variable {κ τ : Type*} {K : FrameKernel κ} {L : Tlb τ}
  {addressInSegmentations : List VmSegmentation → ℕ → Bool}

/-- What the contracts say about a state in the middle of a call of a process, with what the
kernel was when the call began. -/
def scene (C : K.Contract) (D : L.Tagged) (life : ℕ → Life) (kernel : κ) (pid : ℕ)
    (tables : ℕ → ℕ → Prop) (w : Mmu κ τ) : Scene where
  entry := w.memory.entry
  inUse := C.inUse w.kernel
  added := D.added w.tlb
  curr := w.currPid
  dirs := w.pageDirectories
  tables := tables
  frames q f := (life q).frames f ∨ (q = pid ∧ ¬ C.inUse kernel f ∧ C.inUse w.kernel f)

/-- Between two calls a process has the frames of its life. -/
theorem scene_frames (C : K.Contract) (D : L.Tagged) (life : ℕ → Life) (pid : ℕ)
    (tables : ℕ → ℕ → Prop) (w : Mmu κ τ) :
    (scene C D life w.kernel pid tables w).frames = fun q => (life q).frames := by
  funext q f
  simp [scene]

/-- The invariant in the middle of a call; no frame is given back before the end. -/
structure Midway (C : K.Contract) (D : L.Tagged) (life : ℕ → Life) (kernel : κ) (pid : ℕ)
    (tables : ℕ → ℕ → Prop) (w : Mmu κ τ) : Prop where
  apart : Apart (scene C D life kernel pid tables w)
  kept : ∀ f, C.inUse kernel f → C.inUse w.kernel f

variable {C : K.Contract} {D : L.Tagged} {life : ℕ → Life} {kernel : κ} {pid : ℕ}
  {tables : ℕ → ℕ → Prop} {w w' : Mmu κ τ} {slot : Slot} {a : ℕ}

/-- The scene after the kernel has handed out a frame. -/
theorem scene_ask (h : Midway C D life kernel pid tables w) (ref : Ref) :
    ∃ f, (w.askKernelForFrame K.toKernel ref).1 / 4096 = f ∧ ¬ C.inUse w.kernel f ∧
      (∀ g, C.inUse kernel g → C.inUse (w.askKernelForFrame K.toKernel ref).2.kernel g) ∧
      scene C D life kernel pid tables (w.askKernelForFrame K.toKernel ref).2 =
        { scene C D life kernel pid tables w with
          entry := fun s => if s.1 = f then .zero else w.memory.entry s
          inUse := fun g => g = f ∨ C.inUse w.kernel g
          frames := fun q g => (scene C D life kernel pid tables w).frames q g ∨
            (q = pid ∧ g = f) } := by
  obtain ⟨f, haddr, hfresh, huse, hmem⟩ := C.ask w.kernel w.memory ref
  refine ⟨f, ?_, hfresh, fun g hg => (huse g).mpr (.inr (h.kept g hg)), ?_⟩
  · change (K.askForFrame w.kernel w.memory ref).1 / 4096 = f
    rw [haddr]
    omega
  · have huse' : C.inUse (w.askKernelForFrame K.toKernel ref).2.kernel =
        fun g => g = f ∨ C.inUse w.kernel g := funext fun g => propext (huse g)
    have hentry : (w.askKernelForFrame K.toKernel ref).2.memory.entry =
        fun s => if s.1 = f then .zero else w.memory.entry s := congrArg Memory.entry hmem
    have hold : ¬ C.inUse kernel f := fun hf => hfresh (h.kept f hf)
    unfold scene
    rw [huse', hentry]
    congr 1
    funext q g
    apply propext
    constructor
    · rintro (hl | ⟨rfl, hg, rfl | hg'⟩)
      exacts [.inl (.inl hl), .inr ⟨rfl, rfl⟩, .inl (.inr ⟨rfl, hg, hg'⟩)]
    · rintro ((hl | ⟨rfl, hg, hg'⟩) | ⟨rfl, rfl⟩)
      exacts [.inl hl, .inr ⟨rfl, hg, .inr hg'⟩, .inr ⟨rfl, hold, .inl rfl⟩]

/-- A frame for a process that is present. -/
theorem Midway.ask (h : Midway C D life kernel pid tables w) (hp : w.pageDirectories pid ≠ none)
    (ref : Ref) :
    ∃ f, (w.askKernelForFrame K.toKernel ref).1 / 4096 = f ∧
      Midway C D life kernel pid tables (w.askKernelForFrame K.toKernel ref).2 ∧
      Spare (scene C D life kernel pid tables (w.askKernelForFrame K.toKernel ref).2) pid f ∧
      ∀ s : Slot, s.1 ≠ f →
        (w.askKernelForFrame K.toKernel ref).2.memory.entry s = w.memory.entry s := by
  obtain ⟨f, haddr, hfresh, hkept, hscene⟩ := scene_ask h ref
  obtain ⟨hi, hs⟩ := h.apart.ask hp hfresh
  refine ⟨f, haddr, ⟨hscene ▸ hi, hkept⟩, hscene ▸ hs, fun s hsf => ?_⟩
  exact (congrFun (congrArg Scene.entry hscene) s).trans (if_neg hsf)

theorem Midway.read (h : Midway C D life kernel pid tables w) (ref : Ref) :
    Midway C D life kernel pid tables (w.readPageFromDisk K.toKernel ref) ∧
      scene C D life kernel pid tables (w.readPageFromDisk K.toKernel ref) =
        scene C D life kernel pid tables w := by
  obtain ⟨huse, hmem⟩ := C.read w.kernel w.memory ref
  have huse' : C.inUse (w.readPageFromDisk K.toKernel ref).kernel = C.inUse w.kernel :=
    funext fun g => propext (huse g)
  have hscene : scene C D life kernel pid tables (w.readPageFromDisk K.toKernel ref) =
      scene C D life kernel pid tables w := by
    unfold scene
    rw [huse', show (w.readPageFromDisk K.toKernel ref).memory = w.memory from hmem]
    rfl
  exact ⟨⟨hscene ▸ h.apart, fun f hf => (huse f).mpr (h.kept f hf)⟩, hscene⟩

/-- The entry that is written leads to a frame of the process. -/
theorem Midway.map {e : Entry} (h : Midway C D life kernel pid tables w)
    (hp : w.pageDirectories pid ≠ none) (ht : tables pid slot.1)
    (hown : e.present = true → (scene C D life kernel pid tables w).frames pid e.baseAddr ∧
      ¬ tables pid e.baseAddr ∧ w.pageDirectories pid ≠ some e.baseAddr) :
    Midway C D life kernel pid tables (w.setEntry slot e) :=
  ⟨h.apart.map hp ht hown, h.kept⟩

theorem Midway.link {d j : ℕ} {e : Entry} (h : Midway C D life kernel pid tables w)
    (hd : w.pageDirectories pid = some d) (ht : tables pid e.baseAddr) :
    Midway C D life kernel pid tables (w.setEntry (d, j) e) :=
  ⟨h.apart.link hd ht, h.kept⟩

/-- Other bits of a table entry change. -/
theorem Midway.mark {e : Entry} (h : Midway C D life kernel pid tables w)
    (hp : w.pageDirectories pid ≠ none) (ht : tables pid slot.1)
    (hpresent : e.present = (w.memory.entry slot).present)
    (hbase : e.baseAddr = (w.memory.entry slot).baseAddr) :
    Midway C D life kernel pid tables (w.setEntry slot e) := by
  apply h.map hp ht
  intro he
  rw [hbase]
  exact h.apart.page hp ht (hpresent ▸ he)

theorem Midway.learn {tlb : τ} (h : Midway C D life kernel pid tables w)
    (ha : ∀ {n s}, D.added tlb n s → w.pageDirectories pid ≠ none ∧ tables pid s.1) :
    Midway C D life kernel pid tables { w with tlb := tlb, currPid := pid } :=
  ⟨h.apart.learn ha, h.kept⟩

theorem Midway.learn_more {tlb : τ} (h : Midway C D life kernel pid tables w)
    (hpid : w.currPid = pid)
    (ha : ∀ {n s}, D.added tlb n s → w.pageDirectories pid ≠ none ∧ tables pid s.1) :
    Midway C D life kernel pid tables { w with tlb := tlb } := by
  subst hpid
  exact h.learn ha

theorem Midway.adopt {f : ℕ} (h : Midway C D life kernel pid tables w)
    (hs : Spare (scene C D life kernel pid tables w) pid f) :
    Midway C D life kernel pid (fun q t => tables q t ∨ (q = pid ∧ t = f)) w :=
  ⟨h.apart.adopt hs, h.kept⟩

/-- Through the directory a process reaches one of its tables. -/
theorem directoryEntry_midway {d j : ℕ} (h : Midway C D life kernel pid tables w)
    (hd : w.pageDirectories pid = some d) :
    ∃ tables', Midway C D life kernel pid tables' (directoryEntry K.toKernel d j w).2 ∧
      tables' pid (directoryEntry K.toKernel d j w).1.baseAddr ∧
      (∀ t, tables pid t → tables' pid t) ∧
      (directoryEntry K.toKernel d j w).2.tlb = w.tlb ∧
      (directoryEntry K.toKernel d j w).2.currPid = w.currPid ∧
      (directoryEntry K.toKernel d j w).2.pageDirectories = w.pageDirectories := by
  unfold directoryEntry
  dsimp only
  split_ifs with hj
  · exact ⟨tables, h, h.apart.linked hd hj, fun _ ht => ht, rfl, rfl, rfl⟩
  · obtain ⟨f, hf, h₁, hs, -⟩ := h.ask (live_of_dirs hd) .localCopy
    obtain ⟨h₂, -⟩ := (h₁.adopt hs).read .localCopy
    exact ⟨_, ⟨h₂.apart, h₂.kept⟩, .inr ⟨rfl, hf⟩, fun _ ht => .inl ht, rfl, rfl, rfl⟩

/-- A miss adds one entry to the TLB, of a table of the process. -/
theorem tlbMiss_midway {d : ℕ} (h : Midway C D life kernel pid tables w) (hpid : w.currPid = pid)
    (hd : w.pageDirectories pid = some d) (a : ℕ) :
    ∃ tables', Midway C D life kernel pid tables' (tlbMiss K.toKernel L d a w).2 ∧
      tables' pid (tlbMiss K.toKernel L d a w).1.1 ∧
      (tlbMiss K.toKernel L d a w).2.currPid = pid ∧
      (tlbMiss K.toKernel L d a w).2.pageDirectories = w.pageDirectories ∧
      ∀ n s, D.added (tlbMiss K.toKernel L d a w).2.tlb n s →
        (n = a / 2 ^ 12 ∧ s = (tlbMiss K.toKernel L d a w).1) ∨ D.added w.tlb n s := by
  obtain ⟨tables', h₁, ht, hmono, htlb, hpid₁, hdirs⟩ :=
    directoryEntry_midway (j := a / 2 ^ 22) h hd
  have hadded : ∀ n s, D.added (tlbMiss K.toKernel L d a w).2.tlb n s →
      (n = a / 2 ^ 12 ∧ s = (tlbMiss K.toKernel L d a w).1) ∨ D.added w.tlb n s := fun n s hs =>
    (D.add _ _ _ _ _ hs).imp_right fun hold => htlb ▸ hold
  have hlive := live_of_dirs hd
  have h₂ := h₁.learn_more (L := L) (hpid₁.trans hpid) fun {n s} hs => by
    refine ⟨fun hnone => hlive ((congrFun hdirs pid).symm.trans hnone), ?_⟩
    rcases hadded n s hs with ⟨-, rfl⟩ | hold
    · exact ht
    · exact hmono _ (hpid ▸ (h.apart.known hold).2)
  exact ⟨tables', ⟨h₂.apart, h₂.kept⟩, ht, hpid₁.trans hpid, hdirs, hadded⟩

/-- The switch to a process changes the TLB only. -/
theorem switchTo_rest (L : Tlb τ) (pid : ℕ) (w : Mmu κ τ) :
    (switchTo L pid w).memory = w.memory ∧
      (switchTo L pid w).pageDirectories = w.pageDirectories := by
  unfold switchTo
  split_ifs <;> exact ⟨rfl, rfl⟩

/-- What the TLB knows after the switch to a process was added by that process. -/
theorem added_switchTo {n : ℕ} {s : Slot} (hs : D.added (switchTo L pid w).tlb n s) :
    w.currPid = pid ∧ D.added w.tlb n s := by
  unfold switchTo at hs
  split_ifs at hs with hne
  · exact absurd hs (D.flush _ _ _)
  · exact ⟨by simpa using hne, hs⟩

theorem switchTo_midway (h : Midway C D life kernel pid tables w) :
    Midway C D life kernel pid tables (switchTo L pid w) ∧ (switchTo L pid w).currPid = pid := by
  unfold switchTo
  split_ifs with hne
  · exact ⟨h.learn fun hs => absurd hs (D.flush _ _ _), rfl⟩
  · exact ⟨h, by simpa using hne⟩

/-- An access finds an entry of a table of its process, and the TLB learns nothing else. -/
theorem findPte_midway (h : Midway C D life kernel pid tables w)
    (hp : w.pageDirectories pid ≠ none) (a : ℕ) :
    ∃ slot w' tables', findPte K.toKernel L a pid w = some (slot, w') ∧
      Midway C D life kernel pid tables' w' ∧ tables' pid slot.1 ∧
      w'.currPid = pid ∧ w'.pageDirectories = w.pageDirectories ∧
      ∀ n s, D.added w'.tlb n s → (w.currPid = pid ∧ D.added w.tlb n s) ∨
        (n = a / 2 ^ 12 ∧ (L.getPte (switchTo L pid w).tlb (a / 2 ^ 12)).1 = none ∧ s = slot) := by
  obtain ⟨h₁, hpid⟩ := switchTo_midway (L := L) h
  obtain ⟨-, hdirs⟩ := switchTo_rest L pid w
  have hadded : ∀ {n s}, D.added (switchTo L pid w).tlb n s → w.currPid = pid ∧ D.added w.tlb n s :=
    added_switchTo
  unfold findPte
  set w₁ := switchTo L pid w
  obtain ⟨d, hd⟩ := Option.ne_none_iff_exists'.mp (hdirs ▸ hp)
  have hknown : ∀ {n s}, D.added w₁.tlb n s → w₁.pageDirectories pid ≠ none ∧ tables pid s.1 :=
    fun hs => hpid ▸ h₁.apart.known hs
  have h₂ : Midway C D life kernel pid tables
      { w₁ with tlb := (L.getPte w₁.tlb (a / 2 ^ 12)).2 } :=
    h₁.learn_more hpid fun hs => hknown (D.get_added _ _ _ _ hs)
  dsimp only
  cases hget : (L.getPte w₁.tlb (a / 2 ^ 12)).1 with
  | some slot =>
    refine ⟨slot, _, tables, rfl, h₂, (hknown (D.get _ _ _ hget)).2, hpid, hdirs, ?_⟩
    exact fun n s hs => .inl (hadded (D.get_added _ _ _ _ hs))
  | none =>
    obtain ⟨tables', h₃, ht, hpid₃, hdirs₃, hcases⟩ := tlbMiss_midway h₂ hpid hd a
    set miss := tlbMiss K.toKernel L d a { w₁ with tlb := (L.getPte w₁.tlb (a / 2 ^ 12)).2 }
    refine ⟨miss.1, miss.2, tables', by rw [hd, Option.map_some], h₃, ht, hpid₃,
      hdirs₃.trans hdirs, ?_⟩
    intro n s hs
    rcases hcases n s hs with ⟨hn, hnew⟩ | hold
    · exact .inr ⟨hn, rfl, hnew⟩
    · exact .inl (hadded (D.get_added _ _ _ _ hold))

theorem pageIn_midway (h : Midway C D life kernel pid tables w)
    (hp : w.pageDirectories pid ≠ none) (ht : tables pid slot.1) :
    Midway C D life kernel pid tables (pageIn K.toKernel slot w) ∧
      ((pageIn K.toKernel slot w).memory.entry slot).present = true ∧
      (pageIn K.toKernel slot w).tlb = w.tlb ∧ (pageIn K.toKernel slot w).currPid = w.currPid ∧
      (pageIn K.toKernel slot w).pageDirectories = w.pageDirectories := by
  unfold pageIn
  split_ifs with hpresent
  · exact ⟨h, hpresent, rfl, rfl, rfl⟩
  obtain ⟨f, hf, h₁, hs, -⟩ := h.ask hp (.entry slot)
  dsimp only
  set w₁ := (w.askKernelForFrame K.toKernel (.entry slot)).2
  rw [hf]
  have h₂ := h₁.map (e := { w₁.memory.entry slot with baseAddr := f, present := true }) hp ht
    fun _ => ⟨hs.own, hs.not_table, hs.not_directory⟩
  obtain ⟨h₃, hscene⟩ := h₂.read (.entry slot)
  refine ⟨⟨h₃.apart, h₃.kept⟩, ?_, rfl, rfl, rfl⟩
  have hentry := congrFun (congrArg Scene.entry hscene) slot
  exact (congrArg Entry.present hentry).trans (by simp [scene, Mmu.setEntry])

/-- What an access does before it looks at the segments. -/
theorem locate_midway (h : Midway C D life kernel pid tables w)
    (hp : w.pageDirectories pid ≠ none) (ha : a ≠ 0) :
    ∃ slot w₁ tables', findPte K.toKernel L a pid w = some (slot, w₁) ∧
      Midway C D life kernel pid tables' (pageIn K.toKernel slot w₁) ∧ tables' pid slot.1 ∧
      (pageIn K.toKernel slot w₁).pageDirectories = w.pageDirectories ∧
      (pageIn K.toKernel slot w₁).currPid = pid ∧
      ((pageIn K.toKernel slot w₁).memory.entry slot).present = true ∧
      (∀ n s, D.added (pageIn K.toKernel slot w₁).tlb n s →
        (w.currPid = pid ∧ D.added w.tlb n s) ∨
          (n = a / 2 ^ 12 ∧ tlbAdded K L a pid w = some s)) ∧
      ∀ f ∈ touched K L a pid w,
        (scene C D life kernel pid tables' (pageIn K.toKernel slot w₁)).frames pid f := by
  obtain ⟨slot, w₁, tables', hfind, h₁, ht, hpid, hdirs, hadded⟩ := findPte_midway h hp a
  have hp₁ : w₁.pageDirectories pid ≠ none := hdirs ▸ hp
  obtain ⟨h₂, hpresent, htlb, hpid₂, hdirs₂⟩ := pageIn_midway h₁ hp₁ ht
  have hp₂ : (pageIn K.toKernel slot w₁).pageDirectories pid ≠ none := hdirs₂ ▸ hp₁
  refine ⟨slot, w₁, tables', hfind, h₂, ht, hdirs₂.trans hdirs, hpid₂.trans hpid, hpresent,
    ?_, ?_⟩
  · intro n s hs
    rw [htlb] at hs
    rcases hadded n s hs with hold | ⟨hn, hmiss, rfl⟩
    · exact .inl hold
    · refine .inr ⟨hn, ?_⟩
      simp only [tlbAdded, ha, if_false, hmiss, hfind, Option.map_some]
  · have hthrough : ∀ f ∈ [slot.1, ((pageIn K.toKernel slot w₁).memory.entry slot).baseAddr],
        (scene C D life kernel pid tables' (pageIn K.toKernel slot w₁)).frames pid f := by
      intro f hf
      rcases List.mem_pair.mp hf with rfl | rfl
      · exact h₂.apart.table hp₂ ht
      · exact (h₂.apart.page hp₂ ht hpresent).1
    intro f hf
    simp only [touched, ha, if_false, hfind] at hf
    cases hget : (L.getPte (switchTo L pid w).tlb (a / 2 ^ 12)).1 with
    | some _ => exact hthrough f (by simpa only [hget] using hf)
    | none =>
      simp only [hget] at hf
      rcases List.mem_append.mp hf with hd | hf
      · have hd' := Option.mem_toList.mp hd
        exact (h₂.apart.directory ((congrFun (hdirs₂.trans hdirs) pid).trans hd')).1
      · exact hthrough f hf

/-- What an access by a process does to the scene and to the TLB. -/
structure Served (C : K.Contract) (D : L.Tagged) (life : ℕ → Life) (pid a : ℕ)
    (w w' : Mmu κ τ) : Prop where
  midway : ∃ tables, Midway C D life w.kernel pid tables w'
  dirs : w'.pageDirectories = w.pageDirectories
  added : ∀ n s, D.added w'.tlb n s → (w'.currPid = w.currPid ∧ D.added w.tlb n s) ∨
    (w'.currPid = pid ∧ n = a / 2 ^ 12 ∧ tlbAdded K L a pid w = some s)

theorem Served.fault (h : Midway C D life w.kernel pid tables w) :
    Served C D life pid a w w.raiseSegmentationFault :=
  ⟨⟨tables, h.apart, h.kept⟩, rfl, fun _ _ hs => .inl ⟨rfl, hs⟩⟩

theorem Served.found (h : Midway C D life w.kernel pid tables w')
    (hdirs : w'.pageDirectories = w.pageDirectories) (hpid : w'.currPid = pid)
    (hadded : ∀ n s, D.added w'.tlb n s → (w.currPid = pid ∧ D.added w.tlb n s) ∨
      (n = a / 2 ^ 12 ∧ tlbAdded K L a pid w = some s)) : Served C D life pid a w w' := by
  refine ⟨⟨tables, h⟩, hdirs, fun n s hs => ?_⟩
  rcases hadded n s hs with ⟨hcurr, hold⟩ | hnew
  · exact .inl ⟨hpid.trans hcurr.symm, hold⟩
  · exact .inr ⟨hpid, hnew⟩

theorem read_served {n : ℕ} {result : Option (List UInt8)}
    (h : Midway C D life w.kernel pid tables w) (hp : w.pageDirectories pid ≠ none)
    (hs : mmuReadFromVirtualAddress K.toKernel L addressInSegmentations a pid n w =
      some (result, w')) : Served C D life pid a w w' := by
  unfold mmuReadFromVirtualAddress at hs
  split_ifs at hs with ha
  · obtain ⟨-, rfl⟩ := Prod.mk.inj (Option.some.inj hs)
    exact .fault h
  obtain ⟨slot, w₁, tables', hfind, h₁, ht, hdirs, hpid, -, hadded, -⟩ := locate_midway h hp ha
  rw [hfind, Option.map_some] at hs
  have hp₁ : (pageIn K.toKernel slot w₁).pageDirectories pid ≠ none := hdirs ▸ hp
  dsimp only at hs
  split_ifs at hs with hinside
  · obtain ⟨-, rfl⟩ := Prod.mk.inj (Option.some.inj hs)
    exact .found (h₁.mark hp₁ ht rfl rfl) hdirs hpid hadded
  · obtain ⟨-, rfl⟩ := Prod.mk.inj (Option.some.inj hs)
    exact .found ⟨h₁.apart, h₁.kept⟩ hdirs hpid hadded

theorem write_served {buffer : List UInt8}
    (h : Midway C D life w.kernel pid tables w) (hp : w.pageDirectories pid ≠ none)
    (hs : mmuWriteToVirtualAddress K.toKernel L addressInSegmentations a pid buffer w = some w') :
    Served C D life pid a w w' := by
  unfold mmuWriteToVirtualAddress at hs
  split_ifs at hs with ha
  · obtain rfl := Option.some.inj hs
    exact .fault h
  obtain ⟨slot, w₁, tables', hfind, h₁, ht, hdirs, hpid, -, hadded, -⟩ := locate_midway h hp ha
  rw [hfind, Option.map_some] at hs
  have hp₁ : (pageIn K.toKernel slot w₁).pageDirectories pid ≠ none := hdirs ▸ hp
  obtain rfl := Option.some.inj hs
  dsimp only
  split_ifs with hinside
  · have h₂ := h₁.mark (e := { (pageIn K.toKernel slot w₁).memory.entry slot with
      dirty := true, accessed := true }) hp₁ ht rfl rfl
    exact .found ⟨h₂.apart, h₂.kept⟩ hdirs hpid hadded
  · exact .found ⟨h₁.apart, h₁.kept⟩ hdirs hpid hadded

/-! ## Adding a process -/

theorem mapTesting_midway {d i : ℕ} (h : Midway C D life kernel pid tables w)
    (hd : w.pageDirectories pid = some d) (hpresent : (w.memory.entry (d, 0)).present = true) :
    Midway C D life kernel pid tables (mapTesting K.toKernel d i w) ∧
      ((mapTesting K.toKernel d i w).memory.entry (d, 0)).present = true ∧
      (mapTesting K.toKernel d i w).pageDirectories = w.pageDirectories ∧
      (mapTesting K.toKernel d i w).tlb = w.tlb ∧
      (mapTesting K.toKernel d i w).currPid = w.currPid := by
  have hp := live_of_dirs hd
  have ht := h.apart.linked hd hpresent
  unfold mapTesting mapEntry
  dsimp only
  obtain ⟨f, hf, h₁, hs, hkeep⟩ := h.ask hp (.entry ((w.memory.entry (d, 0)).baseAddr, i))
  rw [hf]
  refine ⟨h₁.map hp ht fun _ => ⟨hs.own, hs.not_table, hs.not_directory⟩, ?_, rfl, rfl, rfl⟩
  have hne : d ≠ f := by
    rintro rfl
    exact hs.not_directory hd
  have hslot : ((d, 0) : Slot) ≠ ((w.memory.entry (d, 0)).baseAddr, i) := by
    intro heq
    have hnot := (h.apart.directory hd).2
    rw [(Prod.mk.inj heq).1] at hnot
    exact hnot ht
  have hold := hkeep (d, 0) hne
  simpa [Mmu.setEntry, Memory.entry_setEntry_of_ne _ _ hslot, hold] using hpresent

/-- The directory of a process that enters is the only frame it has. -/
theorem scene_enter {d : ℕ} (h : Midway C D life w.kernel pid tables w)
    (hfresh : ¬ C.inUse w.kernel d) (hentry : w'.memory.entry =
      fun s => if s.1 = d then .zero else w.memory.entry s)
    (huse : ∀ g, C.inUse w'.kernel g ↔ g = d ∨ C.inUse w.kernel g) (htlb : w'.tlb = w.tlb)
    (hpid : w'.currPid = w.currPid)
    (hdirs : w'.pageDirectories = Function.update w.pageDirectories pid (some d))
    (hp : w.pageDirectories pid = none) :
    Midway C D (Function.update life pid .empty) w.kernel pid
      (Function.update tables pid fun _ => False) w' := by
  refine ⟨?_, fun g hg => (huse g).mpr (.inr hg)⟩
  have hframes : (scene C D (Function.update life pid .empty) w.kernel pid
      (Function.update tables pid fun _ => False) w').frames =
        Function.update (scene C D life w.kernel pid tables w).frames pid (· = d) := by
    funext q g
    apply propext
    by_cases hq : q = pid
    · subst hq
      simp only [scene, Function.update_self, Life.empty, huse, true_and, false_or]
      refine ⟨fun hg => hg.2.resolve_right hg.1, ?_⟩
      rintro rfl
      exact ⟨hfresh, .inl rfl⟩
    · simp [scene, hq]
  have hscene : scene C D (Function.update life pid .empty) w.kernel pid
      (Function.update tables pid fun _ => False) w' =
        { scene C D life w.kernel pid tables w with
          entry := fun s => if s.1 = d then .zero else w.memory.entry s
          inUse := fun g => g = d ∨ C.inUse w.kernel g
          dirs := Function.update w.pageDirectories pid (some d)
          tables := Function.update tables pid fun _ => False
          frames :=
            Function.update (scene C D life w.kernel pid tables w).frames pid (· = d) } := by
    rw [← hframes, ← hentry, ← hdirs, ← funext fun g => propext (huse g)]
    unfold scene
    rw [htlb, hpid]
  rw [hscene]
  exact h.apart.enter hp hfresh

theorem mmuAddProcess_midway (h : Midway C D life w.kernel pid tables w)
    (hp : w.pageDirectories pid = none) :
    (∃ tables', Midway C D (Function.update life pid .empty) w.kernel pid tables'
      (mmuAddProcess K.toKernel pid w)) ∧
      (mmuAddProcess K.toKernel pid w).tlb = w.tlb ∧
      (mmuAddProcess K.toKernel pid w).currPid = w.currPid := by
  obtain ⟨d, hd, hfresh, -, hscene⟩ := scene_ask h .null
  unfold mmuAddProcess
  dsimp only
  rw [hd]
  set w₁ : Mmu κ τ := { (w.askKernelForFrame K.toKernel .null).2 with
    pageDirectories :=
      Function.update (w.askKernelForFrame K.toKernel .null).2.pageDirectories pid (some d)
    segmentations :=
      Function.update (w.askKernelForFrame K.toKernel .null).2.segmentations pid segments }
  have h₁ : Midway C D (Function.update life pid .empty) w.kernel pid
      (Function.update tables pid fun _ => False) w₁ :=
    scene_enter h hfresh (congrArg Scene.entry hscene)
      (fun g => iff_of_eq (congrFun (congrArg Scene.inUse hscene) g)) rfl rfl rfl hp
  have hd₁ : w₁.pageDirectories pid = some d := Function.update_self ..
  obtain ⟨t, ht, h₂, hs, -⟩ := h₁.ask (live_of_dirs hd₁) .null
  have h₃ := (h₂.adopt hs).link (j := 0) (e := { (w₁.askKernelForFrame K.toKernel
      .null).2.memory.entry (d, 0) with
    baseAddr := (w₁.askKernelForFrame K.toKernel .null).1 / 4096, present := true
    readWrite := true, userSupervisor := true }) hd₁ (.inr ⟨rfl, ht⟩)
  obtain ⟨h₄, hpresent, hdirs, htlb, hpid⟩ := mapTesting_midway (i := 1) h₃ hd₁
    (by simp [Mmu.setEntry])
  obtain ⟨h₅, -, -, htlb', hpid'⟩ := mapTesting_midway (i := 2) h₄
    ((congrFun hdirs pid).trans hd₁) hpresent
  exact ⟨⟨_, h₅⟩, htlb'.trans htlb, hpid'.trans hpid⟩

theorem mmuAddProcess_dirs (K : Kernel κ) (pid : ℕ) (w : Mmu κ τ) : ∃ d,
    (mmuAddProcess K pid w).pageDirectories = Function.update w.pageDirectories pid (some d) :=
  ⟨_, rfl⟩

end Cs241.Paging
