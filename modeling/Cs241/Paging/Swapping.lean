import Cs241.Paging.Handling
import Cs241.Paging.Tracing

/-!
# Owners over whole runs

The kernel of this file saves pages on disk when it runs out of frames, and it
takes frames back. Removing a process returns what its directory leads to; tables
that were made for directory entries which are not present stay, with their pages.
-/
namespace Cs241.Paging

open Foundation

/-! ## Code that is not in the repository -/

/-- A kernel that saves pages, whose frames can be given back and whose swap files removed. -/
structure FrameKernel.Swaps {κ : Type*} (K : FrameKernel κ) extends K.toKernel.Contract where
  giveBack_holder : ∀ k frame, holder (K.returnFrameToKernel k (4096 * frame)) =
    Function.update (holder k) frame none
  giveBack_saved : ∀ k frame, saved (K.returnFrameToKernel k (4096 * frame)) = saved k
  removeSwap_holder : ∀ k slot, holder (K.removeSwapFile k slot) = holder k
  removeSwap_saved : ∀ k slot, saved (K.removeSwapFile k slot) =
    Function.update (saved k) slot none

/-! ## What a removal takes -/

/-- The process `p` with the directory `d` is gone, with all that its directory led to. -/
structure Left (p d : ℕ) (v v' : View) : Prop where
  mem : v'.mem = v.mem
  dirs : v'.dirs = Function.update v.dirs p none
  holder : ∀ {f}, ¬ Reached v.mem d f → v'.holder f = v.holder f
  gone : ∀ {f}, Reached v.mem d f → v'.holder f = none
  saved : ∀ {s page}, v'.saved s = some page →
    v.saved s = some page ∧ ¬ (LedTo v.mem d s.1 ∧ s.2 < 1024)
  owner : ∀ {t}, ¬ LedTo v.mem d t → v'.owner t = v.owner t
  disowned : ∀ {t}, LedTo v.mem d t → v'.owner t = none
  last : ∀ {n s}, v'.last n = some s → v.last n = some s ∧ v.curr ≠ p
  curr : v'.curr = v.curr

section Leave

variable {v v' : View} {p d t f : ℕ} (h : Traced (fun s => s.2 < 1024) v)
  (hd : v.dirs p = some d)
include h hd

theorem Traced.owner_ledTo (ht : LedTo v.mem d t) : ∃ j, v.owner t = some (p, j) := by
  obtain ⟨j, -, hp, rfl⟩ := ht
  exact ⟨j, h.linked hd hp⟩

/-- A frame that is reached is the directory, a table or a page. -/
theorem Traced.reached (hf : Reached v.mem d f) : f = d ∨ LedTo v.mem d f ∨
    ∃ t i, LedTo v.mem d t ∧ v.holder f = some (.entry (t, i)) := by
  rcases hf with rfl | ⟨t, ht, rfl | ⟨i, -, hi, rfl⟩⟩
  · exact .inl rfl
  · exact .inr (.inl ht)
  · obtain ⟨j, hown⟩ := h.owner_ledTo hd ht
    exact .inr (.inr ⟨t, i, ht, h.placed.held_data (by simp [hown]) hi⟩)

/-- A table is reached as a table only. -/
theorem Traced.not_reached_table {o : ℕ × ℕ} (ho : v.owner t = some o) (ht : ¬ LedTo v.mem d t) :
    ¬ Reached v.mem d t := by
  intro hr
  rcases h.reached hd hr with rfl | hled | ⟨t', i, -, hheld⟩
  · exact absurd ((h.placed.dir_held hd).2.symm.trans ho) (by simp)
  · exact ht hled
  · rcases h.placed.table_held ho with hh | hh
    all_goals exact absurd (hh.symm.trans hheld) (by simp)

/-- A page is reached through its own table only. -/
theorem Traced.not_reached_page {s : Slot} (hf : v.holder f = some (.entry s))
    (hs : ¬ LedTo v.mem d s.1) : ¬ Reached v.mem d f := by
  intro hr
  rcases h.reached hd hr with rfl | hled | ⟨t', i, ht', hheld⟩
  · exact absurd ((h.placed.dir_held hd).1.symm.trans hf) (by simp)
  · obtain ⟨j, ho⟩ := h.owner_ledTo hd hled
    rcases h.placed.table_held ho with hh | hh
    all_goals exact absurd (hh.symm.trans hf) (by simp)
  · rw [hf] at hheld
    obtain rfl : s = (t', i) := by simpa using hheld
    exact hs ht'

/-- What stays keeps its owners. -/
theorem Traced.leave (hl : Left p d v v') : Traced (fun s => s.2 < 1024) v' := by
  have hsome : ∀ {q d'}, v'.dirs q = some d' → q ≠ p ∧ v.dirs q = some d' := by
    intro q d' hq
    rw [hl.dirs] at hq
    by_cases hqp : q = p
    · simp [hqp] at hq
    · exact ⟨hqp, by simpa [hqp] using hq⟩
  have howned : ∀ {t o}, v'.owner t = some o → ¬ LedTo v.mem d t ∧ v.owner t = some o := by
    intro t o ho
    by_cases ht : LedTo v.mem d t
    · exact absurd ((hl.disowned ht).symm.trans ho) (by simp)
    · exact ⟨ht, (hl.owner ht).symm.trans ho⟩
  have hkept : ∀ {t o}, v.owner t = some o → o.1 ≠ p → v'.owner t = some o := by
    intro t o ho hne
    refine (hl.owner fun ht => hne ?_).trans ho
    obtain ⟨j, hj⟩ := h.owner_ledTo hd ht
    rw [hj] at ho
    exact (congrArg Prod.fst (Option.some.inj ho)).symm
  have hheld : ∀ {f r}, v'.holder f = some r → ¬ Reached v.mem d f ∧ v.holder f = some r := by
    intro f r hf
    by_cases hr : Reached v.mem d f
    · exact absurd ((hl.gone hr).symm.trans hf) (by simp)
    · exact ⟨hr, (hl.holder hr).symm.trans hf⟩
  have hsaved : ∀ {s page}, v'.saved s = some page →
      v.saved s = some page ∧ ¬ LedTo v.mem d s.1 := by
    intro s page hs
    obtain ⟨hs, hnot⟩ := hl.saved hs
    exact ⟨hs, fun ht => hnot ⟨ht, h.placed.used_saved hs⟩⟩
  refine ⟨?_, ?_, ?_⟩
  · constructor
    case dir_held =>
      intro q d' hq
      obtain ⟨hqp, hq⟩ := hsome hq
      obtain ⟨hh, ho⟩ := h.placed.dir_held hq
      have hnot : ¬ LedTo v.mem d d' := by
        intro ht
        obtain ⟨j, hj⟩ := h.owner_ledTo hd ht
        exact absurd (ho.symm.trans hj) (by simp)
      refine ⟨(hl.holder fun hr => ?_).trans hh, (hl.owner hnot).trans ho⟩
      rcases h.reached hd hr with rfl | ht | ⟨t, i, -, hheld⟩
      · exact hqp (h.placed.dir_inj hq hd)
      · exact hnot ht
      · exact absurd (hh.symm.trans hheld) (by simp)
    case dir_inj => exact fun hq hr => h.placed.dir_inj (hsome hq).2 (hsome hr).2
    case table_held =>
      intro t o ho
      obtain ⟨ht, ho⟩ := howned ho
      rw [hl.holder (h.not_reached_table hd ho ht)]
      exact h.placed.table_held ho
    case data_held =>
      intro f s hf
      obtain ⟨hr, hf⟩ := hheld hf
      obtain ⟨ho, hp, hb⟩ := h.placed.data_held hf
      rw [hl.mem]
      refine ⟨?_, hp, hb⟩
      rw [hl.owner fun ht => hr (.inr ⟨s.1, ht, .inr ⟨s.2, h.placed.used_held hf, hp, hb⟩⟩)]
      exact ho
    case held_data =>
      intro s ho hp
      rw [hl.mem] at hp ⊢
      obtain ⟨o, ho⟩ := Option.ne_none_iff_exists'.mp ho
      obtain ⟨ht, ho⟩ := howned ho
      have hf := h.placed.held_data (by simp [ho]) hp
      exact (hl.holder (h.not_reached_page hd hf ht)).trans hf
    case saved_owned =>
      intro s page hs
      obtain ⟨hs, ht⟩ := hsaved hs
      rw [hl.owner ht]
      exact h.placed.saved_owned hs
    case used_held => exact fun hf => h.placed.used_held (hheld hf).2
    case used_saved => exact fun hs => h.placed.used_saved (hsaved hs).1
  · intro q d' j hq hp
    obtain ⟨hqp, hq⟩ := hsome hq
    rw [hl.mem] at hp ⊢
    exact hkept (h.linked hq hp) hqp
  · intro n s hs
    obtain ⟨hs, hne⟩ := hl.last hs
    obtain ⟨ho, h2⟩ := h.cached hs
    rw [hl.curr]
    exact ⟨hkept ho hne, h2⟩

end Leave

/-! ## Removing a process -/

variable {κ τ : Type*} {K : FrameKernel κ} {L : Tlb τ} {S : K.Swaps} {D : L.Contract}
  {w w' w'' : Mmu κ τ}

/-- What one release clears and the others keep is clear exactly after that release. -/
theorem foldl_releases {β : Type*} {V : κ → Option β} {gone : Release}
    (hgone : ∀ k, V (gone.run K k) = none)
    (hkept : ∀ r ≠ gone, ∀ k, V (r.run K k) = V k) (releases : List Release) (k : κ) :
    (gone ∈ releases → V (releases.foldl (Release.run K) k) = none) ∧
      (gone ∉ releases → V (releases.foldl (Release.run K) k) = V k) := by
  induction releases generalizing k with
  | nil => simp
  | cons r rs ih =>
    obtain ⟨hcleared, hsame⟩ := ih (r.run K k)
    rw [List.foldl_cons]
    by_cases hrs : gone ∈ rs
    · exact ⟨fun _ => hcleared hrs, fun hnot => absurd (List.mem_cons_of_mem _ hrs) hnot⟩
    rw [hsame hrs]
    by_cases hr : r = gone
    · subst hr
      exact ⟨fun _ => hgone k, fun hnot => absurd List.mem_cons_self hnot⟩
    · refine ⟨fun hmem => ?_, fun _ => hkept r hr k⟩
      exact absurd hmem (List.not_mem_cons_of_ne_of_not_mem (Ne.symm hr) hrs)

/-- The frames that the kernel takes back are not held. -/
theorem holder_releases (S : K.Swaps) (releases : List Release) (k : κ) (f : ℕ) :
    (.frame f ∈ releases → S.holder (releases.foldl (Release.run K) k) f = none) ∧
      (.frame f ∉ releases → S.holder (releases.foldl (Release.run K) k) f = S.holder k f) := by
  refine foldl_releases (V := fun k => S.holder k f) ?_ ?_ releases k
  · exact fun k => (congrFun (S.giveBack_holder k f) f).trans (Function.update_self ..)
  · intro r hr k
    cases r with
    | frame g =>
      have hfg : f ≠ g := by
        rintro rfl
        exact hr rfl
      exact (congrFun (S.giveBack_holder k g) f).trans (Function.update_of_ne hfg ..)
    | swapFile s => exact congrFun (S.removeSwap_holder k s) f

/-- Nothing is saved for the entries whose swap files are removed. -/
theorem saved_releases (S : K.Swaps) (releases : List Release) (k : κ) (s : Slot) :
    (.swapFile s ∈ releases → S.saved (releases.foldl (Release.run K) k) s = none) ∧
      (.swapFile s ∉ releases →
        S.saved (releases.foldl (Release.run K) k) s = S.saved k s) := by
  refine foldl_releases (V := fun k => S.saved k s) ?_ ?_ releases k
  · exact fun k => (congrFun (S.removeSwap_saved k s) s).trans (Function.update_self ..)
  · intro r hr k
    cases r with
    | swapFile slot =>
      have hslot : s ≠ slot := by
        rintro rfl
        exact hr rfl
      exact (congrFun (S.removeSwap_saved k slot) s).trans (Function.update_of_ne hslot ..)
    | frame g => exact congrFun (S.giveBack_saved k g) s

/-- The process has left when it is removed. -/
theorem mmuRemoveProcess_left {pid d : ℕ} (S : K.Swaps) (D : L.Contract)
    (owner : ℕ → Option (ℕ × ℕ)) (values : ℕ → ℕ → UInt8) (hd : w.pageDirectories pid = some d) :
    ∃ owner', Left pid d (view S.toContract D owner values w)
      (view S.toContract D owner' values (mmuRemoveProcess K L pid w)) := by
  classical
  have hholder := holder_releases S (directoryReleases w.memory d) w.kernel
  have hsaved := saved_releases S (directoryReleases w.memory d) w.kernel
  simp only [frame_mem_directoryReleases] at hholder
  simp only [swapFile_mem_directoryReleases] at hsaved
  refine ⟨fun t => if LedTo w.memory d t then none else owner t, ?_⟩
  rw [mmuRemoveProcess_some L hd]
  generalize (directoryReleases w.memory d).foldl (Release.run K) w.kernel = k at hholder hsaved ⊢
  constructor
  case mem => rfl
  case dirs => rfl
  case holder => exact fun {f} hf => (hholder f).2 hf
  case gone => exact fun {f} hf => (hholder f).1 hf
  case saved =>
    intro s page hs
    by_cases hslot : LedTo w.memory d s.1 ∧ s.2 < 1024
    · exact absurd (((hsaved s).1 hslot).symm.trans hs) (by simp)
    · exact ⟨((hsaved s).2 hslot).symm.trans hs, hslot⟩
  case owner => exact fun ht => if_neg ht
  case disowned => exact fun ht => if_pos ht
  case last =>
    intro n s hs
    simp only [view] at hs ⊢
    split_ifs at hs with hcurr
    · exact absurd ((D.flush _ _).symm.trans hs) (by simp)
    · exact ⟨hs, hcurr⟩
  case curr => rfl

/-- Removing a process that is not there flushes the TLB at most. -/
theorem mmuRemoveProcess_absent {pid : ℕ} {owner : ℕ → Option (ℕ × ℕ)} {values : ℕ → ℕ → UInt8}
    (S : K.Swaps) (D : L.Contract) (hd : w.pageDirectories pid = none) :
    view S.toContract D owner values (mmuRemoveProcess K L pid w) =
      { view S.toContract D owner values w with
        last := D.last (if w.currPid = pid then L.flush w.tlb else w.tlb)
        curr := w.currPid } := by
  rw [mmuRemoveProcess_none K L hd]
  simp only [view, ← hd, Function.update_eq_self]

/-! ## Runs -/

variable {addressInSegmentations : List VmSegmentation → ℕ → Bool}

/-- What holds between two calls, whatever was written. -/
structure Sound (S : K.Swaps) (D : L.Contract) (w : Mmu κ τ) : Prop where
  traced : ∃ owner, Traced (fun s => s.2 < 1024) (view S.toContract D owner (fun _ _ => 0) w)
  segments : ∀ {pid}, w.pageDirectories pid ≠ none → w.segmentations pid = segments

namespace Sound

theorem created {kernel : κ} {memory : Memory} (hheld : ∀ f, S.holder kernel f = none)
    (hsaved : ∀ s, S.saved kernel s = none) : Sound S D (mmuCreate L kernel memory) := by
  refine ⟨⟨fun _ => none, ?_⟩, fun hp => absurd rfl hp⟩
  constructor
  case placed =>
    constructor
    case data_held =>
      intro f s hf
      exact absurd ((hheld f).symm.trans hf) (by simp)
    case used_held =>
      intro f s hf
      exact absurd ((hheld f).symm.trans hf) (by simp)
    case saved_owned =>
      intro s page hs
      exact absurd ((hsaved s).symm.trans hs) (by simp)
    case used_saved =>
      intro s page hs
      exact absurd ((hsaved s).symm.trans hs) (by simp)
    all_goals simp [view, mmuCreate]
  case linked => simp [view, mmuCreate]
  case cached =>
    intro n s hs
    exact absurd ((D.create n).symm.trans hs) (by simp)

/-- A read or a write sets other bits of an entry at most. -/
theorem accessed {a pid : ℕ} (h : Sound S D w) (hp : w.pageDirectories pid ≠ none)
    (hacc : Accessed K L a pid w w') : Sound S D w' := by
  obtain ⟨owner, htraced⟩ := h.traced
  obtain ⟨d, hd⟩ := Option.ne_none_iff_exists'.mp hp
  have hfound : ∀ {slot w₁}, findPte K.toKernel L a pid w = some (slot, w₁) →
      ∃ owner', Traced (fun s => s.2 < 1024)
          (view S.toContract D owner' (fun _ _ => 0) (pageIn K.toKernel slot w₁)) ∧
        ∀ {q}, (pageIn K.toKernel slot w₁).pageDirectories q ≠ none →
          (pageIn K.toKernel slot w₁).segmentations q = Paging.segments := by
    intro slot w₁ hfind
    obtain ⟨owner', h₁, -⟩ := locate_traced htraced (fun _ hs => hs) hd hfind
    have hrest := pageIn_untouched K.toKernel slot (findPte_untouched hfind)
    refine ⟨owner', h₁, fun hq => ?_⟩
    rw [hrest.segmentations]
    exact h.segments (hrest.pageDirectories ▸ hq)
  cases hacc with
  | null => exact ⟨⟨owner, htraced⟩, h.segments⟩
  | outside hfind =>
    obtain ⟨owner', h₁, hsegs⟩ := hfound hfind
    exact ⟨⟨owner', h₁⟩, hsegs⟩
  | @inside slot w₁ e memory hfind hpresent hbase hentry =>
    obtain ⟨owner', h₁, hsegs⟩ := hfound hfind
    refine ⟨⟨owner', h₁.congr (m := memory) fun s => ?_⟩, hsegs⟩
    rw [hentry]
    by_cases hs : s = slot
    · subst hs
      rw [Function.update_self]
      exact ⟨hpresent, hbase⟩
    · rw [Function.update_of_ne hs]
      exact ⟨rfl, rfl⟩

theorem step {call : Call} (h : Sound S D w) (hs : Handles K L addressInSegmentations w call w') :
    Sound S D w' := by
  have haccess : ∀ {pid a}, call.access = some (pid, a) → Sound S D w' := fun hc =>
    h.accessed (handle_accessed hc hs).1 (handle_accessed hc hs).2
  obtain ⟨owner, htraced⟩ := h.traced
  cases call with
  | add pid =>
    rw [Handles, handle] at hs
    split_ifs at hs with hnew
    obtain rfl := Option.some.inj hs
    obtain ⟨d, t, h₁, hentered⟩ := mmuAddProcess_traced htraced (fun _ hs => hs) hnew
    refine ⟨⟨_, h₁⟩, fun {q} hq => ?_⟩
    have hdirs : (mmuAddProcess K.toKernel pid w).pageDirectories =
        Function.update w.pageDirectories pid (some d) := hentered.dirs
    have hsegs : (mmuAddProcess K.toKernel pid w).segmentations =
        Function.update w.segmentations pid Paging.segments := rfl
    rw [hsegs]
    by_cases hqp : q = pid
    · subst hqp
      exact Function.update_self ..
    · rw [Function.update_of_ne hqp]
      rw [hdirs, Function.update_of_ne hqp] at hq
      exact h.segments hq
  | remove pid =>
    obtain rfl := Option.some.inj hs
    refine ⟨?_, fun {q} hq => ?_⟩
    · cases hd : w.pageDirectories pid with
      | some d =>
        obtain ⟨owner', hleft⟩ := mmuRemoveProcess_left S D owner (fun _ _ => 0) hd
        exact ⟨owner', htraced.leave hd hleft⟩
      | none =>
        refine ⟨owner, ?_⟩
        rw [mmuRemoveProcess_absent S D hd]
        split_ifs
        · exact htraced.flush (D.flush w.tlb)
        · exact htraced
    · obtain ⟨k, heq⟩ := mmuRemoveProcess_eq K L pid w
      rw [heq] at hq ⊢
      have hqp : q ≠ pid := by
        rintro rfl
        simp at hq
      simp only [Function.update_of_ne hqp] at hq ⊢
      exact h.segments hq
  | read pid a n => exact haccess rfl
  | write pid a buffer => exact haccess rfl

end Sound

theorem run_sound (S : K.Swaps) (D : L.Contract) {kernel : κ} {memory : Memory}
    {calls : List Call} (hheld : ∀ f, S.holder kernel f = none)
    (hsaved : ∀ s, S.saved kernel s = none)
    (hr : Run (Handles K L addressInSegmentations) (mmuCreate L kernel memory) calls w) :
    Sound S D w :=
  hr.invariant (.created hheld hsaved) fun h hs => h.step hs

end Cs241.Paging
