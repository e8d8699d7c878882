import Cs241.Paging.Readback
import Cs241.Paging.Swapping

/-!
# What a write changes

A write looks for a segment around its address, but not at the permissions of that
segment. What it changes is in the page of its address; the pages of all other
addresses, of this process and of others, stay what they are.
-/
namespace Cs241.Paging

open Foundation

variable {κ τ : Type*}

/-- A byte of the page of an entry, in memory or on disk. -/
def Mmu.content {K : Kernel κ} (C : K.Contract) (w : Mmu κ τ) (s : Slot) (off : ℕ) : UInt8 :=
  if (w.memory.entry s).present then w.memory.page (w.memory.entry s).baseAddr off
  else ((C.saved w.kernel s).getD fun _ => 0) off

/-- The process has the page of a virtual address, through its directory or through the TLB. -/
inductive Mapped {L : Tlb τ} (D : L.Contract) (w : Mmu κ τ) (pid x : ℕ) : Slot → Prop
  | linked {d} : w.pageDirectories pid = some d →
      (w.memory.entry (d, x / 2 ^ 22)).present = true →
      Mapped D w pid x ((w.memory.entry (d, x / 2 ^ 22)).baseAddr, x / 2 ^ 12 % 2 ^ 10)
  | cached {slot} : w.currPid = pid → D.last w.tlb (x / 2 ^ 12) = some slot →
      Mapped D w pid x slot

/-- The byte at a virtual address of a process changes: in a page that the process has, or in a
page that it gets, which starts with zeros. -/
inductive Changed {K : Kernel κ} {L : Tlb τ} (C : K.Contract) (D : L.Contract) (w w' : Mmu κ τ)
    (pid x : ℕ) : Prop
  | kept {s} : Mapped D w pid x s → w'.content C s (x % 4096) ≠ w.content C s (x % 4096) →
      Changed C D w w' pid x
  | made {s} : (∀ s, ¬ Mapped D w pid x s) → Mapped D w' pid x s →
      w'.content C s (x % 4096) ≠ 0 → Changed C D w w' pid x

/-- The address is in the segment. -/
def VmSegmentation.Contains (seg : VmSegmentation) (a : ℕ) : Prop := seg.start ≤ a ∧ a < seg.stop

/-- A write to `a` by `pid` changes only what lies in segments of `pid` that can be written. In any
other segment it raises one segmentation fault and changes nothing. -/
structure Respects {K : Kernel κ} {L : Tlb τ} (C : K.Contract) (D : L.Contract) (pid a : ℕ)
    (w w' : Mmu κ τ) : Prop where
  writable : ∀ {q x}, Changed C D w w' q x →
    q = pid ∧ ∃ seg ∈ w.segmentations pid, seg.write = true ∧ seg.Contains x
  guarded : (∃ seg ∈ w.segmentations pid, seg.write = false ∧ seg.Contains a) →
    w'.numSegmentationFaults = w.numSegmentationFaults + 1 ∧ ∀ q x, ¬ Changed C D w w' q x

variable {K : FrameKernel κ} {L : Tlb τ} {S : K.Swaps} {D : L.Contract}
  {addressInSegmentations : List VmSegmentation → ℕ → Bool} {w w' w₁ w₂ : Mmu κ τ} {slot : Slot}
  {pid a q x : ℕ}

/-- A page of a process is one of its own tables. -/
theorem Traced.mapped {used : Slot → Prop} {owner : ℕ → Option (ℕ × ℕ)}
    {values : ℕ → ℕ → UInt8} {s : Slot} (h : Traced used (view S.toContract D owner values w))
    (hm : Mapped D w q x s) :
    owner s.1 = some (q, x / 2 ^ 12 / 1024) ∧ s.2 = x / 2 ^ 12 % 1024 := by
  cases hm with
  | @linked d hd hp =>
    have hbits : x / 2 ^ 22 = x / 2 ^ 12 / 1024 := by omega
    rw [← hbits]
    exact ⟨h.linked hd hp, rfl⟩
  | cached hcurr hl =>
    subst hcurr
    exact h.cached hl

/-- Two addresses of one page are mapped alike. -/
theorem Mapped.congr {s : Slot} {y : ℕ} (hm : Mapped D w q x s) (hxy : x / 2 ^ 12 = y / 2 ^ 12) :
    Mapped D w q y s := by
  cases hm with
  | linked hd hp =>
    have hbits : x / 2 ^ 22 = y / 2 ^ 22 := by omega
    rw [hxy, hbits]
    exact .linked hd (hbits ▸ hp)
  | cached hcurr hl => exact .cached hcurr (hxy ▸ hl)

/-- The bytes of the page of an entry may have changed, and bits of entries that lead nowhere. -/
structure OnlyAt (S : K.Swaps) (owner : ℕ → Option (ℕ × ℕ)) (slot : Slot) (w w' : Mmu κ τ) :
    Prop where
  rest : w'.tlb = w.tlb ∧ w'.currPid = w.currPid ∧ w'.pageDirectories = w.pageDirectories
  entry : ∀ s, (w'.memory.entry s).present = (w.memory.entry s).present ∧
    (w'.memory.entry s).baseAddr = (w.memory.entry s).baseAddr
  content : ∀ {s : Slot}, owner s.1 ≠ none → s ≠ slot → ∀ off < 4096,
    w'.content S.toContract s off = w.content S.toContract s off

/-- What changes lies in the page of the entry that was found for `a`, and its bytes changed after
the page was brought in. -/
theorem Located.changed {used : Slot → Prop} {owner owner' : ℕ → Option (ℕ × ℕ)}
    {values : ℕ → ℕ → UInt8} {d : ℕ} (hd : w.pageDirectories pid = some d)
    (h : Traced used (view S.toContract D owner values w))
    (h₂ : Traced used (view S.toContract D owner' values w₂)) (hpid : w₂.currPid = pid)
    (hloc : Located a (view S.toContract D owner values w)
      (view S.toContract D owner' values w₂) slot)
    (horigin : (w.currPid = pid ∧ D.last w.tlb (a / 2 ^ 12) = some slot) ∨
      ((w.memory.entry (d, a / 2 ^ 22)).present = true ∧
        slot = ((w.memory.entry (d, a / 2 ^ 22)).baseAddr, a / 2 ^ 12 % 2 ^ 10)) ∨
      ∀ off < 4096, w₂.content S.toContract slot off = 0)
    (honly : OnlyAt S owner' slot w₂ w') (hchanged : Changed S.toContract D w w' q x) :
    q = pid ∧ x / 2 ^ 12 = a / 2 ^ 12 ∧
      w'.content S.toContract slot (x % 4096) ≠ w₂.content S.toContract slot (x % 4096) := by
  have hoff : x % 4096 < 4096 := Nat.mod_lt _ (by decide)
  obtain ⟨htlb, hcurr, hdirs⟩ := honly.rest
  have hdirs₂ : w₂.pageDirectories = w.pageDirectories := hloc.rest.1
  have hslot := h₂.cached hloc.found
  rw [show (view S.toContract D owner' values w₂).curr = pid from hpid] at hslot
  cases hchanged with
  | @kept s hm hne =>
    obtain ⟨hown, h2⟩ := h.mapped hm
    have hs : owner s.1 ≠ none := Option.ne_none_iff_exists'.mpr ⟨_, hown⟩
    have hown' := hloc.owner hown
    have hold : w₂.content S.toContract s (x % 4096) = w.content S.toContract s (x % 4096) :=
      hloc.content hs _ hoff
    obtain rfl : s = slot := by
      by_contra hss
      have hkept := honly.content (Option.ne_none_iff_exists'.mpr ⟨_, hown'⟩) hss _ hoff
      exact hne (hkept.trans hold)
    obtain ⟨hq, hx⟩ := Prod.mk.inj (Option.some.inj (hown'.symm.trans hslot.1))
    have hx2 := h2.symm.trans hslot.2
    exact ⟨hq, by omega, fun heq => hne (heq.trans hold)⟩
  | @made s hnot hm hne =>
    have hnew : q = pid ∧ x / 2 ^ 12 = a / 2 ^ 12 ∧ s = slot := by
      cases hm with
      | @linked d' hd' hp =>
        rw [hdirs, hdirs₂] at hd'
        have hp₂ := (hloc.dir (j := x / 2 ^ 22) hd').1
        exact absurd (.linked hd' (hp₂.symm.trans ((honly.entry _).1.symm.trans hp))) (hnot _)
      | cached hq hl =>
        rw [hcurr, hpid] at hq
        rw [htlb] at hl
        rcases hloc.learned hl with ⟨hsame, hold⟩ | hnew
        · exact absurd (.cached (hsame.trans (hpid.trans hq)) hold) (hnot _)
        · exact ⟨hq.symm, hnew⟩
    obtain ⟨rfl, hxa, rfl⟩ := hnew
    have hmapped : ¬ Mapped D w q a s := fun hm => hnot s (hm.congr hxa.symm)
    rcases horigin with ⟨hq, hl⟩ | ⟨hp, rfl⟩ | hzero
    · exact absurd (.cached hq hl) hmapped
    · exact absurd (.linked hd hp) hmapped
    · exact ⟨rfl, hxa, fun heq => hne (heq.trans (hzero _ hoff))⟩

theorem OnlyAt.fault (S : K.Swaps) (owner : ℕ → Option (ℕ × ℕ)) (slot : Slot) (w : Mmu κ τ) :
    OnlyAt S owner slot w w.raiseSegmentationFault :=
  ⟨⟨rfl, rfl, rfl⟩, fun _ => ⟨rfl, rfl⟩, fun _ _ _ _ => rfl⟩

/-- Bytes are written through an entry whose page is in memory. -/
theorem OnlyAt.write {used : Slot → Prop} {owner : ℕ → Option (ℕ × ℕ)} {values : ℕ → ℕ → UInt8}
    {e : Entry} {o : ℕ} {buffer : List UInt8}
    (h : Placed used (view S.toContract D owner values w)) (hown : owner slot.1 ≠ none)
    (hpresent : (w.memory.entry slot).present = true)
    (he : e.present = (w.memory.entry slot).present ∧
      e.baseAddr = (w.memory.entry slot).baseAddr) (ho : buffer.length + o ≤ 4096) :
    OnlyAt S owner slot w { w.setEntry slot e with
      memory := (w.memory.setEntry slot e).write (o + e.baseAddr * 4096) buffer } := by
  have hentry : (w.memory.setEntry slot e).entry slot = e := Memory.entry_setEntry_self ..
  obtain ⟨htouch, hkeeps⟩ := h.touch he.1 he.2
  constructor
  case rest => exact ⟨rfl, rfl, rfl⟩
  case entry =>
    intro s
    by_cases hs : s = slot
    · subst hs
      rw [show ((w.memory.setEntry s e).write (o + e.baseAddr * 4096) buffer).entry s = e from
        hentry]
      exact he
    · rw [show ((w.memory.setEntry slot e).write (o + e.baseAddr * 4096) buffer).entry s =
        w.memory.entry s from Memory.entry_setEntry_of_ne _ _ hs]
      exact ⟨rfl, rfl⟩
  case content =>
    intro s hs hne off hoff
    have hwritten := htouch.content_written buffer o values hown
      ((congrArg Entry.present hentry).trans (he.1.trans hpresent)) ho hs hne off hoff
    have hview : view S.toContract D owner values { w.setEntry slot e with
          memory := (w.memory.setEntry slot e).write (o + e.baseAddr * 4096) buffer } =
        View.written { view S.toContract D owner values w with
          mem := w.memory.setEntry slot e } slot o buffer values := by
      simp only [View.written, view, Mmu.setEntry, hentry]
    have hcontent := congrArg (fun v => View.content v s off) hview
    exact hcontent.trans (hwritten.trans (hkeeps.content hs off hoff))

theorem not_changed_fault : ¬ Changed S.toContract D w w.raiseSegmentationFault q x := by
  intro hchanged
  cases hchanged with
  | kept _ hne => exact hne rfl
  | made hnot hm _ =>
    cases hm with
    | linked hd hp => exact hnot _ (.linked hd hp)
    | cached hcurr hl => exact hnot _ (.cached hcurr hl)

/-- A write inside of some segment changes bytes of its page only and raises no fault; any other
write changes nothing and raises one. -/
theorem write_changed {buffer : List UInt8} (h : Sound S D w)
    (hs : Handles K L addressInSegmentations w (.write pid a buffer) w') :
    (a ≠ 0 ∧ addressInSegmentations (w.segmentations pid) a = true ∧
      w'.numSegmentationFaults = w.numSegmentationFaults ∧
      ∀ q x, Changed S.toContract D w w' q x → q = pid ∧ x / 2 ^ 12 = a / 2 ^ 12) ∨
    ((a = 0 ∨ ¬ addressInSegmentations (w.segmentations pid) a = true) ∧
      w'.numSegmentationFaults = w.numSegmentationFaults + 1 ∧
      ∀ q x, ¬ Changed S.toContract D w w' q x) := by
  rw [Handles, handle] at hs
  split_ifs at hs with hallowed
  obtain ⟨hlive, -, hpage⟩ := hallowed
  obtain ⟨owner, htraced⟩ := h.traced
  obtain ⟨d, hd⟩ := Option.ne_none_iff_exists'.mp hlive
  unfold mmuWriteToVirtualAddress at hs
  split_ifs at hs with ha
  · obtain rfl := Option.some.inj hs
    exact .inr ⟨.inl ha, rfl, fun _ _ => not_changed_fault⟩
  obtain ⟨⟨slot, w₁⟩, hfind, rfl⟩ := Option.map_eq_some_iff.mp hs
  dsimp only
  have hrest := pageIn_untouched K.toKernel slot (findPte_untouched hfind)
  obtain ⟨owner', h₂, hloc, hpresent, horigin⟩ :=
    locate_traced htraced (fun _ hs => hs) hd hfind
  have hown : owner' slot.1 ≠ none :=
    Option.ne_none_iff_exists'.mpr ⟨_, (h₂.cached hloc.found).1⟩
  set w₂ := pageIn K.toKernel slot w₁
  rw [hrest.segmentations]
  split_ifs with hin
  · refine .inl ⟨ha, hin, hrest.faults, fun q x hchanged => ?_⟩
    have honly := OnlyAt.write (S := S) (e := { w₂.memory.entry slot with
      dirty := true, accessed := true }) h₂.placed hown hpresent ⟨rfl, rfl⟩ hpage
    obtain ⟨hq, hx, -⟩ := hloc.changed hd htraced h₂ hrest.currPid horigin honly hchanged
    exact ⟨hq, hx⟩
  · refine .inr ⟨.inr hin, congrArg (· + 1) hrest.faults, fun q x hchanged => ?_⟩
    obtain ⟨-, -, hne⟩ := hloc.changed hd htraced h₂ hrest.currPid horigin
      (.fault S owner' slot w₂) hchanged
    exact hne rfl

/-- Segments begin and end with pages, and none has the null address. -/
theorem segments_aligned : ∀ seg ∈ segments,
    seg.start % 4096 = 0 ∧ seg.stop % 4096 = 0 ∧ 0 < seg.start := by
  decide

theorem VmSegmentation.Contains.congr {seg : VmSegmentation} (hseg : seg ∈ segments)
    (ha : seg.Contains a) (hx : x / 2 ^ 12 = a / 2 ^ 12) : seg.Contains x := by
  obtain ⟨hstart, hstop, -⟩ := segments_aligned seg hseg
  obtain ⟨hle, hlt⟩ := ha
  constructor
  all_goals omega

/-- In any state that the unit reaches, a write respects the permissions if and only if every
segment that has its address can be written. -/
theorem respects_iff (S : K.Swaps) (D : L.Contract)
    (hsegmentations : ∀ segs a, addressInSegmentations segs a = true ↔
      ∃ seg ∈ segs, seg.Contains a)
    {kernel : κ} {memory : Memory} {calls : List Call} {buffer : List UInt8}
    (hheld : ∀ f, S.holder kernel f = none) (hsaved : ∀ s, S.saved kernel s = none)
    (hr : Run (Handles K L addressInSegmentations) (mmuCreate L kernel memory) calls w)
    (hs : Handles K L addressInSegmentations w (.write pid a buffer) w') :
    Respects S.toContract D pid a w w' ↔
      ∀ seg ∈ w.segmentations pid, seg.Contains a → seg.write = true := by
  have h := run_sound S D hheld hsaved hr
  have hlive : w.pageDirectories pid ≠ none := by
    rw [Handles, handle] at hs
    split_ifs at hs with hallowed
    exact hallowed.1
  have hsegs := h.segments hlive
  have hwrite := write_changed h hs
  constructor
  · intro hrespects seg hseg hin
    by_contra hprotected
    obtain ⟨hfault, -⟩ := hrespects.guarded ⟨seg, hseg, by simpa using hprotected, hin⟩
    have hpos := (segments_aligned seg (hsegs ▸ hseg)).2.2
    rcases hwrite with ⟨-, -, hnone, -⟩ | ⟨hout, -, -⟩
    · omega
    · rcases hout with rfl | hout
      · exact absurd hin.1 (by omega)
      · exact hout ((hsegmentations _ _).mpr ⟨seg, hseg, hin⟩)
  · intro hall
    constructor
    · intro q x hchanged
      rcases hwrite with ⟨-, hin, -, hpage⟩ | ⟨-, -, hnot⟩
      · obtain ⟨hq, hx⟩ := hpage q x hchanged
        obtain ⟨seg, hseg, ha⟩ := (hsegmentations _ _).mp hin
        exact ⟨hq, seg, hseg, hall seg hseg ha, ha.congr (hsegs ▸ hseg) hx⟩
      · exact absurd hchanged (hnot q x)
    · rintro ⟨seg, hseg, hprotected, ha⟩
      exact absurd (hall seg hseg ha) (by simp [hprotected])

/-! ## A kernel that remembers what its frames are for -/

/-- Frames are handed out in order and are not used again. -/
def orderedKernel : FrameKernel (List (Option Ref)) where
  askForFrame := fun k m ref => (4096 * k.length, k ++ [some ref], m.zero k.length)
  readPageFromDisk := fun k m _ => (k, m)
  returnFrameToKernel := fun k address => k.set (address / 4096) none
  removeSwapFile := fun k _ => k

theorem orderedKernel_ask (k : List (Option Ref)) (ref : Ref) :
    (fun f => (k ++ [some ref]).getD f none) =
      Function.update (fun f => k.getD f none) k.length (some ref) := by
  funext f
  by_cases hf : f = k.length
  · simp [hf]
  · rw [Function.update_of_ne hf]
    rcases Nat.lt_or_gt_of_ne hf with h | h
    · simp [List.getD, List.getElem?_append_left h]
    · simp [List.getD, List.getElem?_eq_none (show k.length ≤ f by omega),
        List.getElem?_eq_none (show (k ++ [some ref]).length ≤ f by simp; omega)]

def orderedKernelSwaps : orderedKernel.Swaps where
  holder := fun k f => k.getD f none
  saved := fun _ _ => none
  ask := fun k _ ref => ⟨k.length, rfl, orderedKernel_ask k ref, .inl ⟨by simp, rfl, rfl⟩⟩
  read_holder := fun _ _ _ => rfl
  read_saved := fun _ _ _ _ h => absurd h (by simp)
  read_none := fun _ _ _ _ => ⟨rfl, rfl⟩
  giveBack_holder := fun k frame => by
    funext f
    simp only [orderedKernel, show 4096 * frame / 4096 = frame by omega, List.getD,
      List.getElem?_set]
    by_cases hf : frame = f
    · subst hf
      simp only [if_true, Function.update_self]
      split_ifs <;> rfl
    · rw [if_neg hf, Function.update_of_ne (Ne.symm hf)]
  giveBack_saved := fun _ _ => rfl
  removeSwap_holder := fun _ _ => rfl
  removeSwap_saved := fun _ _ => by simp

theorem inSegments_iff (segs : List VmSegmentation) (a : ℕ) :
    inSegments segs a = true ↔ ∃ seg ∈ segs, seg.Contains a := by
  simp [inSegments, VmSegmentation.Contains]

instance {seg : VmSegmentation} : Decidable (seg.Contains a) :=
  inferInstanceAs (Decidable (_ ∧ _))

/-- The unit before any process is added; the first frame is not handed out. -/
def switchedOn : Mmu (List (Option Ref)) (ℕ → Option Slot) :=
  mmuCreate plainTlb [none] ⟨fun _ => .zero, fun _ => 0⟩

/-- A process writes to its data, for which a page table and a page are made. -/
theorem respects_iff_data : ∃ w w' : Mmu (List (Option Ref)) (ℕ → Option Slot),
    Run (Handles orderedKernel plainTlb inSegments) switchedOn [.add 1] w ∧
    Handles orderedKernel plainTlb inSegments w (.write 1 0x08052000 [7]) w' ∧
    Respects orderedKernelSwaps.toContract plainTlbContract 1 0x08052000 w w' := by
  have hadd : Handles orderedKernel plainTlb inSegments switchedOn (.add 1)
      (mmuAddProcess orderedKernel.toKernel 1 switchedOn) := rfl
  obtain ⟨w', hwrite⟩ := Option.isSome_iff_exists.mp
    (show (handle orderedKernel plainTlb inSegments
      (mmuAddProcess orderedKernel.toKernel 1 switchedOn)
      (.write 1 0x08052000 [7])).isSome = true by decide +kernel)
  have hheld : ∀ f, orderedKernelSwaps.holder [none] f = none := by
    intro f
    cases f <;> rfl
  refine ⟨_, w', .single hadd, hwrite, ?_⟩
  apply (respects_iff orderedKernelSwaps plainTlbContract inSegments_iff hheld (fun _ => rfl)
    (.single hadd) hwrite).mpr
  have hsegs : (mmuAddProcess orderedKernel.toKernel 1 switchedOn).segmentations 1 = segments := rfl
  rw [hsegs]
  decide

/-- A byte of the program text, which is not to be written, is written without a fault. -/
theorem not_respects :
    ¬ ∀ (κ τ : Type) (K : FrameKernel κ) (L : Tlb τ)
      (addressInSegmentations : List VmSegmentation → ℕ → Bool) (S : K.Swaps) (D : L.Contract)
      (kernel : κ) (memory : Memory) (calls : List Call) (w w' : Mmu κ τ) (pid a : ℕ)
      (buffer : List UInt8),
      (∀ segs a, addressInSegmentations segs a = true ↔ ∃ seg ∈ segs, seg.Contains a) →
      (∀ f, S.holder kernel f = none) → (∀ s, S.saved kernel s = none) →
      Run (Handles K L addressInSegmentations) (mmuCreate L kernel memory) calls w →
      Handles K L addressInSegmentations w (.write pid a buffer) w' →
        Respects S.toContract D pid a w w' := by
  intro hall
  have hadd : Handles orderedKernel plainTlb inSegments switchedOn (.add 1)
      (mmuAddProcess orderedKernel.toKernel 1 switchedOn) := rfl
  have hfaults : (handle orderedKernel plainTlb inSegments
      (mmuAddProcess orderedKernel.toKernel 1 switchedOn) (.write 1 0x08048000 [7])).map
        (fun w => w.numSegmentationFaults) = some 0 := by
    decide +kernel
  obtain ⟨w', hwrite, hnone⟩ := Option.map_eq_some_iff.mp hfaults
  have hheld : ∀ f, orderedKernelSwaps.holder [none] f = none := by
    intro f
    cases f <;> rfl
  have hrespects := hall _ _ orderedKernel plainTlb inSegments orderedKernelSwaps plainTlbContract
    _ _ _ _ w' _ _ _ inSegments_iff hheld (fun _ => rfl) (.single hadd) hwrite
  have htext : ∃ seg ∈ segments, seg.write = false ∧ seg.Contains 0x08048000 := by decide
  have hfault := (hrespects.guarded htext).1
  rw [hnone] at hfault
  exact absurd hfault (by decide)

end Cs241.Paging
