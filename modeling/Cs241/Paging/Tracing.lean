import Mathlib.Tactic.Set
import Cs241.Paging.Holders

/-!
# Whose tables are reached

The directory of a process leads to its own tables, and so does the TLB. Each
function of the unit changes the view by the changes of the last module: it
keeps the pages of all tables, and the only new pages are those of tables that it
makes.
-/
namespace Cs241.Paging

/-! ## Owners -/

/-- Directories lead to tables of their process, the TLB to entries of tables of the process that
runs. -/
structure Traced (used : Slot → Prop) (v : View) : Prop where
  placed : Placed used v
  linked : ∀ {p d j}, v.dirs p = some d → (v.mem.entry (d, j)).present →
    v.owner (v.mem.entry (d, j)).baseAddr = some (p, j)
  cached : ∀ {n s}, v.last n = some s → v.owner s.1 = some (v.curr, n / 1024) ∧ s.2 = n % 1024

namespace Traced

variable {used : Slot → Prop} {v v' : View} (h : Traced used v) {t p n : ℕ} {s : Slot}
include h

theorem of_keeps (hplaced : Placed used v') (hk : Keeps v v') : Traced used v' := by
  obtain ⟨hlast, hcurr, hdirs, hown, -⟩ := hk.rest
  refine ⟨hplaced, fun {p d j} hd hp => ?_, fun hl => ?_⟩
  · have hd' := (congrFun hdirs p).symm.trans hd
    obtain ⟨hpresent, hbase⟩ := hk.dir (j := j) hd'
    rw [hbase, hown]
    exact h.linked hd' (hpresent ▸ hp)
  · rw [hown, hcurr]
    exact h.cached (hlast ▸ hl)

/-- The entries lead where they led before. -/
theorem congr {m : Memory} (hm : ∀ s, (m.entry s).present = (v.mem.entry s).present ∧
    (m.entry s).baseAddr = (v.mem.entry s).baseAddr) : Traced used { v with mem := m } := by
  refine ⟨h.placed.congr hm, ?_, h.cached⟩
  simpa only [hm] using @h.linked

/-- Another process finds an empty TLB. -/
theorem flush {last : ℕ → Option Slot} (hl : ∀ n, last n = none) :
    Traced used { v with last := last, curr := p } := by
  refine ⟨{ h.placed with }, h.linked, fun hs => ?_⟩
  simp [hl] at hs

/-- The TLB learns an entry of a table of the process that runs. -/
theorem cache (hs : v.owner s.1 = some (v.curr, n / 1024)) (h2 : s.2 = n % 1024) :
    Traced used { v with last := Function.update v.last n (some s) } := by
  refine ⟨{ h.placed with }, h.linked, fun {m s'} hm => ?_⟩
  by_cases hmn : m = n
  · subst hmn
    obtain rfl : s = s' := by simpa using hm
    exact ⟨hs, h2⟩
  · exact h.cached (by simpa [hmn] using hm)

/-- A zeroed frame becomes a table. -/
theorem adopt {o : ℕ × ℕ} (hpin : v.holder t = some .null ∨ v.holder t = some .localCopy)
    (hnew : v.owner t = none) (hnd : ∀ q, v.dirs q ≠ some t)
    (hz : ∀ i, (v.mem.entry (t, i)).present = false) :
    Traced used { v with owner := Function.update v.owner t (some o) } := by
  have hsome : ∀ {t' o'}, v.owner t' = some o' →
      Function.update v.owner t (some o) t' = some o' := by
    intro t' o' ho
    have hne : t' ≠ t := by
      rintro rfl
      simp [hnew] at ho
    simpa [hne] using ho
  exact ⟨h.placed.adopt hpin hnew hnd hz, fun hd hp => hsome (h.linked hd hp),
    fun hl => (h.cached hl).imp_left hsome⟩

/-- A new process gets an empty directory. -/
theorem addDir {d : ℕ} (hh : v.holder d = some .null) (ho : v.owner d = none)
    (hnd : ∀ q, v.dirs q ≠ some d) (hz : ∀ j, (v.mem.entry (d, j)).present = false) :
    Traced used { v with dirs := Function.update v.dirs p (some d) } := by
  refine ⟨h.placed.addDir hh ho hnd, fun {q d' j} hq hp => ?_, h.cached⟩
  by_cases hqp : q = p
  · subst hqp
    obtain rfl : d = d' := by simpa using hq
    simp [hz] at hp
  · exact h.linked (by simpa [hqp] using hq) hp

/-- An entry of a directory leads to a table of its process. -/
theorem link {d j : ℕ} {e : Entry} (hd : v.dirs p = some d)
    (ht : v.owner e.baseAddr = some (p, j)) :
    Traced used { v with mem := v.mem.setEntry (d, j) e } := by
  refine ⟨h.placed.link hd, fun {q d' j'} hq hp => ?_, h.cached⟩
  by_cases hdj : ((d', j') : Slot) = (d, j)
  · obtain ⟨rfl, rfl⟩ := Prod.mk.inj hdj
    obtain rfl := h.placed.dir_inj hq hd
    rw [Memory.entry_setEntry_self]
    exact ht
  · simp only [Memory.entry_setEntry_of_ne _ _ hdj] at hp ⊢
    exact h.linked hq hp

end Traced

/-- What finding the entry of an address and bringing in its page do. A table may have been made,
for the process that runs. -/
structure Located (a : ℕ) (v v' : View) (slot : Slot) : Prop where
  rest : v'.dirs = v.dirs ∧ v'.values = v.values
  owner : ∀ {t o}, v.owner t = some o → v'.owner t = some o
  owned : ∀ {t o}, v'.owner t = some o → v.owner t = some o ∨ o.1 = v'.curr
  dir : ∀ {p d j}, v.dirs p = some d →
    (v'.mem.entry (d, j)).present = (v.mem.entry (d, j)).present ∧
      (v'.mem.entry (d, j)).baseAddr = (v.mem.entry (d, j)).baseAddr
  content : ∀ {s}, v.owner s.1 ≠ none → ∀ off < 4096, v'.content s off = v.content s off
  found : v'.last (a / 2 ^ 12) = some slot
  learned : ∀ {n s}, v'.last n = some s →
    (v.curr = v'.curr ∧ v.last n = some s) ∨ (n = a / 2 ^ 12 ∧ s = slot)

namespace Located

variable {a p : ℕ} {v v' v'' : View} {slot : Slot} (h : Located a v v' slot)
include h

theorem keeps (hk : Keeps v' v'') : Located a v v'' slot := by
  obtain ⟨hlast, hcurr, hdirs, hown, hvalues⟩ := hk.rest
  constructor
  case rest => exact ⟨hdirs.trans h.rest.1, hvalues.trans h.rest.2⟩
  case owner =>
    intro t o ho
    rw [hown]
    exact h.owner ho
  case owned =>
    intro t o ho
    rw [hcurr]
    exact h.owned (hown ▸ ho)
  case dir =>
    intro p d j hd
    obtain ⟨hp, hb⟩ := h.dir (j := j) hd
    obtain ⟨hp', hb'⟩ := hk.dir (j := j) ((congrFun h.rest.1 p).trans hd)
    exact ⟨hp'.trans hp, hb'.trans hb⟩
  case content =>
    intro s hs off hoff
    obtain ⟨o, ho⟩ := Option.ne_none_iff_exists'.mp hs
    have hs' : v'.owner s.1 ≠ none := Option.ne_none_iff_exists'.mpr ⟨o, h.owner ho⟩
    exact (hk.content hs' off hoff).trans (h.content hs off hoff)
  case found =>
    rw [hlast]
    exact h.found
  case learned =>
    intro n s hs
    rw [hcurr]
    exact h.learned (hlast ▸ hs)

end Located

/-- The lookup in a TLB that knows the entry. -/
theorem Located.hit {a : ℕ} {v : View} {slot : Slot} (hl : v.last (a / 2 ^ 12) = some slot) :
    Located a v v slot := by
  constructor
  case rest => exact ⟨rfl, rfl⟩
  case owner => exact fun ho => ho
  case owned => exact fun ho => .inl ho
  case dir => exact fun _ => ⟨rfl, rfl⟩
  case content => exact fun _ _ _ => rfl
  case found => exact hl
  case learned => exact fun hs => .inl ⟨rfl, hs⟩

/-- The lookup in a TLB that does not know the entry and learns it. A table may have been made. -/
theorem Located.miss {a : ℕ} {v v₁ : View} {owner : ℕ → Option (ℕ × ℕ)} (slot : Slot)
    (hk : Keeps v v₁) (hmono : ∀ {t o}, v₁.owner t = some o → owner t = some o)
    (hnew : ∀ {t o}, owner t = some o → v₁.owner t = some o ∨ o.1 = v₁.curr) :
    Located a v { v₁ with
      owner := owner, last := Function.update v₁.last (a / 2 ^ 12) (some slot) } slot := by
  obtain ⟨hlast, hcurr, hdirs, hown, hvalues⟩ := hk.rest
  constructor
  case rest => exact ⟨hdirs, hvalues⟩
  case owner => exact fun ho => hmono (hown ▸ ho)
  case owned => exact fun ho => (hnew ho).imp_left fun h => hown ▸ h
  case dir => exact hk.dir
  case content => exact hk.content
  case found => exact Function.update_self ..
  case learned =>
    intro n s hs
    dsimp only at hs
    by_cases hn : n = a / 2 ^ 12
    · subst hn
      rw [Function.update_self] at hs
      exact .inr ⟨rfl, (Option.some.inj hs).symm⟩
    · rw [Function.update_of_ne hn, hlast] at hs
      exact .inl ⟨hcurr.symm, hs⟩

/-- The switch to the process before the search. -/
theorem Located.switch {a p : ℕ} {v v' : View} {slot : Slot} {last : ℕ → Option Slot}
    (h : Located a { v with last := last, curr := p } v' slot) (hp : v'.curr = p)
    (hl : ∀ {n s}, last n = some s → v.curr = p ∧ v.last n = some s) : Located a v v' slot := by
  refine { h with learned := ?_ }
  intro n s hs
  rcases h.learned hs with ⟨-, hold⟩ | hnew
  · obtain ⟨hcurr, hold⟩ := hl hold
    exact .inl ⟨hcurr.trans hp.symm, hold⟩
  · exact .inr hnew

/-- What adding a process does: its directory `d` leads to a blank table `t` only. -/
structure Entered (p d t : ℕ) (v v' : View) : Prop where
  rest : v'.last = v.last ∧ v'.curr = v.curr ∧ v'.values = v.values
  dirs : v'.dirs = Function.update v.dirs p (some d)
  owner : v'.owner = Function.update v.owner t (some (p, 0))
  dir : ∀ {q d' j}, v.dirs q = some d' →
    (v'.mem.entry (d', j)).present = (v.mem.entry (d', j)).present ∧
      (v'.mem.entry (d', j)).baseAddr = (v.mem.entry (d', j)).baseAddr
  first : (v'.mem.entry (d, 0)).baseAddr = t
  alone : ∀ {j}, (v'.mem.entry (d, j)).present → j = 0
  content : ∀ {s}, v.owner s.1 ≠ none → ∀ off < 4096, v'.content s off = v.content s off
  blank : ∀ i, ∀ off < 4096, v'.content (t, i) off = 0

/-- The directory `d` is handed out, then the table `t`, to which the first entry is set. -/
theorem Entered.of_keeps {used : Slot → Prop} {p d t : ℕ} {e : Entry} {v v₁ v₂ v₃ : View}
    (hplaced : Placed used v₂) (hk₁ : Keeps v v₁)
    (hk₂ : Keeps { v₁ with dirs := Function.update v₁.dirs p (some d) } v₂)
    (hk₃ : Keeps { v₂ with
      mem := v₂.mem.setEntry (d, 0) e, owner := Function.update v₂.owner t (some (p, 0)) } v₃)
    (hnew : v.dirs p = none) (hnd : ∀ q, v.dirs q ≠ some d)
    (hz₁ : ∀ j, (v₁.mem.entry (d, j)).present = false) (hown : v₂.owner t = none)
    (hz₂ : ∀ i, (v₂.mem.entry (t, i)).present = false) (hdt : d ≠ t) (he : e.baseAddr = t) :
    Entered p d t v v₃ := by
  obtain ⟨hlast₁, hcurr₁, hdirs₁, hown₁, hvalues₁⟩ := hk₁.rest
  obtain ⟨hlast₂, hcurr₂, hdirs₂, hown₂, hvalues₂⟩ := hk₂.rest
  obtain ⟨hlast₃, hcurr₃, hdirs₃, hown₃, hvalues₃⟩ := hk₃.rest
  have hd₂ : v₂.dirs p = some d := (congrFun hdirs₂ p).trans (Function.update_self ..)
  -- The entries of directories other than the one that is set.
  have hdir : ∀ {q d' j}, v₂.dirs q = some d' → ((d', j) : Slot) ≠ (d, 0) →
      (v₃.mem.entry (d', j)).present = (v₁.mem.entry (d', j)).present ∧
        (v₃.mem.entry (d', j)).baseAddr = (v₁.mem.entry (d', j)).baseAddr := by
    intro q d' j hq hne
    obtain ⟨hp, hb⟩ := hk₃.dir (j := j) hq
    obtain ⟨hp', hb'⟩ := hk₂.dir (j := j) ((congrFun hdirs₂ q).symm.trans hq)
    have hentry := Memory.entry_setEntry_of_ne v₂.mem e hne
    exact ⟨hp.trans ((congrArg Entry.present hentry).trans hp'),
      hb.trans ((congrArg Entry.baseAddr hentry).trans hb')⟩
  have hcontent : ∀ {s : Slot}, s.1 = t ∨ v₂.owner s.1 ≠ none → ∀ off < 4096,
      (View.content { v₂ with mem := v₂.mem.setEntry (d, 0) e } s off = v₂.content s off) →
        v₃.content s off = v₂.content s off := by
    intro s hs off hoff heq
    refine (hk₃.content ?_ off hoff).trans heq
    by_cases hst : s.1 = t
    · simp [hst]
    · simpa [hst] using hs
  constructor
  case rest => exact ⟨hlast₃.trans (hlast₂.trans hlast₁), hcurr₃.trans (hcurr₂.trans hcurr₁),
    hvalues₃.trans (hvalues₂.trans hvalues₁)⟩
  case dirs => exact hdirs₃.trans (hdirs₂.trans (congrArg (Function.update · p (some d)) hdirs₁))
  case owner =>
    exact hown₃.trans (congrArg (Function.update · t (some (p, 0))) (hown₂.trans hown₁))
  case dir =>
    intro q d' j hq
    have hqp : q ≠ p := by
      rintro rfl
      exact absurd (hnew.symm.trans hq) (by simp)
    have hdd : d' ≠ d := by
      rintro rfl
      exact hnd q hq
    have hq₁ : v₂.dirs q = some d' := by
      rw [hdirs₂]
      exact (Function.update_of_ne hqp ..).trans ((congrFun hdirs₁ q).trans hq)
    obtain ⟨hp, hb⟩ := hdir (j := j) hq₁ fun heq => hdd (congrArg Prod.fst heq)
    obtain ⟨hp', hb'⟩ := hk₁.dir (j := j) hq
    exact ⟨hp.trans hp', hb.trans hb'⟩
  case first =>
    exact (hk₃.dir (j := 0) hd₂).2.trans ((congrArg Entry.baseAddr
      (Memory.entry_setEntry_self ..)).trans he)
  case alone =>
    intro j hj
    by_contra hne
    have habs := (hdir hd₂ fun heq => hne (congrArg Prod.snd heq)).1.trans (hz₁ j)
    exact absurd (hj.symm.trans habs) (by simp)
  case content =>
    intro s hs off hoff
    have hs₂ : v₂.owner s.1 ≠ none := by
      rw [hown₂]
      exact hown₁ ▸ hs
    have hlink := hplaced.content_link (e := e) (j := 0) hd₂ hs₂ off
    exact (hcontent (.inr hs₂) off hoff hlink).trans
      ((hk₂.content (hown₁ ▸ hs) off hoff).trans (hk₁.content hs off hoff))
  case blank =>
    intro i off hoff
    have hti : ((t, i) : Slot) ≠ (d, 0) := fun heq => hdt (congrArg Prod.fst heq).symm
    have hentry := Memory.entry_setEntry_of_ne v₂.mem e hti
    have hlink : View.content { v₂ with mem := v₂.mem.setEntry (d, 0) e } (t, i) off =
        v₂.content (t, i) off := by
      simp [View.content, hentry]
    exact (hcontent (.inl rfl) off hoff hlink).trans
      (hplaced.content_of_unowned hown (hz₂ i) off)

/-! ## Frames from the kernel -/

variable {κ τ : Type*} {K : Kernel κ} {L : Tlb τ}

/-- What the contracts say about a state. -/
def view (C : K.Contract) (D : L.Contract) (owner : ℕ → Option (ℕ × ℕ))
    (values : ℕ → ℕ → UInt8) (w : Mmu κ τ) : View :=
  { mem := w.memory, holder := C.holder w.kernel, saved := C.saved w.kernel, last := D.last w.tlb
    curr := w.currPid, dirs := w.pageDirectories, owner := owner, values := values }

variable {C : K.Contract} {D : L.Contract} {owner : ℕ → Option (ℕ × ℕ)} {values : ℕ → ℕ → UInt8}
  {used : Slot → Prop} {w w' : Mmu κ τ} {slot : Slot} {pid d f : ℕ}

/-- The view before the frame `f` is zeroed and handed out: a page may have been evicted. -/
structure Freed (used : Slot → Prop) (v v₁ : View) (f : ℕ) : Prop where
  placed : Placed used v₁
  unheld : v₁.holder f = none
  keeps : Keeps v v₁
  absent : ∀ s, (v.mem.entry s).present = false →
    (v₁.mem.entry s).present = false ∧ v₁.saved s = v.saved s

theorem ask_freed (h : Placed used (view C D owner values w)) (ref : Ref) :
    ∃ f v₁, (w.askKernelForFrame K ref).1 / 4096 = f ∧
      Freed used (view C D owner values w) v₁ f ∧
      view C D owner values (w.askKernelForFrame K ref).2 =
        { v₁ with mem := v₁.mem.zero f, holder := Function.update v₁.holder f (some ref) } := by
  obtain ⟨f, haddr, hholder, hcase⟩ := C.ask w.kernel w.memory ref
  have hf : (w.askKernelForFrame K ref).1 / 4096 = f := by
    change (K.askForFrame w.kernel w.memory ref).1 / 4096 = f
    rw [haddr]
    omega
  rcases hcase with ⟨hunheld, hsaved, hmem⟩ | ⟨victim, hheld, hsaved, hmem⟩
  · refine ⟨f, view C D owner values w, hf, ⟨h, hunheld, .refl _, fun _ hs => ⟨hs, rfl⟩⟩, ?_⟩
    simp only [view, Mmu.askKernelForFrame, hholder, hsaved, hmem]
  · obtain ⟨-, hpres, -⟩ := h.data_held hheld
    obtain ⟨hplaced, hkeeps⟩ := h.evict hheld
    refine ⟨f, _, hf, ⟨hplaced, by simp, hkeeps, ?_⟩, ?_⟩
    · intro s hs
      have hne : s ≠ victim := by
        rintro rfl
        simp [hpres] at hs
      exact ⟨by simpa [Memory.entry_setEntry_of_ne _ _ hne] using hs, by simp [hne]⟩
    · simp only [view, Mmu.askKernelForFrame, hholder, hsaved, hmem, Function.update_idem]

/-- A frame for a directory or a table. -/
theorem ask_pinned (h : Placed used (view C D owner values w)) (ref : Ref)
    (hr : ∀ s, ref ≠ .entry s) :
    ∃ f, (w.askKernelForFrame K ref).1 / 4096 = f ∧
      Placed used (view C D owner values (w.askKernelForFrame K ref).2) ∧
      Keeps (view C D owner values w) (view C D owner values (w.askKernelForFrame K ref).2) ∧
      C.holder (w.askKernelForFrame K ref).2.kernel f = some ref ∧ owner f = none ∧
      (∀ q, w.pageDirectories q ≠ some f) ∧
      ∀ i, ((w.askKernelForFrame K ref).2.memory.entry (f, i)).present = false := by
  obtain ⟨f, v₁, hf, hfree, hview⟩ := ask_freed h ref
  obtain ⟨hz, hkeeps⟩ := hfree.placed.zero hfree.unheld
  obtain ⟨-, -, hdirs, hown, -⟩ := hfree.keeps.rest
  have hmem : (w.askKernelForFrame K ref).2.memory = v₁.mem.zero f := congrArg View.mem hview
  refine ⟨f, hf, ?_, ?_, ?_, ?_, ?_, ?_⟩
  · rw [hview]
    exact hz.pin hfree.unheld hr
  · rw [hview]
    exact hfree.keeps.trans { hkeeps with }
  · exact (congrFun (congrArg View.holder hview) f).trans (Function.update_self ..)
  · exact (congrFun hown f).symm.trans (hfree.placed.owner_of_unheld hfree.unheld)
  · intro q hq
    exact hfree.placed.dir_ne_unheld hfree.unheld ((congrFun hdirs q).trans hq) rfl
  · intro i
    have hzero : (v₁.mem.zero f).entry (f, i) = .zero := if_pos rfl
    rw [hmem, hzero]
    rfl

/-- A frame for the page of an entry, which is filled with what was saved of it. -/
theorem ask_filled (h : Placed used (view C D owner values w)) (slot : Slot)
    (hs : owner slot.1 ≠ none) (hu : used slot) (habs : (w.memory.entry slot).present = false) :
    ∃ f, (w.askKernelForFrame K (.entry slot)).1 / 4096 = f ∧
      (w.askKernelForFrame K (.entry slot)).2.memory.load f (fun _ => 0) =
        (w.askKernelForFrame K (.entry slot)).2.memory ∧
      (∀ s, (w.memory.entry s).present = false →
        ((w.askKernelForFrame K (.entry slot)).2.memory.entry s).present = false ∧
        C.saved (w.askKernelForFrame K (.entry slot)).2.kernel s = C.saved w.kernel s) ∧
      ∀ (e : Entry) (page : ℕ → UInt8), e.present = true → e.baseAddr = f →
        (∀ off < 4096, page off = (view C D owner values w).content slot off) →
        let v' : View := { view C D owner values (w.askKernelForFrame K (.entry slot)).2 with
          mem := ((w.askKernelForFrame K (.entry slot)).2.memory.setEntry slot e).load f page
          saved := Function.update
            (C.saved (w.askKernelForFrame K (.entry slot)).2.kernel) slot none }
        Placed used v' ∧ Keeps (view C D owner values w) v' := by
  obtain ⟨f, v₁, hf, hfree, hview⟩ := ask_freed h (.entry slot)
  obtain ⟨hz, hkeeps⟩ := hfree.placed.zero hfree.unheld
  obtain ⟨-, -, -, hown, -⟩ := hfree.keeps.rest
  have hmem : (w.askKernelForFrame K (.entry slot)).2.memory = v₁.mem.zero f :=
    congrArg View.mem hview
  have hsaved : C.saved (w.askKernelForFrame K (.entry slot)).2.kernel = v₁.saved :=
    congrArg View.saved hview
  have hslot : (v₁.mem.zero f).entry slot = v₁.mem.entry slot := by
    refine Memory.entry_zero_of_ne _ _ fun heq => hs ?_
    exact heq ▸ (congrFun hown f).symm.trans (hfree.placed.owner_of_unheld hfree.unheld)
  refine ⟨f, hf, ?_, ?_, ?_⟩
  · rw [hmem]
    unfold Memory.load Memory.zero Memory.load
    congr 1
    funext a
    dsimp only
    split_ifs <;> rfl
  · intro s hsa
    refine ⟨?_, (congrFun hsaved s).trans (hfree.absent s hsa).2⟩
    rw [hmem]
    by_cases hsf : s.1 = f
    · rw [Memory.entry_zero_self _ _ hsf]
      rfl
    · rw [Memory.entry_zero_of_ne _ _ hsf]
      exact (hfree.absent s hsa).1
  · intro e page he hb hpage
    have hown' : v₁.owner slot.1 ≠ none := (congrFun hown slot.1).symm ▸ hs
    obtain ⟨habs₁, hsaved₁⟩ := hfree.absent slot habs
    have habs₂ := (congrArg Entry.present hslot).trans habs₁
    have hpage₁ : ∀ off < 4096,
        page off = View.content { v₁ with mem := v₁.mem.zero f } slot off := by
      intro off hoff
      rw [hpage off hoff, View.content_of_absent (v := view C D owner values w) habs,
        View.content_of_absent (v := { v₁ with mem := v₁.mem.zero f }) habs₂, ← hsaved₁]
    obtain ⟨hfill, hkeeps'⟩ := hz.fill hfree.unheld hown' hu habs₂ ⟨he, hb⟩ hpage₁
    rw [hview, hmem, hsaved]
    exact ⟨hfill, (hfree.keeps.trans hkeeps).trans hkeeps'⟩

/-- After `pageIn` the page of the entry is in memory. -/
theorem pageIn_spec (h : Placed used (view C D owner values w)) (hs : owner slot.1 ≠ none)
    (hu : used slot) :
    Placed used (view C D owner values (pageIn K slot w)) ∧
      Keeps (view C D owner values w) (view C D owner values (pageIn K slot w)) ∧
      ((pageIn K slot w).memory.entry slot).present = true ∧
      (pageIn K slot w).segmentations = w.segmentations := by
  unfold pageIn
  split_ifs with hp
  · exact ⟨h, .refl _, hp, rfl⟩
  have habs : (w.memory.entry slot).present = false := by simpa using hp
  obtain ⟨f, hf, hzero, hkeep, hfill⟩ := ask_filled h slot hs hu habs
  have hsaved := (hkeep slot habs).2
  dsimp only
  rw [hf]
  set w₁ := (w.askKernelForFrame K (.entry slot)).2
  set e : Entry := { w₁.memory.entry slot with baseAddr := f, present := true }
  have hcontent : ∀ off, (view C D owner values w).content slot off =
      ((C.saved w₁.kernel slot).getD fun _ => 0) off := fun off => by
    rw [hsaved, View.content_of_absent (v := view C D owner values w) habs]
    rfl
  cases hpage : C.saved w₁.kernel slot with
  | none =>
    obtain ⟨hs', hm'⟩ := C.read_none w₁.kernel (w₁.memory.setEntry slot e) (.entry slot)
      (by rintro s ⟨⟩; exact hpage)
    have hview : view C D owner values
        ((w₁.setEntry slot e).readPageFromDisk K (.entry slot)).raisePageFault =
        { view C D owner values w₁ with
          mem := (w₁.memory.setEntry slot e).load f fun _ => 0
          saved := Function.update (C.saved w₁.kernel) slot none } := by
      have hload : (w₁.memory.setEntry slot e).load f (fun _ => 0) = w₁.memory.setEntry slot e :=
        congrArg (fun m : Memory => m.setEntry slot e) hzero
      rw [hload, ← hpage, Function.update_eq_self]
      simp only [view, Mmu.raisePageFault, Mmu.readPageFromDisk, Mmu.setEntry, hs', hm',
        C.read_holder]
    obtain ⟨hplaced, hkeeps⟩ := hfill e (fun _ => 0) rfl rfl fun off _ => by
      rw [hcontent, hpage]
      rfl
    rw [hview]
    refine ⟨hplaced, hkeeps, ?_, rfl⟩
    rw [show ((w₁.setEntry slot e).readPageFromDisk K (.entry slot)).raisePageFault.memory =
      w₁.memory.setEntry slot e from hm', Memory.entry_setEntry_self]
  | some page =>
    obtain ⟨hs', hm'⟩ := C.read_saved w₁.kernel (w₁.memory.setEntry slot e) slot page hpage
    rw [Memory.entry_setEntry_self] at hm'
    have hview : view C D owner values
        ((w₁.setEntry slot e).readPageFromDisk K (.entry slot)).raisePageFault =
        { view C D owner values w₁ with
          mem := (w₁.memory.setEntry slot e).load f page
          saved := Function.update (C.saved w₁.kernel) slot none } := by
      simp only [view, Mmu.raisePageFault, Mmu.readPageFromDisk, Mmu.setEntry, hs', hm',
        C.read_holder]
      rfl
    obtain ⟨hplaced, hkeeps⟩ := hfill e page rfl rfl fun off _ => by
      rw [hcontent, hpage]
      rfl
    rw [hview]
    refine ⟨hplaced, hkeeps, ?_, rfl⟩
    rw [show ((w₁.setEntry slot e).readPageFromDisk K (.entry slot)).raisePageFault.memory =
      (w₁.memory.setEntry slot e).load f page from hm', Memory.entry_load,
      Memory.entry_setEntry_self]

/-! ## Finding an entry -/

/-- The TLB after the switch to a process and a lookup. -/
theorem view_switchTo (C : K.Contract) (D : L.Contract) (owner : ℕ → Option (ℕ × ℕ))
    (values : ℕ → ℕ → UInt8) (w : Mmu κ τ) (pid n : ℕ) :
    view C D owner values { switchTo L pid w with tlb := (L.getPte (switchTo L pid w).tlb n).2 } =
      { view C D owner values w with last := D.last (switchTo L pid w).tlb, curr := pid } := by
  unfold switchTo
  split_ifs with hne
  · simp only [view, D.get_last]
  · obtain rfl : w.currPid = pid := by simpa using hne
    simp only [view, D.get_last]

/-- What the TLB knows after the switch was learned by the same process. -/
theorem last_switchTo (D : L.Contract) {n : ℕ} {s : Slot}
    (hs : D.last (switchTo L pid w).tlb n = some s) :
    w.currPid = pid ∧ D.last w.tlb n = some s := by
  unfold switchTo at hs
  split_ifs at hs with hne
  · simp [D.flush] at hs
  · exact ⟨by simpa using hne, hs⟩

theorem switchTo_traced (h : Traced used (view C D owner values w)) (pid : ℕ) :
    Traced used { view C D owner values w with
      last := D.last (switchTo L pid w).tlb, curr := pid } := by
  by_cases hpid : w.currPid = pid
  · have hswitch : switchTo L pid w = w := if_neg (by simpa using hpid)
    rw [hswitch, ← hpid]
    exact h
  · apply h.flush
    intro n
    rw [show switchTo L pid w = { w with currPid := pid, tlb := L.flush w.tlb } from if_pos hpid]
    exact D.flush _ _

/-- The entry that a miss leads to is one of a table to which the directory leads, or of a new
table. -/
theorem tlbMiss_traced {a : ℕ} (h : Traced used (view C D owner values w))
    (hd : w.pageDirectories w.currPid = some d) :
    ∃ owner', Traced used (view C D owner' values (tlbMiss K L d a w).2) ∧
      Located a (view C D owner values w) (view C D owner' values (tlbMiss K L d a w).2)
        (tlbMiss K L d a w).1 ∧
      (tlbMiss K L d a w).2.currPid = w.currPid ∧
      (tlbMiss K L d a w).2.segmentations = w.segmentations ∧
      (((w.memory.entry (d, a / 2 ^ 22)).present = true ∧ (tlbMiss K L d a w).1 =
          ((w.memory.entry (d, a / 2 ^ 22)).baseAddr, a / 2 ^ 12 % 2 ^ 10)) ∨
        ((w.memory.entry (d, a / 2 ^ 22)).present = false ∧ ∀ off,
          (view C D owner' values (tlbMiss K L d a w).2).content
            (tlbMiss K L d a w).1 off = 0)) := by
  have hbits : a / 2 ^ 12 / 1024 = a / 2 ^ 22 := by omega
  unfold tlbMiss directoryEntry
  dsimp only
  split_ifs with hp
  · set slot : Slot := ((w.memory.entry (d, a / 2 ^ 22)).baseAddr, a / 2 ^ 12 % 2 ^ 10)
    refine ⟨owner, ?_, ?_, rfl, rfl, .inl ⟨hp, rfl⟩⟩
    · have hcache := h.cache (n := a / 2 ^ 12) (s := slot) (hbits.symm ▸ h.linked hd hp) rfl
      simpa only [view, D.add] using hcache
    · have hloc := Located.miss (a := a) slot (.refl (view C D owner values w)) (fun ho => ho)
        fun ho => .inl ho
      simpa only [view, D.add] using hloc
  · obtain ⟨f, hf, hplaced, hkeeps, hpin, hown, hnd, hz⟩ := ask_pinned h.placed .localCopy (by simp)
    set w₁ := (w.askKernelForFrame K .localCopy).2
    obtain ⟨hs', hm'⟩ := C.read_none w₁.kernel w₁.memory .localCopy (by simp)
    rw [hf]
    set slot : Slot := (f, a / 2 ^ 12 % 2 ^ 10)
    set owner' := Function.update owner f (some (w.currPid, a / 2 ^ 22))
    have hne : ∀ {t o}, owner t = some o → t ≠ f := by
      rintro t o ho rfl
      simp [hown] at ho
    have hadopt := ((h.of_keeps hplaced hkeeps).adopt (.inr hpin) hown hnd hz
      (o := (w.currPid, a / 2 ^ 22))).cache (n := a / 2 ^ 12) (s := slot)
        ((Function.update_self ..).trans (by rw [hbits]; rfl)) rfl
    have howned : ∀ {t o}, owner' t = some o → owner t = some o ∨ o.1 = w.currPid := by
      intro t o ho
      by_cases ht : t = f
      · have heq : owner' f = some (w.currPid, a / 2 ^ 22) := Function.update_self ..
        rw [ht, heq] at ho
        exact .inr (congrArg Prod.fst (Option.some.inj ho)).symm
      · exact .inl ((Function.update_of_ne ht ..).symm.trans ho)
    have hloc := Located.miss (a := a) slot hkeeps
      (fun ho => (Function.update_of_ne (hne ho) ..).trans ho) howned
    refine ⟨owner', ?_, ?_, rfl, rfl, .inr ⟨by simpa using hp, fun off => ?_⟩⟩
    · simpa only [view, D.add, Mmu.raisePageFault, Mmu.readPageFromDisk, hs', hm', C.read_holder]
        using hadopt
    · simpa only [view, D.add, Mmu.raisePageFault, Mmu.readPageFromDisk, hs', hm', C.read_holder]
        using hloc
    · have hzero : (view C D owner values w₁).content slot off = 0 :=
        hplaced.content_of_unowned hown (hz (a / 2 ^ 12 % 2 ^ 10)) off
      simp only [View.content, view, Mmu.raisePageFault, Mmu.readPageFromDisk, hs', hm']
      exact hzero

/-- An access finds an entry of a table of its process: one that the TLB knows, one of a table to
which the directory leads, or one of a new table. -/
theorem findPte_traced (h : Traced used (view C D owner values w))
    (hd : w.pageDirectories pid = some d) (a : ℕ) :
    ∃ slot w' owner', findPte K L a pid w = some (slot, w') ∧
      Traced used (view C D owner' values w') ∧
      Located a (view C D owner values w) (view C D owner' values w') slot ∧ w'.currPid = pid ∧
      w'.segmentations = w.segmentations ∧
      ((w.currPid = pid ∧ D.last w.tlb (a / 2 ^ 12) = some slot) ∨
        ((w.memory.entry (d, a / 2 ^ 22)).present = true ∧
          slot = ((w.memory.entry (d, a / 2 ^ 22)).baseAddr, a / 2 ^ 12 % 2 ^ 10)) ∨
        ((L.getPte (switchTo L pid w).tlb (a / 2 ^ 12)).1 = none ∧
          (w.memory.entry (d, a / 2 ^ 22)).present = false ∧
          ∀ off, (view C D owner' values w').content slot off = 0)) := by
  have hview := view_switchTo C D owner values w pid (a / 2 ^ 12)
  have htraced := switchTo_traced h pid
  have hrest : (switchTo L pid w).currPid = pid ∧
      (switchTo L pid w).pageDirectories = w.pageDirectories ∧
      (switchTo L pid w).memory = w.memory ∧
      (switchTo L pid w).segmentations = w.segmentations := by
    unfold switchTo
    split_ifs with hne
    exacts [⟨rfl, rfl, rfl, rfl⟩, ⟨by simpa using hne, rfl, rfl, rfl⟩]
  obtain ⟨hpid, hdirs, hmem, hsegs⟩ := hrest
  have hlast : ∀ {n s}, D.last (switchTo L pid w).tlb n = some s →
      w.currPid = pid ∧ D.last w.tlb n = some s := last_switchTo D
  rw [← hview] at htraced
  unfold findPte
  dsimp only
  set w₁ : Mmu κ τ :=
    { switchTo L pid w with tlb := (L.getPte (switchTo L pid w).tlb (a / 2 ^ 12)).2 }
  cases hget : (L.getPte (switchTo L pid w).tlb (a / 2 ^ 12)).1 with
  | some slot =>
    have hknown : D.last (switchTo L pid w).tlb (a / 2 ^ 12) = some slot := by
      rcases D.get (switchTo L pid w).tlb (a / 2 ^ 12) with hnone | hsome
      · exact absurd (hget.symm.trans hnone) (by simp)
      · rw [← hsome, hget]
    have hloc : Located a (view C D owner values w) (view C D owner values w₁) slot := by
      rw [hview]
      exact (Located.hit hknown).switch rfl hlast
    exact ⟨slot, w₁, owner, rfl, htraced, hloc, hpid, hsegs, .inl (hlast hknown)⟩
  | none =>
    have hd₁ : w₁.pageDirectories w₁.currPid = some d := by
      rw [show w₁.currPid = pid from hpid, show w₁.pageDirectories = w.pageDirectories from hdirs,
        hd]
    obtain ⟨owner', htraced', hloc, hcurr, hsegs', hcase⟩ := tlbMiss_traced (a := a) htraced hd₁
    rw [show w₁.memory = w.memory from hmem] at hcase
    rw [hview] at hloc
    refine ⟨_, _, owner', ?_, htraced', hloc.switch (hcurr.trans hpid) hlast, hcurr.trans hpid,
      hsegs'.trans hsegs, .inr (hcase.imp_right fun hnew => ⟨rfl, hnew⟩)⟩
    rw [show w₁.pageDirectories = w.pageDirectories from hdirs, hd, Option.map_some]

/-- An access to a page that its process has finds its entry; otherwise it finds an entry of a
blank table. -/
theorem locate_traced {a : ℕ} {w₁ : Mmu κ τ} (h : Traced used (view C D owner values w))
    (hu : ∀ s : Slot, s.2 < 1024 → used s) (hd : w.pageDirectories pid = some d)
    (hfind : findPte K L a pid w = some (slot, w₁)) :
    ∃ owner', Traced used (view C D owner' values (pageIn K slot w₁)) ∧
      Located a (view C D owner values w) (view C D owner' values (pageIn K slot w₁)) slot ∧
      ((pageIn K slot w₁).memory.entry slot).present = true ∧
      ((w.currPid = pid ∧ D.last w.tlb (a / 2 ^ 12) = some slot) ∨
        ((w.memory.entry (d, a / 2 ^ 22)).present = true ∧
          slot = ((w.memory.entry (d, a / 2 ^ 22)).baseAddr, a / 2 ^ 12 % 2 ^ 10)) ∨
        ∀ off < 4096, (view C D owner' values (pageIn K slot w₁)).content slot off = 0) := by
  obtain ⟨slot', w₁', owner', hfind', h₁, hloc, -, -, horigin⟩ := findPte_traced h hd a
  obtain ⟨rfl, rfl⟩ := Prod.mk.inj (Option.some.inj (hfind.symm.trans hfind'))
  obtain ⟨hown, h2⟩ := h₁.cached hloc.found
  have hs : owner' slot.1 ≠ none := Option.ne_none_iff_exists'.mpr ⟨_, hown⟩
  obtain ⟨hplaced, hkeeps, hp, -⟩ := pageIn_spec h₁.placed hs (hu slot (by omega))
  refine ⟨owner', h₁.of_keeps hplaced hkeeps, hloc.keeps hkeeps, hp, ?_⟩
  refine horigin.imp_right (Or.imp_right ?_)
  rintro ⟨-, -, hzero⟩ off hoff
  exact (hkeeps.content hs off hoff).trans (hzero off)

/-! ## Adding a process -/

/-- One of the first pages of a new process is given a frame of zeros. -/
theorem mapTesting_spec {i t : ℕ} (h : Placed used (view C D owner values w))
    (ht : (w.memory.entry (d, 0)).baseAddr = t) (hown : owner t ≠ none) (hu : used (t, i))
    (hnew : ∀ j, i ≤ j → (w.memory.entry (t, j)).present = false ∧ C.saved w.kernel (t, j) = none) :
    Placed used (view C D owner values (mapTesting K d i w)) ∧
      Keeps (view C D owner values w) (view C D owner values (mapTesting K d i w)) ∧
      ∀ j, i < j → ((mapTesting K d i w).memory.entry (t, j)).present = false ∧
        C.saved (mapTesting K d i w).kernel (t, j) = none := by
  obtain ⟨habs, hsaved⟩ := hnew i le_rfl
  obtain ⟨f, hf, hzero, hkeep, hfill⟩ := ask_filled h (t, i) hown hu habs
  unfold mapTesting mapEntry
  rw [ht]
  dsimp only
  rw [hf]
  set w₁ := (w.askKernelForFrame K (.entry (t, i))).2
  set e : Entry := { w₁.memory.entry (t, i) with
    baseAddr := f, present := true, readWrite := true, userSupervisor := true }
  have hsaved₁ : C.saved w₁.kernel (t, i) = none := (hkeep _ habs).2.trans hsaved
  have hload : (w₁.memory.setEntry (t, i) e).load f (fun _ => 0) = w₁.memory.setEntry (t, i) e :=
    congrArg (fun m : Memory => m.setEntry (t, i) e) hzero
  obtain ⟨hplaced, hkeeps⟩ := hfill e (fun _ => 0) rfl rfl fun off _ => by
    rw [View.content_of_absent (v := view C D owner values w) habs,
      show (view C D owner values w).saved (t, i) = none from hsaved]
    rfl
  rw [hload, ← hsaved₁, Function.update_eq_self] at hplaced hkeeps
  refine ⟨hplaced, hkeeps, fun j hj => ?_⟩
  obtain ⟨habs', hsaved'⟩ := hnew j (Nat.le_of_lt hj)
  obtain ⟨hkeep₁, hkeep₂⟩ := hkeep _ habs'
  have hji : ((t, j) : Slot) ≠ (t, i) := by
    simpa using Nat.ne_of_gt hj
  have hentry : (w₁.memory.setEntry (t, i) e).entry (t, j) = w₁.memory.entry (t, j) :=
    Memory.entry_setEntry_of_ne _ _ hji
  exact ⟨(congrArg Entry.present hentry).trans hkeep₁, hkeep₂.trans hsaved'⟩

/-- A new process gets a directory and a first table of zeros. -/
theorem mmuAddProcess_traced (h : Traced used (view C D owner values w))
    (hu : ∀ s : Slot, s.2 < 1024 → used s) (hnew : w.pageDirectories pid = none) :
    ∃ d t, Traced used (view C D (Function.update owner t (some (pid, 0))) values
        (mmuAddProcess K pid w)) ∧
      Entered pid d t (view C D owner values w)
        (view C D (Function.update owner t (some (pid, 0))) values (mmuAddProcess K pid w)) := by
  obtain ⟨d, hd, hplaced₁, hkeeps₁, hpin₁, hown₁, hnd₁, hz₁⟩ := ask_pinned h.placed .null (by simp)
  unfold mmuAddProcess
  dsimp only
  rw [hd]
  set w₁ := (w.askKernelForFrame K .null).2
  set w₂ : Mmu κ τ := { w₁ with
    pageDirectories := Function.update w₁.pageDirectories pid (some d)
    segmentations := Function.update w₁.segmentations pid segments }
  have h₂ : Traced used (view C D owner values w₂) :=
    (h.of_keeps hplaced₁ hkeeps₁).addDir hpin₁ hown₁ hnd₁ hz₁
  have hd₂ : w₂.pageDirectories pid = some d := Function.update_self ..
  obtain ⟨t, ht, hplaced₃, hkeeps₃, hpin₃, hown₃, hnd₃, hz₃⟩ :=
    ask_pinned h₂.placed .null (by simp)
  unfold mapEntry
  rw [ht]
  set w₃ := (w₂.askKernelForFrame K .null).2
  set e : Entry := { w₃.memory.entry (d, 0) with
    baseAddr := t, present := true, readWrite := true, userSupervisor := true }
  set owner' := Function.update owner t (some (pid, 0))
  have hdt : d ≠ t := by
    rintro rfl
    exact hnd₃ pid hd₂
  have hadopt : Traced used (view C D owner' values w₃) :=
    (h₂.of_keeps hplaced₃ hkeeps₃).adopt (.inl hpin₃) hown₃ hnd₃ hz₃
  have h₄ : Traced used (view C D owner' values (w₃.setEntry (d, 0) e)) :=
    hadopt.link hd₂ (Function.update_self ..)
  have hother : ∀ {s : Slot}, s ≠ (d, 0) →
      (w₃.memory.setEntry (d, 0) e).entry s = w₃.memory.entry s := fun hs =>
    Memory.entry_setEntry_of_ne _ _ hs
  have hnew₄ : ∀ j, 1 ≤ j → ((w₃.setEntry (d, 0) e).memory.entry (t, j)).present = false ∧
      C.saved (w₃.setEntry (d, 0) e).kernel (t, j) = none := by
    intro j _
    have hentry := hother (s := (t, j)) fun heq => hdt (congrArg Prod.fst heq).symm
    exact ⟨(congrArg Entry.present hentry).trans (hz₃ j), hplaced₃.saved_of_unowned hown₃⟩
  have hbase : ((w₃.setEntry (d, 0) e).memory.entry (d, 0)).baseAddr = t :=
    congrArg Entry.baseAddr (Memory.entry_setEntry_self ..)
  have hown : owner' t ≠ none := by simp [owner']
  obtain ⟨hplaced₅, hkeeps₅, hnew₅⟩ := mapTesting_spec h₄.placed hbase hown (hu _ (by simp)) hnew₄
  have hbase₅ := (hkeeps₅.dir (j := 0) hd₂).2.trans hbase
  obtain ⟨hplaced₆, hkeeps₆, -⟩ := mapTesting_spec hplaced₅ hbase₅ hown (hu _ (by simp)) hnew₅
  have hkeeps := hkeeps₅.trans hkeeps₆
  exact ⟨d, t, h₄.of_keeps hplaced₆ hkeeps,
    .of_keeps hplaced₃ hkeeps₁ hkeeps₃ hkeeps hnew hnd₁ hz₁ hown₃ hz₃ hdt rfl⟩

end Cs241.Paging
