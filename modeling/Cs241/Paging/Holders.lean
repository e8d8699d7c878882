import Cs241.Paging.Model

/-!
# Who holds which frame

A view is what the contracts let us say about a state of the unit, together with
the owner of each page table (a process and a directory index, also for tables
that no directory entry leads to) and the values that the processes have written.
Every change of the unit is one of a few changes of the view. They keep
directories, tables and data in different frames, and most of them keep what the
pages hold.
-/
namespace Cs241.Paging

namespace Memory

variable (m : Memory) (f f' off a : ℕ) (s s' : Slot) (e : Entry) (bytes : ℕ → UInt8)

@[simp] theorem entry_setEntry_self : (m.setEntry s e).entry s = e := Function.update_self ..

theorem entry_setEntry_of_ne {s s' : Slot} (h : s' ≠ s) : (m.setEntry s e).entry s' = m.entry s' :=
  Function.update_of_ne h ..

@[simp] theorem page_setEntry : (m.setEntry s e).page f = m.page f := rfl

@[simp] theorem entry_load : (m.load f bytes).entry = m.entry := rfl

theorem page_load {off : ℕ} (h : off < 4096) :
    (m.load f bytes).page f' off = if f' = f then bytes off else m.page f' off := by
  unfold page load
  dsimp only
  rw [show (4096 * f' + off) / 4096 = f' by omega, show (4096 * f' + off) % 4096 = off by omega]

theorem page_zero {off : ℕ} (h : off < 4096) :
    (m.zero f).page f' off = if f' = f then 0 else m.page f' off :=
  page_load m f f' (fun _ => 0) h

theorem entry_zero_self {s : Slot} (h : s.1 = f) : (m.zero f).entry s = .zero := if_pos h

theorem entry_zero_of_ne {s : Slot} (h : s.1 ≠ f) : (m.zero f).entry s = m.entry s := if_neg h

@[simp] theorem entry_write (bs : List UInt8) : (m.write a bs).entry = m.entry := rfl

/-- Bytes written inside one frame. -/
theorem page_write {off o : ℕ} (bs : List UInt8) (h : off < 4096) (ho : bs.length + o ≤ 4096) :
    (m.write (o + f * 4096) bs).page f' off =
      if f' = f ∧ o ≤ off then bs.getD (off - o) (m.page f' off) else m.page f' off := by
  have hout : ∀ a i, bs.length ≤ i → bs.getD i (m.byte a) = m.byte a := fun a i hi => by
    simp [List.getD, List.getElem?_eq_none hi]
  unfold page write
  dsimp only
  by_cases hf : f' = f
  · subst hf
    by_cases hoff : o ≤ off
    · rw [if_pos (show o + f' * 4096 ≤ 4096 * f' + off by omega), if_pos ⟨rfl, hoff⟩,
        show 4096 * f' + off - (o + f' * 4096) = off - o by omega]
    · rw [if_neg (show ¬ o + f' * 4096 ≤ 4096 * f' + off by omega),
        if_neg (show ¬ (f' = f' ∧ o ≤ off) from fun h => hoff h.2)]
  · rw [if_neg (show ¬ (f' = f ∧ o ≤ off) from fun h => hf h.1)]
    split_ifs with hle
    · have hgt : f < f' := by omega
      exact hout (4096 * f' + off) (4096 * f' + off - (o + f * 4096)) (by omega)
    · rfl

end Memory

structure View where
  mem : Memory
  holder : ℕ → Option Ref
  saved : Slot → Option (ℕ → UInt8)
  last : ℕ → Option Slot
  curr : ℕ
  dirs : ℕ → Option ℕ
  owner : ℕ → Option (ℕ × ℕ)
  values : ℕ → ℕ → UInt8

namespace View

variable (v : View)

/-- The page of an entry, in memory or on disk. -/
def content (s : Slot) (off : ℕ) : UInt8 :=
  if (v.mem.entry s).present then v.mem.page (v.mem.entry s).baseAddr off
  else ((v.saved s).getD fun _ => 0) off

/-- Bytes are written at an offset into the page of an entry. -/
def written (s : Slot) (o : ℕ) (bytes : List UInt8) (values : ℕ → ℕ → UInt8) : View :=
  { v with mem := v.mem.write (o + (v.mem.entry s).baseAddr * 4096) bytes, values := values }

variable {v} in
theorem content_of_present {s : Slot} (h : (v.mem.entry s).present = true) :
    v.content s = v.mem.page (v.mem.entry s).baseAddr := by
  funext off
  exact if_pos h

variable {v} in
theorem content_of_absent {s : Slot} (h : (v.mem.entry s).present = false) :
    v.content s = (v.saved s).getD fun _ => 0 := by
  funext off
  exact if_neg (by simp [h])

/-- The page of the entry holds what process `p` has written to its page `n`. -/
def Holds (s : Slot) (p n : ℕ) : Prop := ∀ off < 4096, v.content s off = v.values p (4096 * n + off)

end View

/-- Directories, tables and data are in different frames, and a data frame belongs to one entry.
Only entries that are `used` are given frames. -/
structure Placed (used : Slot → Prop) (v : View) : Prop where
  dir_held : ∀ {p d}, v.dirs p = some d → v.holder d = some .null ∧ v.owner d = none
  dir_inj : ∀ {p q d}, v.dirs p = some d → v.dirs q = some d → p = q
  table_held : ∀ {t o}, v.owner t = some o → v.holder t = some .null ∨ v.holder t = some .localCopy
  data_held : ∀ {f s}, v.holder f = some (.entry s) →
    v.owner s.1 ≠ none ∧ (v.mem.entry s).present ∧ (v.mem.entry s).baseAddr = f
  held_data : ∀ {s}, v.owner s.1 ≠ none → (v.mem.entry s).present →
    v.holder (v.mem.entry s).baseAddr = some (.entry s)
  saved_owned : ∀ {s page}, v.saved s = some page → v.owner s.1 ≠ none
  used_held : ∀ {f s}, v.holder f = some (.entry s) → used s
  used_saved : ∀ {s page}, v.saved s = some page → used s

/-- A change that leaves all as it was but where the pages are. -/
structure Keeps (v v' : View) : Prop where
  rest : v'.last = v.last ∧ v'.curr = v.curr ∧ v'.dirs = v.dirs ∧ v'.owner = v.owner ∧
    v'.values = v.values
  dir : ∀ {p d j}, v.dirs p = some d →
    (v'.mem.entry (d, j)).present = (v.mem.entry (d, j)).present ∧
      (v'.mem.entry (d, j)).baseAddr = (v.mem.entry (d, j)).baseAddr
  content : ∀ {s}, v.owner s.1 ≠ none → ∀ off < 4096, v'.content s off = v.content s off

namespace Keeps

variable {v v' v'' : View}

theorem refl (v : View) : Keeps v v :=
  ⟨⟨rfl, rfl, rfl, rfl, rfl⟩, fun _ => ⟨rfl, rfl⟩, fun _ _ _ => rfl⟩

theorem trans (h : Keeps v v') (h' : Keeps v' v'') : Keeps v v'' := by
  obtain ⟨hlast, hcurr, hdirs, hown, hvalues⟩ := h.rest
  obtain ⟨hlast', hcurr', hdirs', hown', hvalues'⟩ := h'.rest
  constructor
  case rest =>
    exact ⟨hlast'.trans hlast, hcurr'.trans hcurr, hdirs'.trans hdirs, hown'.trans hown,
      hvalues'.trans hvalues⟩
  case dir =>
    intro p d j hd
    obtain ⟨hp, hb⟩ := h.dir (j := j) hd
    obtain ⟨hp', hb'⟩ := h'.dir (j := j) ((congrFun hdirs p).trans hd)
    exact ⟨hp'.trans hp, hb'.trans hb⟩
  case content =>
    intro s hs off hoff
    have hs' : v'.owner s.1 ≠ none := (congrFun hown s.1).symm ▸ hs
    exact (h'.content hs' off hoff).trans (h.content hs off hoff)

end Keeps

namespace Placed

variable {used : Slot → Prop} {v : View} (h : Placed used v) {f d t p j : ℕ} {s : Slot} {e : Entry}
include h

theorem dir_ne_owned (hd : v.dirs p = some d) (hs : v.owner s.1 ≠ none) : (d, j) ≠ s := by
  rintro rfl
  exact hs (h.dir_held hd).2

theorem owner_of_unheld (hf : v.holder f = none) : v.owner f = none := by
  by_contra hne
  obtain ⟨o, ho⟩ := Option.ne_none_iff_exists'.mp hne
  rcases h.table_held ho with hheld | hheld <;> simp [hf] at hheld

theorem dir_ne_unheld (hf : v.holder f = none) (hd : v.dirs p = some d) : d ≠ f := by
  rintro rfl
  simp [(h.dir_held hd).1] at hf

/-- Nothing was saved of the entries of a frame that is not a table. -/
theorem saved_of_unowned {i : ℕ} (hf : v.owner f = none) : v.saved (f, i) = none := by
  by_contra hne
  obtain ⟨page, hpage⟩ := Option.ne_none_iff_exists'.mp hne
  exact h.saved_owned hpage hf

/-- An entry of a blank frame leads to a page of zeros. -/
theorem content_of_unowned {i : ℕ} (hf : v.owner f = none)
    (hz : (v.mem.entry (f, i)).present = false) (off : ℕ) : v.content (f, i) off = 0 := by
  rw [View.content_of_absent hz, h.saved_of_unowned hf]
  rfl

/-- The page of a frame is saved, and the entry marked as not present. -/
theorem evict (hf : v.holder f = some (.entry s)) :
    let v' : View := { v with
      mem := v.mem.setEntry s { v.mem.entry s with present := false }
      holder := Function.update v.holder f none
      saved := Function.update v.saved s (some (v.mem.page f)) }
    Placed used v' ∧ Keeps v v' := by
  obtain ⟨hown, hpres, hbase⟩ := h.data_held hf
  have hother : ∀ {s'}, s' ≠ s →
      (v.mem.setEntry s { v.mem.entry s with present := false }).entry s' = v.mem.entry s' :=
    fun hs => Memory.entry_setEntry_of_ne _ _ hs
  have hne : ∀ {g r}, v.holder g = some r → r ≠ .entry s → g ≠ f := by
    rintro g r hg hr rfl
    rw [hf] at hg
    exact hr (Option.some.inj hg).symm
  have hold : ∀ {g r}, Function.update v.holder f none g = some r →
      g ≠ f ∧ v.holder g = some r := by
    intro g r hg
    by_cases hgf : g = f
    · simp [hgf] at hg
    · exact ⟨hgf, by simpa [hgf] using hg⟩
  constructor
  · constructor
    case dir_held =>
      intro p d hd
      obtain ⟨hh, ho⟩ := h.dir_held hd
      exact ⟨by simpa [hne hh (by simp)] using hh, ho⟩
    case dir_inj => exact h.dir_inj
    case table_held =>
      intro t o ho
      rcases h.table_held ho with hh | hh
      · exact .inl (by simpa [hne hh (by simp)] using hh)
      · exact .inr (by simpa [hne hh (by simp)] using hh)
    case data_held =>
      intro g s' hg
      obtain ⟨hgf, hg⟩ := hold hg
      obtain ⟨ho, hp, hb⟩ := h.data_held hg
      have hs : s' ≠ s := by
        rintro rfl
        exact hgf (hb.symm.trans hbase)
      simpa [hother hs] using ⟨ho, hp, hb⟩
    case held_data =>
      intro s' ho hp
      by_cases hs : s' = s
      · simp [hs] at hp
      · simp only [hother hs] at hp ⊢
        have hh := h.held_data ho hp
        simpa [hne hh (by simpa using hs)] using hh
    case saved_owned =>
      intro s' page hs'
      by_cases hs : s' = s
      · exact hs ▸ hown
      · exact h.saved_owned (by simpa [hs] using hs')
    case used_held => exact fun hg => h.used_held (hold hg).2
    case used_saved =>
      intro s' page hs'
      by_cases hs : s' = s
      · exact hs ▸ h.used_held hf
      · exact h.used_saved (by simpa [hs] using hs')
  · refine ⟨⟨rfl, rfl, rfl, rfl, rfl⟩, fun hd => ?_, fun {s'} _ off _ => ?_⟩
    · simp only [hother (h.dir_ne_owned hd hown), and_self]
    · unfold View.content
      by_cases hs : s' = s
      · subst hs
        simp [hpres, hbase]
      · simp [hother hs, hs]

/-- An unused frame is zeroed. -/
theorem zero (hf : v.holder f = none) :
    Placed used { v with mem := v.mem.zero f } ∧ Keeps v { v with mem := v.mem.zero f } := by
  have howned : ∀ {s}, v.owner s.1 ≠ none → (v.mem.zero f).entry s = v.mem.entry s := by
    intro s hs
    apply Memory.entry_zero_of_ne
    intro hsf
    exact hs (hsf ▸ h.owner_of_unheld hf)
  constructor
  · refine { h with data_held := ?_, held_data := ?_ }
    · intro g s hg
      obtain ⟨ho, hrest⟩ := h.data_held hg
      exact ⟨ho, by rwa [howned ho]⟩
    · intro s ho hp
      rw [howned ho] at hp ⊢
      exact h.held_data ho hp
  · refine ⟨⟨rfl, rfl, rfl, rfl, rfl⟩, fun {p d j} hd => ?_, fun {s} hs off hoff => ?_⟩
    · have hentry : (v.mem.zero f).entry (d, j) = v.mem.entry (d, j) :=
        Memory.entry_zero_of_ne _ _ (h.dir_ne_unheld hf hd)
      simp only [hentry, and_self]
    · unfold View.content
      simp only [howned hs]
      split_ifs with hp
      · have hne : (v.mem.entry s).baseAddr ≠ f := by
          intro heq
          have hheld := h.held_data hs hp
          simp [heq, hf] at hheld
        rw [Memory.page_zero _ _ _ hoff, if_neg hne]
      · rfl

/-- An unused frame is held for a directory or a table. -/
theorem pin {r : Ref} (hf : v.holder f = none) (hr : ∀ s, r ≠ .entry s) :
    Placed used { v with holder := Function.update v.holder f (some r) } := by
  have hkeep : ∀ {g r'}, v.holder g = some r' →
      Function.update v.holder f (some r) g = some r' := by
    intro g r' hg
    have hgf : g ≠ f := by
      rintro rfl
      simp [hf] at hg
    simpa [hgf] using hg
  have hold : ∀ {g s}, Function.update v.holder f (some r) g = some (.entry s) →
      v.holder g = some (.entry s) := by
    intro g s hg
    by_cases hgf : g = f
    · simp [hgf, hr] at hg
    · simpa [hgf] using hg
  refine { h with dir_held := ?_, table_held := ?_, data_held := ?_, held_data := ?_,
                  used_held := ?_ }
  · exact fun hd => (h.dir_held hd).imp_left hkeep
  · exact fun ho => (h.table_held ho).imp hkeep hkeep
  · exact fun hg => h.data_held (hold hg)
  · exact fun ho hp => hkeep (h.held_data ho hp)
  · exact fun hg => h.used_held (hold hg)

/-- An unused frame is filled with the page of an entry and held for it. -/
theorem fill (hf : v.holder f = none) (hs : v.owner s.1 ≠ none) (hu : used s)
    (hp : (v.mem.entry s).present = false) (he : e.present = true ∧ e.baseAddr = f)
    {page : ℕ → UInt8} (hpage : ∀ off < 4096, page off = v.content s off) :
    let v' : View := { v with
      mem := (v.mem.load f page).setEntry s e
      holder := Function.update v.holder f (some (.entry s))
      saved := Function.update v.saved s none }
    Placed used v' ∧ Keeps v v' := by
  have hne : ∀ {g r'}, v.holder g = some r' → g ≠ f := by
    rintro g r' hg rfl
    simp [hf] at hg
  have hkeep : ∀ {g r'}, v.holder g = some r' →
      Function.update v.holder f (some (.entry s)) g = some r' := by
    intro g r' hg
    simpa [hne hg] using hg
  have hentry : ∀ {s'}, s' ≠ s →
      ((v.mem.load f page).setEntry s e).entry s' = v.mem.entry s' := fun hs' =>
    Memory.entry_setEntry_of_ne _ _ hs'
  constructor
  · constructor
    case dir_held => exact fun hd => (h.dir_held hd).imp_left hkeep
    case dir_inj => exact h.dir_inj
    case table_held => exact fun ho => (h.table_held ho).imp hkeep hkeep
    case data_held =>
      intro g s' hg
      by_cases hgf : g = f
      · obtain rfl : s = s' := by simpa [hgf] using hg
        exact ⟨hs, by simp [he, hgf]⟩
      · obtain ⟨ho, hp', hb⟩ := h.data_held (by simpa [hgf] using hg)
        have hss : s' ≠ s := by
          rintro rfl
          simp [hp] at hp'
        exact ⟨ho, by simpa [hentry hss] using ⟨hp', hb⟩⟩
    case held_data =>
      intro s' ho hp'
      by_cases hss : s' = s
      · simp [hss, he]
      · simp only [hentry hss] at hp' ⊢
        exact hkeep (h.held_data ho hp')
    case saved_owned =>
      intro s' page' hs'
      by_cases hss : s' = s
      · exact hss ▸ hs
      · exact h.saved_owned (by simpa [hss] using hs')
    case used_held =>
      intro g s' hg
      by_cases hgf : g = f
      · obtain rfl : s = s' := by simpa [hgf] using hg
        exact hu
      · exact h.used_held (by simpa [hgf] using hg)
    case used_saved =>
      intro s' page' hs'
      by_cases hss : s' = s
      · exact hss ▸ hu
      · exact h.used_saved (by simpa [hss] using hs')
  · refine ⟨⟨rfl, rfl, rfl, rfl, rfl⟩, fun hd => ?_, fun {s'} ho off hoff => ?_⟩
    · simp only [hentry (h.dir_ne_owned hd hs), and_self]
    · by_cases hss : s' = s
      · subst hss
        rw [← hpage off hoff]
        simp [View.content, he, Memory.page_load _ _ _ _ hoff]
      · unfold View.content
        simp only [hentry hss, Function.update_of_ne hss, Memory.page_setEntry]
        split_ifs with hp'
        · rw [Memory.page_load _ _ _ _ hoff, if_neg (hne (h.held_data ho hp'))]
        · rfl

/-- The entries lead where they led before, whatever their other bits and the bytes are. -/
theorem congr {m : Memory} (hm : ∀ s, (m.entry s).present = (v.mem.entry s).present ∧
    (m.entry s).baseAddr = (v.mem.entry s).baseAddr) : Placed used { v with mem := m } := by
  refine { h with data_held := ?_, held_data := ?_ }
  · simpa only [hm] using @h.data_held
  · simpa only [hm] using @h.held_data

/-- Other bits of an entry change. -/
theorem touch (hp : e.present = (v.mem.entry s).present)
    (hb : e.baseAddr = (v.mem.entry s).baseAddr) :
    Placed used { v with mem := v.mem.setEntry s e } ∧
      Keeps v { v with mem := v.mem.setEntry s e } := by
  have hm : ∀ s', ((v.mem.setEntry s e).entry s').present = (v.mem.entry s').present ∧
      ((v.mem.setEntry s e).entry s').baseAddr = (v.mem.entry s').baseAddr := by
    intro s'
    by_cases hs : s' = s
    · simp [hs, hp, hb]
    · rw [Memory.entry_setEntry_of_ne _ _ hs]
      exact ⟨rfl, rfl⟩
  refine ⟨h.congr hm, ⟨rfl, rfl, rfl, rfl, rfl⟩, fun _ => hm _, fun {s'} _ off _ => ?_⟩
  simp [View.content, hm]

/-- A zeroed frame becomes a table. -/
theorem adopt {o : ℕ × ℕ} (hpin : v.holder t = some .null ∨ v.holder t = some .localCopy)
    (hnew : v.owner t = none) (hnd : ∀ q, v.dirs q ≠ some t)
    (hz : ∀ i, (v.mem.entry (t, i)).present = false) :
    Placed used { v with owner := Function.update v.owner t (some o) } := by
  have hmono : ∀ {t'}, v.owner t' ≠ none → Function.update v.owner t (some o) t' ≠ none := by
    intro t' ho
    have hne : t' ≠ t := by
      rintro rfl
      exact ho hnew
    simpa [hne] using ho
  refine { h with dir_held := ?_, table_held := ?_, data_held := ?_, held_data := ?_,
                  saved_owned := ?_ }
  · intro q d hq
    have hdt : d ≠ t := by
      rintro rfl
      exact hnd q hq
    exact (h.dir_held hq).imp_right fun ho => by simpa [hdt] using ho
  · intro t' o' ho
    by_cases ht : t' = t
    · exact ht ▸ hpin
    · exact h.table_held (by simpa [ht] using ho)
  · exact fun hg => (h.data_held hg).imp_left hmono
  · rintro ⟨t', i⟩ ho hp
    by_cases ht : t' = t
    · subst ht
      simp [hz] at hp
    · exact h.held_data (by simpa [ht] using ho) hp
  · exact fun hs => hmono (h.saved_owned hs)

/-- A new process gets an empty directory. -/
theorem addDir (hh : v.holder d = some .null) (ho : v.owner d = none)
    (hnd : ∀ q, v.dirs q ≠ some d) :
    Placed used { v with dirs := Function.update v.dirs p (some d) } := by
  have hold : ∀ {q d'}, Function.update v.dirs p (some d) q = some d' →
      (q = p ∧ d' = d) ∨ v.dirs q = some d' := by
    intro q d' hq
    by_cases hqp : q = p
    · subst hqp
      exact .inl ⟨rfl, by simpa using hq.symm⟩
    · exact .inr (by simpa [hqp] using hq)
  refine { h with dir_held := ?_, dir_inj := ?_ }
  · intro q d' hq
    rcases hold hq with ⟨-, rfl⟩ | hq
    exacts [⟨hh, ho⟩, h.dir_held hq]
  · intro q r d' hq hr
    rcases hold hq with ⟨hqp, hd⟩ | hq'
    · rcases hold hr with ⟨hrp, -⟩ | hr'
      exacts [hqp.trans hrp.symm, absurd (hd ▸ hr') (hnd r)]
    · rcases hold hr with ⟨-, hd⟩ | hr'
      exacts [absurd (hd ▸ hq') (hnd q), h.dir_inj hq' hr']

/-- An entry of a directory changes. -/
theorem link (hd : v.dirs p = some d) : Placed used { v with mem := v.mem.setEntry (d, j) e } := by
  have hentry : ∀ {s}, v.owner s.1 ≠ none →
      (v.mem.setEntry (d, j) e).entry s = v.mem.entry s := fun hs =>
    Memory.entry_setEntry_of_ne _ _ fun heq => h.dir_ne_owned hd hs heq.symm
  refine { h with data_held := ?_, held_data := ?_ }
  · intro g s hg
    obtain ⟨ho, hrest⟩ := h.data_held hg
    exact ⟨ho, by rwa [hentry ho]⟩
  · intro s ho hp'
    rw [hentry ho] at hp' ⊢
    exact h.held_data ho hp'

/-- An entry of a directory leads to no page. -/
theorem content_link (hd : v.dirs p = some d) (hs : v.owner s.1 ≠ none) (off : ℕ) :
    View.content { v with mem := v.mem.setEntry (d, j) e } s off = v.content s off := by
  have hentry : (v.mem.setEntry (d, j) e).entry s = v.mem.entry s :=
    Memory.entry_setEntry_of_ne _ _ fun heq => h.dir_ne_owned hd hs heq.symm
  simp [View.content, hentry]

/-- Bytes are written into the page of an entry, and into no other page. -/
theorem content_written {s' : Slot} (bytes : List UInt8) (o : ℕ) (values : ℕ → ℕ → UInt8)
    (hs : v.owner s.1 ≠ none) (hp : (v.mem.entry s).present) (ho : bytes.length + o ≤ 4096)
    (hs' : v.owner s'.1 ≠ none) (hne : s' ≠ s) :
    ∀ off < 4096, (v.written s o bytes values).content s' off = v.content s' off := by
  intro off hoff
  cases hp' : (v.mem.entry s').present with
  | false =>
    rw [View.content_of_absent hp', View.content_of_absent (v := v.written s o bytes values) hp']
    rfl
  | true =>
    have hbase : (v.mem.entry s').baseAddr ≠ (v.mem.entry s).baseAddr := by
      intro hb
      have hheld' := h.held_data hs' hp'
      rw [hb, h.held_data hs hp] at hheld'
      exact hne (by simpa using hheld'.symm)
    rw [View.content_of_present hp', View.content_of_present (v := v.written s o bytes values) hp']
    exact (Memory.page_write _ _ _ _ hoff ho).trans (if_neg fun heq => hbase heq.1)

end Placed

end Cs241.Paging
