import Cs241.Paging.Removal

/-!
# What belongs to whom

A scene is what the contracts let us say about a state in the middle of a call,
with the page tables that each process has been given, also those that its
directory does not lead to. The frames of two processes that are present are
apart, and all that a process can reach, through its directory or the TLB, is its
own. Every change of the unit is one of a few changes of the scene.
-/
namespace Cs241.Paging

structure Scene where
  entry : Slot → Entry
  inUse : ℕ → Prop
  added : ℕ → Slot → Prop
  curr : ℕ
  dirs : ℕ → Option ℕ
  tables : ℕ → ℕ → Prop
  frames : ℕ → ℕ → Prop

theorem live_of_dirs {dirs : ℕ → Option ℕ} {p d : ℕ} (hd : dirs p = some d) : dirs p ≠ none :=
  Option.ne_none_iff_exists'.mpr ⟨d, hd⟩

structure Apart (v : Scene) : Prop where
  in_use : ∀ {p f}, v.dirs p ≠ none → v.frames p f → v.inUse f
  disjoint : ∀ {p q f}, v.dirs p ≠ none → v.dirs q ≠ none → v.frames p f → v.frames q f → p = q
  directory : ∀ {p d}, v.dirs p = some d → v.frames p d ∧ ¬ v.tables p d
  linked : ∀ {p d j}, v.dirs p = some d → (v.entry (d, j)).present = true →
    v.tables p (v.entry (d, j)).baseAddr
  table : ∀ {p t}, v.dirs p ≠ none → v.tables p t → v.frames p t
  page : ∀ {p t i}, v.dirs p ≠ none → v.tables p t → (v.entry (t, i)).present = true →
    v.frames p (v.entry (t, i)).baseAddr ∧ ¬ v.tables p (v.entry (t, i)).baseAddr ∧
      v.dirs p ≠ some (v.entry (t, i)).baseAddr
  known : ∀ {n s}, v.added n s → v.dirs v.curr ≠ none ∧ v.tables v.curr s.1

/-- A frame of a process that is neither its directory nor one of its tables or pages, and that
holds nothing. -/
structure Spare (v : Scene) (p f : ℕ) : Prop where
  own : v.frames p f
  not_directory : v.dirs p ≠ some f
  not_table : ¬ v.tables p f
  not_page : ∀ {t i}, v.tables p t → (v.entry (t, i)).present = true → (v.entry (t, i)).baseAddr ≠ f
  blank : ∀ i, (v.entry (f, i)).present = false

namespace Apart

variable {v : Scene} {p q d f t j n : ℕ} {s : Slot} {e : Entry} (h : Apart v)
include h

/-- The kernel hands out a frame to a process. -/
theorem ask (hp : v.dirs p ≠ none) (hf : ¬ v.inUse f) :
    let v' : Scene := { v with
      entry := fun s => if s.1 = f then .zero else v.entry s
      inUse := fun g => g = f ∨ v.inUse g
      frames := fun q g => v.frames q g ∨ (q = p ∧ g = f) }
    Apart v' ∧ Spare v' p f := by
  have hne : ∀ {q g}, v.dirs q ≠ none → v.frames q g → g ≠ f := by
    rintro q g hq hg rfl
    exact hf (h.in_use hq hg)
  have hdir : ∀ {q d}, v.dirs q = some d → d ≠ f := fun hq =>
    hne (live_of_dirs hq) (h.directory hq).1
  have htable : ∀ {q t}, v.dirs q ≠ none → v.tables q t → t ≠ f := fun hq ht =>
    hne hq (h.table hq ht)
  refine ⟨?_, ?_⟩
  · constructor
    case in_use =>
      rintro q g hq (hg | ⟨-, rfl⟩)
      · exact .inr (h.in_use hq hg)
      · exact .inl rfl
    case disjoint =>
      rintro q r g hq hr (hqg | ⟨rfl, rfl⟩) (hrg | ⟨rfl, hg⟩)
      · exact h.disjoint hq hr hqg hrg
      · exact absurd hg (hne hq hqg)
      · exact absurd rfl (hne hr hrg)
      · rfl
    case directory =>
      intro q d hq
      exact (h.directory hq).imp_left .inl
    case linked =>
      intro q d j hq hj
      simp only [hdir hq, if_false] at hj ⊢
      exact h.linked hq hj
    case table => exact fun hq ht => .inl (h.table hq ht)
    case page =>
      intro q t i hq ht hi
      simp only [htable hq ht, if_false] at hi ⊢
      exact (h.page hq ht hi).imp_left .inl
    case known => exact h.known
  · constructor
    case own => exact .inr ⟨rfl, rfl⟩
    case not_directory => exact fun hd => hdir hd rfl
    case not_table => exact fun ht => htable hp ht rfl
    case not_page =>
      intro t i ht hi
      simp only [htable hp ht, if_false] at hi ⊢
      exact hne hp (h.page hp ht hi).1
    case blank => simp [Entry.zero]

/-- A spare frame becomes a page table. -/
theorem adopt (hs : Spare v p f) :
    Apart { v with tables := fun q t => v.tables q t ∨ (q = p ∧ t = f) } := by
  constructor
  case in_use => exact h.in_use
  case disjoint => exact h.disjoint
  case directory =>
    intro q d hq
    refine ⟨(h.directory hq).1, ?_⟩
    rintro (ht | ⟨rfl, rfl⟩)
    · exact (h.directory hq).2 ht
    · exact hs.not_directory hq
  case linked => exact fun hq hj => .inl (h.linked hq hj)
  case table =>
    rintro q t hq (ht | ⟨rfl, rfl⟩)
    · exact h.table hq ht
    · exact hs.own
  case page =>
    rintro q t i hq (ht | ⟨rfl, rfl⟩) hi
    · obtain ⟨hown, hnot, hdir⟩ := h.page hq ht hi
      refine ⟨hown, ?_, hdir⟩
      rintro (hb | ⟨rfl, hb⟩)
      · exact hnot hb
      · exact hs.not_page ht hi hb
    · exact absurd hi (by simp [hs.blank])
  case known => exact fun hn => (h.known hn).imp_right .inl

/-- A directory entry leads to a table of its process. -/
theorem link (hd : v.dirs p = some d) (ht : v.tables p e.baseAddr) :
    Apart { v with entry := Function.update v.entry (d, j) e } := by
  have hentry : ∀ {q t i}, v.dirs q ≠ none → v.tables q t →
      Function.update v.entry (d, j) e (t, i) = v.entry (t, i) := by
    intro q t i hq hqt
    refine Function.update_of_ne ?_ _ _
    rintro ⟨⟩
    obtain rfl := h.disjoint hq (live_of_dirs hd) (h.table hq hqt) (h.directory hd).1
    exact (h.directory hd).2 hqt
  refine { h with linked := ?_, page := ?_ }
  · intro q d' j' hq hj
    by_cases hs : ((d', j') : Slot) = (d, j)
    · obtain ⟨rfl, rfl⟩ := Prod.mk.inj hs
      obtain rfl :=
        h.disjoint (live_of_dirs hq) (live_of_dirs hd) (h.directory hq).1 (h.directory hd).1
      simpa using ht
    · simp only [Function.update_of_ne hs] at hj ⊢
      exact h.linked hq hj
  · intro q t i hq hqt hi
    simp only [hentry hq hqt] at hi ⊢
    exact h.page hq hqt hi

/-- A table entry leads to a frame of its process that is not a table. -/
theorem map (hp : v.dirs p ≠ none) (ht : v.tables p s.1)
    (hown : e.present = true → v.frames p e.baseAddr ∧ ¬ v.tables p e.baseAddr ∧
      v.dirs p ≠ some e.baseAddr) :
    Apart { v with entry := Function.update v.entry s e } := by
  refine { h with linked := ?_, page := ?_ }
  · intro q d j hq hj
    have hs : (d, j) ≠ s := by
      rintro rfl
      obtain rfl := h.disjoint (live_of_dirs hq) hp (h.directory hq).1 (h.table hp ht)
      exact (h.directory hq).2 ht
    simp only [Function.update_of_ne hs] at hj ⊢
    exact h.linked hq hj
  · intro q t i hq hqt hi
    by_cases hs : (t, i) = s
    · subst hs
      simp only [Function.update_self] at hi ⊢
      obtain rfl := h.disjoint hq hp (h.table hq hqt) (h.table hp ht)
      exact hown hi
    · simp only [Function.update_of_ne hs] at hi ⊢
      exact h.page hq hqt hi

/-- What the TLB knows changes. -/
theorem learn {added : ℕ → Slot → Prop}
    (ha : ∀ {n s}, added n s → v.dirs p ≠ none ∧ v.tables p s.1) :
    Apart { v with added := added, curr := p } :=
  { h with known := ha }

/-- A new process gets a blank directory. -/
theorem enter (hp : v.dirs p = none) (hf : ¬ v.inUse f) :
    Apart { v with
      entry := fun s => if s.1 = f then .zero else v.entry s
      inUse := fun g => g = f ∨ v.inUse g
      dirs := Function.update v.dirs p (some f)
      tables := Function.update v.tables p fun _ => False
      frames := Function.update v.frames p (· = f) } := by
  have hne : ∀ {q g}, v.dirs q ≠ none → v.frames q g → g ≠ f := by
    rintro q g hq hg rfl
    exact hf (h.in_use hq hg)
  have hcase : ∀ {q}, q ≠ p → Function.update v.dirs p (some f) q = v.dirs q ∧
      Function.update v.tables p (fun _ => False) q = v.tables q ∧
      Function.update v.frames p (· = f) q = v.frames q := fun hq =>
    ⟨Function.update_of_ne hq _ _, Function.update_of_ne hq _ _, Function.update_of_ne hq _ _⟩
  constructor
  case in_use =>
    intro q g hq hg
    by_cases hqp : q = p
    · subst hqp
      exact .inl (by simpa using hg)
    · simp only [hcase hqp] at hq hg
      exact .inr (h.in_use hq hg)
  case disjoint =>
    intro q r g hq hr hqg hrg
    by_cases hqp : q = p <;> by_cases hrp : r = p
    · rw [hqp, hrp]
    · subst hqp
      simp only [hcase hrp, Function.update_self] at hr hqg hrg
      exact absurd hqg (hne hr hrg)
    · subst hrp
      simp only [hcase hqp, Function.update_self] at hq hqg hrg
      exact absurd hrg (hne hq hqg)
    · simp only [hcase hqp, hcase hrp] at hq hr hqg hrg
      exact h.disjoint hq hr hqg hrg
  case directory =>
    intro q d hq
    by_cases hqp : q = p
    · subst hqp
      have hd : f = d := by simpa using hq
      simp [hd]
    · simp only [hcase hqp] at hq ⊢
      exact h.directory hq
  case linked =>
    intro q d j hq hj
    by_cases hqp : q = p
    · subst hqp
      have hd : f = d := by simpa using hq
      simp [hd, Entry.zero] at hj
    · simp only [hcase hqp] at hq ⊢
      simp only [hne (live_of_dirs hq) (h.directory hq).1, if_false] at hj ⊢
      exact h.linked hq hj
  case table =>
    intro q t hq ht
    by_cases hqp : q = p
    · subst hqp
      simp at ht
    · simp only [hcase hqp] at hq ht ⊢
      exact h.table hq ht
  case page =>
    intro q t i hq ht hi
    by_cases hqp : q = p
    · subst hqp
      simp at ht
    · simp only [hcase hqp] at hq ht ⊢
      simp only [hne hq (h.table hq ht), if_false] at hi ⊢
      exact h.page hq ht hi
  case known =>
    intro n s hn
    have hcurr : v.curr ≠ p := fun hc => (h.known hn).1 (hc ▸ hp)
    simp only [hcase hcurr]
    exact h.known hn

/-- A process is removed with its frames and with what the TLB knows of it. -/
theorem leave (p : ℕ) (inUse : ℕ → Prop) {added : ℕ → Slot → Prop}
    (hu : ∀ f, v.inUse f → (v.dirs p ≠ none → ¬ v.frames p f) → inUse f)
    (ha : ∀ {n s}, added n s → v.added n s ∧ v.curr ≠ p) :
    Apart { v with inUse := inUse, added := added, dirs := Function.update v.dirs p none } := by
  have hlive : ∀ {q}, Function.update v.dirs p none q ≠ none → v.dirs q ≠ none ∧ q ≠ p := by
    intro q hq
    by_cases hqp : q = p
    · simp [hqp] at hq
    · exact ⟨by simpa [hqp] using hq, hqp⟩
  have hsome : ∀ {q d}, Function.update v.dirs p none q = some d → v.dirs q = some d := by
    intro q d hq
    by_cases hqp : q = p
    · simp [hqp] at hq
    · simpa [hqp] using hq
  constructor
  case in_use =>
    intro q f hq hf
    obtain ⟨hq, hqp⟩ := hlive hq
    exact hu f (h.in_use hq hf) fun hp hpf => hqp (h.disjoint hq hp hf hpf)
  case disjoint => exact fun hq hr => h.disjoint (hlive hq).1 (hlive hr).1
  case directory => exact fun hq => h.directory (hsome hq)
  case linked => exact fun hq => h.linked (hsome hq)
  case table => exact fun hq => h.table (hlive hq).1
  case page =>
    intro q t i hq ht hi
    obtain ⟨hown, hnot, hdir⟩ := h.page (hlive hq).1 ht hi
    exact ⟨hown, hnot, fun hd => hdir (hsome hd)⟩
  case known =>
    intro n s hn
    obtain ⟨hn, hc⟩ := ha hn
    simp only [Function.update_of_ne hc]
    exact h.known hn

end Apart

end Cs241.Paging
