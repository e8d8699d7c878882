import Cs241.Paging.Handling

/-!
# The estate of a process

The kernel of this file notes the frames that it hands out and takes back. From
the moment a process is added its frames are its directory, its first table, the
pages of that table, and others, to which its directory does not lead. Every
change of the unit is one of a few changes of this estate.
-/
namespace Cs241.Paging

open Foundation

variable {κ τ : Type*}

/-! ## A kernel that keeps a journal -/

/-- The frames that were handed out and returned, newest first. -/
structure Journal where
  handedOut : List ℕ
  returned : List ℕ

def FrameKernel.journaled (K : FrameKernel κ) : FrameKernel (κ × Journal) where
  askForFrame k m ref :=
    let (address, kernel, memory) := K.askForFrame k.1 m ref
    (address, (kernel, { k.2 with handedOut := address / 4096 :: k.2.handedOut }), memory)
  readPageFromDisk k m ref :=
    let (kernel, memory) := K.readPageFromDisk k.1 m ref
    ((kernel, k.2), memory)
  returnFrameToKernel k address :=
    (K.returnFrameToKernel k.1 address, { k.2 with returned := address / 4096 :: k.2.returned })
  removeSwapFile k slot := (K.removeSwapFile k.1 slot, k.2)

/-- The journal is opened. -/
def Mmu.observed (w : Mmu κ τ) : Mmu (κ × Journal) τ :=
  { w with kernel := (w.kernel, { handedOut := [], returned := [] }) }

/-! ## The frames of one process -/

/-- What the contracts say about a process, with the journal since it was added. -/
structure Estate where
  dir : Option ℕ
  entry : Slot → Entry
  inUse : ℕ → Prop
  added : ℕ → Slot → Prop
  journal : Journal

/-- A frame that was handed out and that the directory `d` with the only table `t` does not lead
to. -/
def Lost (d t : ℕ) (v : Estate) (f : ℕ) : Prop :=
  f ∈ v.journal.handedOut ∧ f ≠ d ∧ f ≠ t ∧
    ∀ i, (v.entry (t, i)).present = true → (v.entry (t, i)).baseAddr ≠ f

/-- The directory `d` leads to the table `t` and to no other one. The TLB leads to entries of `t`
for the first pages, to lost tables for the others. -/
structure Lodged (d t : ℕ) (v : Estate) : Prop where
  dir : v.dir = some d
  first : (v.entry (d, 0)).present = true ∧ (v.entry (d, 0)).baseAddr = t
  rest : ∀ j, j ≠ 0 → (v.entry (d, j)).present = false
  used : ∀ {f}, f ∈ v.journal.handedOut → v.inUse f
  handed : d ∈ v.journal.handedOut ∧ t ∈ v.journal.handedOut ∧ d ≠ t
  page : ∀ {i}, (v.entry (t, i)).present = true → i < 1024 ∧
    (v.entry (t, i)).baseAddr ∈ v.journal.handedOut ∧ (v.entry (t, i)).baseAddr ≠ d ∧
    (v.entry (t, i)).baseAddr ≠ t
  apart : ∀ {i i'}, (v.entry (t, i)).present = true → (v.entry (t, i')).present = true →
    (v.entry (t, i)).baseAddr = (v.entry (t, i')).baseAddr → i = i'
  known : ∀ {n s}, v.added n s → (n < 1024 ∧ s = (t, n)) ∨ (1024 ≤ n ∧ Lost d t v s.1)
  kept : v.journal.returned = []

namespace Lodged

variable {v : Estate} {d t f i : ℕ} {s : Slot} {e : Entry} (h : Lodged d t v)
include h

theorem known_handed {n : ℕ} (hs : v.added n s) : s.1 ∈ v.journal.handedOut := by
  rcases h.known hs with ⟨-, rfl⟩ | ⟨-, hlost⟩
  exacts [h.handed.2.1, hlost.1]

/-- A frame that is handed out is lost at first. -/
theorem ask (hf : ¬ v.inUse f) :
    let v' : Estate := { v with
      entry := fun s => if s.1 = f then .zero else v.entry s
      inUse := fun g => g = f ∨ v.inUse g
      journal := { v.journal with handedOut := f :: v.journal.handedOut } }
    Lodged d t v' ∧ ∀ g, Lost d t v' g ↔ g = f ∨ Lost d t v g := by
  have hne : ∀ {g}, g ∈ v.journal.handedOut → g ≠ f := by
    rintro g hg rfl
    exact hf (h.used hg)
  have hd := hne h.handed.1
  have ht := hne h.handed.2.1
  have hlost : ∀ g, Lost d t { v with
      entry := fun s => if s.1 = f then .zero else v.entry s
      inUse := fun g => g = f ∨ v.inUse g
      journal := { v.journal with handedOut := f :: v.journal.handedOut } } g ↔
        g = f ∨ Lost d t v g := by
    intro g
    simp only [Lost, List.mem_cons, ht, if_false]
    constructor
    · rintro ⟨rfl | hg, hrest⟩
      exacts [.inl rfl, .inr ⟨hg, hrest⟩]
    · rintro (rfl | ⟨hg, hrest⟩)
      · refine ⟨.inl rfl, hd.symm, ht.symm, fun i hi => hne (h.page hi).2.1⟩
      · exact ⟨.inr hg, hrest⟩
  refine ⟨?_, hlost⟩
  constructor
  case dir => exact h.dir
  case first => simpa [hd] using h.first
  case rest => simpa [hd] using h.rest
  case used =>
    intro g hg
    exact (List.mem_cons.mp hg).imp_right h.used
  case handed =>
    obtain ⟨hd', ht', hdt⟩ := h.handed
    exact ⟨List.mem_cons_of_mem _ hd', List.mem_cons_of_mem _ ht', hdt⟩
  case page =>
    intro i hi
    simp only [ht, if_false] at hi ⊢
    obtain ⟨hlt, hg, hrest⟩ := h.page hi
    exact ⟨hlt, List.mem_cons_of_mem _ hg, hrest⟩
  case apart => simpa only [ht, if_false] using @h.apart
  case known =>
    intro n s hs
    exact (h.known hs).imp_right fun hold => ⟨hold.1, (hlost _).mpr (.inr hold.2)⟩
  case kept => exact h.kept

/-- A lost frame becomes a page of the first table. -/
theorem map (hi : i < 1024) (habs : (v.entry (t, i)).present = false) (hf : Lost d t v f)
    (hnew : ∀ n s, v.added n s → s.1 ≠ f) (he : e.present = true ∧ e.baseAddr = f) :
    let v' : Estate := { v with entry := Function.update v.entry (t, i) e }
    Lodged d t v' ∧ ∀ g, Lost d t v' g ↔ g ≠ f ∧ Lost d t v g := by
  obtain ⟨hown, hfd, hft, hpage⟩ := hf
  have hdir : ∀ j, Function.update v.entry (t, i) e (d, j) = v.entry (d, j) := fun j =>
    Function.update_of_ne (fun heq => h.handed.2.2 (Prod.mk.inj heq).1) _ _
  have hother : ∀ {i'}, i' ≠ i → Function.update v.entry (t, i) e (t, i') = v.entry (t, i') :=
    fun hne => Function.update_of_ne (fun heq => hne (Prod.mk.inj heq).2) _ _
  have hlost : ∀ g, Lost d t { v with entry := Function.update v.entry (t, i) e } g ↔
      g ≠ f ∧ Lost d t v g := by
    intro g
    constructor
    · rintro ⟨hg, hgd, hgt, hrest⟩
      refine ⟨?_, hg, hgd, hgt, fun i' hi' => ?_⟩
      · rintro rfl
        exact hrest i (by simp [he]) (by simp [he])
      · have hne : i' ≠ i := by
          rintro rfl
          simp [habs] at hi'
        simpa only [hother hne] using hrest i' (by simpa only [hother hne] using hi')
    · rintro ⟨hgf, hg, hgd, hgt, hrest⟩
      refine ⟨hg, hgd, hgt, fun i' hi' => ?_⟩
      by_cases hne : i' = i
      · subst hne
        simpa [he] using hgf.symm
      · simp only [hother hne] at hi' ⊢
        exact hrest i' hi'
  refine ⟨?_, hlost⟩
  constructor
  case dir => exact h.dir
  case first => simpa only [hdir] using h.first
  case rest => simpa only [hdir] using h.rest
  case used => exact h.used
  case handed => exact h.handed
  case page =>
    intro i' hi'
    by_cases hne : i' = i
    · subst hne
      simpa [he] using ⟨hi, hown, hfd, hft⟩
    · simp only [hother hne] at hi' ⊢
      exact h.page hi'
  case apart =>
    intro i' i'' hi' hi'' heq
    by_cases hne : i' = i <;> by_cases hne' : i'' = i
    · rw [hne, hne']
    · subst hne
      simp only [hother hne', Function.update_self, he.2] at hi'' heq
      exact absurd heq.symm (hpage i'' hi'')
    · subst hne'
      simp only [hother hne, Function.update_self, he.2] at hi' heq
      exact absurd heq (hpage i' hi')
    · simp only [hother hne, hother hne'] at hi' hi'' heq
      exact h.apart hi' hi'' heq
  case known =>
    intro n s hs
    exact (h.known hs).imp_right fun hold => ⟨hold.1, (hlost _).mpr ⟨hnew n s hs, hold.2⟩⟩
  case kept => exact h.kept

/-- The directory and the first table lead where they led before. -/
theorem congr {entry : Slot → Entry}
    (hsame : ∀ s : Slot, s.1 = d ∨ s.1 = t → (entry s).present = (v.entry s).present ∧
      (entry s).baseAddr = (v.entry s).baseAddr) :
    Lodged d t { v with entry := entry } ∧
      ∀ g, Lost d t { v with entry := entry } g ↔ Lost d t v g := by
  have hlost : ∀ g, Lost d t { v with entry := entry } g ↔ Lost d t v g := fun g => by
    simp only [Lost, hsame (t, _) (.inr rfl)]
  refine ⟨?_, hlost⟩
  constructor
  case dir => exact h.dir
  case first => simpa only [hsame (d, _) (.inl rfl)] using h.first
  case rest => simpa only [hsame (d, _) (.inl rfl)] using h.rest
  case used => exact h.used
  case handed => exact h.handed
  case page => simpa only [hsame (t, _) (.inr rfl)] using @h.page
  case apart => simpa only [hsame (t, _) (.inr rfl)] using @h.apart
  case known =>
    intro n s hs
    exact (h.known hs).imp_right fun hold => ⟨hold.1, (hlost _).mpr hold.2⟩
  case kept => exact h.kept

/-- An entry of another frame changes. -/
theorem elsewhere (hd : s.1 ≠ d) (ht : s.1 ≠ t) :
    Lodged d t { v with entry := Function.update v.entry s e } ∧
      ∀ g, Lost d t { v with entry := Function.update v.entry s e } g ↔ Lost d t v g := by
  apply h.congr
  intro s' hs'
  have hne : s' ≠ s := by
    rintro rfl
    exact hs'.elim hd ht
  rw [Function.update_of_ne hne]
  exact ⟨rfl, rfl⟩

/-- Other bits of an entry change. -/
theorem mark (hp : e.present = (v.entry s).present) (hb : e.baseAddr = (v.entry s).baseAddr) :
    Lodged d t { v with entry := Function.update v.entry s e } ∧
      ∀ g, Lost d t { v with entry := Function.update v.entry s e } g ↔ Lost d t v g := by
  apply h.congr
  intro s' _
  by_cases hs : s' = s
  · subst hs
    rw [Function.update_self]
    exact ⟨hp, hb⟩
  · rw [Function.update_of_ne hs]
    exact ⟨rfl, rfl⟩

theorem learn {added : ℕ → Slot → Prop}
    (ha : ∀ {n s}, added n s → (n < 1024 ∧ s = (t, n)) ∨ (1024 ≤ n ∧ Lost d t v s.1)) :
    Lodged d t { v with added := added } :=
  { h with known := ha }

end Lodged

end Cs241.Paging
