import Mathlib.Data.List.Basic
import Mathlib.Order.Defs.PartialOrder

/-!
# Runs of a labelled step relation

A system is a relation `step s a t`: in state `s` the action `a` may lead to
`t`. A run is a finite sequence of such steps. Safety results are proved once
per step and lifted to runs by the rules of this file; the guarded relation
restricts a system to the steps whose pre-state meets a condition.
-/
namespace Cs241.Foundation

variable {σ α : Type*} {step : σ → α → σ → Prop} {s t u : σ} {as bs : List α}

/-- `Run step s as t`: performing the actions `as` in order leads from `s` to `t`. -/
inductive Run (step : σ → α → σ → Prop) (s : σ) : List α → σ → Prop
  | refl : Run step s [] s
  | tail {as t a u} : Run step s as t → step t a u → Run step s (as ++ [a]) u

/-- The steps of a system whose pre-state and action meet `guard`. -/
def Guarded (step : σ → α → σ → Prop) (guard : σ → α → Prop) : σ → α → σ → Prop :=
  fun s a t => guard s a ∧ step s a t

theorem Run.single {a : α} (h : step s a t) : Run step s [a] t :=
  Run.tail .refl h

theorem Run.trans (h : Run step s as t) (h' : Run step t bs u) : Run step s (as ++ bs) u := by
  induction h' with
  | refl => simpa using h
  | tail _ hstep ih =>
    rw [← List.append_assoc]
    exact ih.tail hstep

theorem Run.head {a : α} (h : step s a t) (h' : Run step t as u) : Run step s (a :: as) u :=
  (Run.single h).trans h'

/-- A run ends with the step of its last action. -/
theorem Run.unsnoc {a : α} (h : Run step s (as ++ [a]) t) :
    ∃ u, Run step s as u ∧ step u a t := by
  generalize hbs : as ++ [a] = bs at h
  cases h with
  | refl => simp at hbs
  | tail hrun hstep =>
    obtain ⟨rfl, heq⟩ := List.append_inj' hbs rfl
    obtain rfl := List.singleton_inj.mp heq
    exact ⟨_, hrun, hstep⟩

theorem Run.eq_of_nil (h : Run step s [] t) : t = s := by
  generalize hbs : ([] : List α) = bs at h
  cases h with
  | refl => rfl
  | tail _ _ => simp at hbs

/-- A run begins with the step of its first action. -/
theorem Run.uncons {a : α} (h : Run step s (a :: as) t) : ∃ u, step s a u ∧ Run step u as t := by
  generalize hbs : a :: as = bs at h
  induction h generalizing as with
  | refl => simp at hbs
  | @tail bs _ b _ hrun hstep ih =>
    cases bs with
    | nil =>
      obtain ⟨rfl, rfl⟩ := List.cons.inj hbs
      exact ⟨_, hrun.eq_of_nil ▸ hstep, .refl⟩
    | cons c cs =>
      obtain ⟨rfl, rfl⟩ := List.cons.inj hbs
      obtain ⟨u, hfirst, hrest⟩ := ih rfl
      exact ⟨u, hfirst, hrest.tail hstep⟩

/-- A run passes through a state behind each part of its actions. -/
theorem Run.split (h : Run step s (as ++ bs) t) : ∃ u, Run step s as u ∧ Run step u bs t := by
  induction as generalizing s with
  | nil => exact ⟨s, .refl, h⟩
  | cons a as ih =>
    obtain ⟨v, hfirst, hrest⟩ := h.uncons
    obtain ⟨u, has, hbs⟩ := ih hrest
    exact ⟨u, .head hfirst has, hbs⟩

/-- A property that holds initially and is kept by every step holds after every run. -/
theorem Run.invariant {P : σ → Prop} (h : Run step s as t) (h₀ : P s)
    (hstep : ∀ {t a u}, P t → step t a u → P u) : P t := by
  induction h with
  | refl => exact h₀
  | tail _ hs ih => exact hstep ih hs

/-- Where an invariant makes every step lower a measure, runs are no longer than the measure. -/
theorem Run.length_add_le {I : σ → Prop} (measure : σ → ℕ) (h : Run step s as t) (h₀ : I s)
    (hstep : ∀ {t a u}, I t → step t a u → I u ∧ measure u < measure t) :
    I t ∧ as.length + measure t ≤ measure s := by
  induction h with
  | refl => exact ⟨h₀, by simp⟩
  | tail _ hs ih =>
    obtain ⟨hI, hlt⟩ := hstep ih.1 hs
    refine ⟨hI, ?_⟩
    rw [List.length_append, List.length_singleton]
    have hle := ih.2
    omega

/-- Forward simulation: if every step from a state related to an abstract state `b` is
matched by a move of `b` along a preorder, so is every run. -/
theorem Run.simulate {β : Type*} {I : σ → β → Prop} {R : β → β → Prop} {b : β}
    (h : Run step s as t) (h₀ : I s b) (hrefl : ∀ b, R b b)
    (htrans : ∀ {a b c}, R a b → R b c → R a c)
    (hstep : ∀ {s a t b}, I s b → step s a t → ∃ b', I t b' ∧ R b b') : ∃ b', I t b' ∧ R b b' := by
  induction h with
  | refl => exact ⟨b, h₀, hrefl b⟩
  | tail _ hs ih =>
    obtain ⟨b₁, h₁, hR₁⟩ := ih
    obtain ⟨b₂, h₂, hR₂⟩ := hstep h₁ hs
    exact ⟨b₂, h₂, htrans hR₁ hR₂⟩

/-- Runs transfer along a map of steps. -/
theorem Run.mono {step' : σ → α → σ → Prop} (h : Run step s as t)
    (hsub : ∀ {s a t}, step s a t → step' s a t) : Run step' s as t := by
  induction h with
  | refl => exact .refl
  | tail _ hs ih => exact ih.tail (hsub hs)

/-- Where no run goes on forever, a state reached by a run has no endless continuation either. -/
theorem Run.acc (h : Run step s as t) (hacc : Acc (fun t s => ∃ a, step s a t) s) :
    Acc (fun t s => ∃ a, step s a t) t := by
  induction h with
  | refl => exact hacc
  | tail _ hs ih => exact ih.inv ⟨_, hs⟩

/-- A state without endless continuations has one that ends. -/
theorem exists_run_of_acc (hacc : Acc (fun t s => ∃ a, step s a t) s) :
    ∃ as t, Run step s as t ∧ ∀ a u, ¬ step t a u := by
  induction hacc with
  | intro s _ ih =>
    by_cases hstep : ∃ a t, step s a t
    · obtain ⟨a, t, hs⟩ := hstep
      obtain ⟨as, u, hrun, hstuck⟩ := ih t ⟨a, hs⟩
      exact ⟨a :: as, u, hrun.head hs, hstuck⟩
    · exact ⟨[], s, .refl, fun a u hs => hstep ⟨a, u, hs⟩⟩

/-- Where steps are computed, a fold that answers is a run. -/
theorem Run.of_fold {f : σ → α → Option σ} (h : as.foldlM f s = some t) :
    Run (fun s a t => f s a = some t) s as t := by
  induction as generalizing s with
  | nil =>
    obtain rfl : s = t := by simpa using h
    exact .refl
  | cons a as ih =>
    rw [List.foldlM_cons] at h
    obtain ⟨u, hu, hrest⟩ := Option.bind_eq_some_iff.mp h
    exact .head hu (ih hrest)

/-- Where steps may fail, a fold without a failure is a run. -/
theorem Run.of_fold_ok {ε : Type*} {f : σ → α → Except ε σ} (h : as.foldlM f s = .ok t) :
    Run (fun s a t => f s a = .ok t) s as t := by
  induction as generalizing s with
  | nil =>
    obtain rfl := Except.ok.inj h
    exact .refl
  | cons a as ih =>
    rw [List.foldlM_cons] at h
    cases hu : f s a with
    | error e => simp [hu, bind, Except.bind] at h
    | ok u =>
      rw [hu] at h
      exact .head hu (ih h)

theorem Run.of_foldlM {f : σ → α → Option σ} {guard : σ → α → Prop} [∀ s a, Decidable (guard s a)]
    (h : as.foldlM (fun s a => if guard s a then f s a else none) s = some t) :
    Run (Guarded (fun s a t => f s a = some t) guard) s as t := by
  apply (Run.of_fold h).mono
  intro s a t hs
  split_ifs at hs with hg
  exact ⟨hg, hs⟩

end Cs241.Foundation
