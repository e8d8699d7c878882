import Mathlib.Order.Filter.AtTopBot.Basic

/-!
# Sequences that come to rest

Where every move of a sequence goes down a relation from an accessible point, the
sequence moves finitely often. In a run of several processes this is used for one
process after the other, each from the time on when those before it have settled.
-/
namespace Cs241.Foundation

open Filter

variable {α : Type*} {r : α → α → Prop} {f : ℕ → α} {moves : ℕ → Prop}

/-- From an accessible point on there is a last move. -/
theorem exists_last_move {N : ℕ} (hmoves : ∀ k, N ≤ k → moves k → r (f (k + 1)) (f k))
    (hrests : ∀ k, N ≤ k → ¬ moves k → f (k + 1) = f k) (hacc : Acc r (f N)) :
    ∃ M, ∀ k, M ≤ k → ¬ moves k := by
  classical
  generalize hx : f N = x at hacc
  induction hacc generalizing N with
  | intro x _ ih =>
    by_cases h : ∃ j, N ≤ j ∧ moves j
    · -- the first move from `N` on starts at `x`
      have hfirst := Nat.find_spec h
      have hrest (k : ℕ) (hk : N + k ≤ Nat.find h) : f (N + k) = x := by
        induction k with
        | zero => exact hx
        | succ k ihk =>
          have hnot : ¬ moves (N + k) := fun hm =>
            Nat.find_min h (by omega) ⟨by omega, hm⟩
          rw [← Nat.add_assoc, hrests (N + k) (by omega) hnot]
          exact ihk (by omega)
      have hat : f (Nat.find h) = x := by
        obtain ⟨k, hk⟩ := Nat.exists_eq_add_of_le hfirst.1
        rw [hk]
        exact hrest k hk.ge
      have hstep := hmoves _ hfirst.1 hfirst.2
      rw [hat] at hstep
      exact ih _ hstep (fun k hk => hmoves k (by omega)) (fun k hk => hrests k (by omega)) rfl
    · exact ⟨N, fun k hk hm => h ⟨k, hk, hm⟩⟩

/-- A sequence whose moves go down, at least from some time on, comes to rest. -/
theorem eventually_not_moves (h : ∀ᶠ k in atTop, (moves k → r (f (k + 1)) (f k)) ∧
    (¬ moves k → f (k + 1) = f k)) (hacc : ∀ k, Acc r (f k)) : ∀ᶠ k in atTop, ¬ moves k := by
  obtain ⟨N, hN⟩ := eventually_atTop.mp h
  exact eventually_atTop.mpr
    (exists_last_move (fun k hk => (hN k hk).1) (fun k hk => (hN k hk).2) (hacc N))

end Cs241.Foundation
