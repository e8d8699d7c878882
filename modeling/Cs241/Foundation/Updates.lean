import Mathlib.Algebra.BigOperators.Group.Finset.Piecewise
import Mathlib.Logic.Function.Basic

/-!
# Sums over a function that is updated

A measure of a system with many components is a sum over them, in which each
component counts by its own state. When one component changes, the sum changes by
that component alone.
-/
namespace Cs241.Foundation

variable {ι β : Type*} [DecidableEq ι]

/-- A component counts with its new state in place of its old one. -/
theorem sum_update {s : Finset ι} {i : ι} (hi : i ∈ s) (g : ι → β → ℕ) (f : ι → β) (b : β) :
    ∑ x ∈ s, g x (Function.update f i b x) + g i (f i) = ∑ x ∈ s, g x (f x) + g i b := by
  have hnew : ∑ x ∈ s, g x (Function.update f i b x) = g i b + ∑ x ∈ s \ {i}, g x (f x) := by
    simp only [Function.apply_update g]
    exact Finset.sum_update_of_mem hi _ _
  have hold : ∑ x ∈ s, g x (f x) = g i (f i) + ∑ x ∈ s \ {i}, g x (f x) := by
    rw [← Finset.sum_update_of_mem hi, Function.update_eq_self]
  omega

/-- The number of components with a property changes by one component. -/
theorem card_filter_update {s : Finset ι} {i : ι} (hi : i ∈ s) (P : ι → β → Prop)
    [∀ x, DecidablePred (P x)] (f : ι → β) (b : β) :
    (s.filter fun x => P x (Function.update f i b x)).card + (if P i (f i) then 1 else 0) =
      (s.filter fun x => P x (f x)).card + (if P i b then 1 else 0) := by
  simp only [Finset.card_filter]
  exact sum_update hi (fun x b => if P x b then 1 else 0) f b

end Cs241.Foundation
