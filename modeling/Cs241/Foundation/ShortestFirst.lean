import Mathlib.Algebra.BigOperators.Group.List.Basic
import Mathlib.Algebra.Order.Group.Defs
import Mathlib.Data.List.Perm.Basic
import Mathlib.Tactic.Abel
import Mathlib.Tactic.NormNum.Basic

/-!
# Completion times

Tasks are done one after the other. Each is complete when it and all tasks before
it have been done; the sum of these times is least when the shortest come first.
-/
namespace Cs241.Foundation

variable {R : Type*} [AddCommGroup R] [LinearOrder R] [IsOrderedAddMonoid R]
  {p : R} {ps qs rs : List R}

/-- The sum of the completion times of tasks that take these times, the last task first. -/
def completions : List R → R
  | [] => 0
  | p :: ps => completions ps + (p + ps.sum)

omit [LinearOrder R] [IsOrderedAddMonoid R] in
@[simp] theorem completions_cons : completions (p :: ps) = completions ps + (p + ps.sum) := rfl

/-- A task that takes at least as long as those after it is better done last. -/
theorem completions_postpone (h : ∀ q ∈ qs, q ≤ p) :
    completions (p :: (qs ++ rs)) ≤ completions (qs ++ p :: rs) := by
  induction qs with
  | nil => exact le_rfl
  | cons q qs ih =>
    obtain ⟨hq, hqs⟩ := List.forall_mem_cons.mp h
    have hsum : (qs ++ p :: rs).sum = p + (qs ++ rs).sum := by
      rw [List.sum_append, List.sum_cons, List.sum_append]
      abel
    calc completions (p :: (q :: qs ++ rs))
        = completions (p :: (qs ++ rs)) + (q + (q + (qs ++ rs).sum)) := by
          simp only [List.cons_append, completions_cons, List.sum_cons]
          abel
      _ ≤ completions (qs ++ p :: rs) + (q + (p + (qs ++ rs).sum)) := by
          gcongr
          exact ih hqs
      _ = completions (q :: qs ++ p :: rs) := by
          rw [List.cons_append, completions_cons, hsum]

/-- The shortest tasks first is the best order. -/
theorem completions_le_of_sorted (hsorted : ps.Pairwise fun p q => q ≤ p) (hperm : ps.Perm qs) :
    completions ps ≤ completions qs := by
  induction ps generalizing qs with
  | nil => rw [List.nil_perm.mp hperm]
  | cons p ps ih =>
    obtain ⟨hlongest, hrest⟩ := List.pairwise_cons.mp hsorted
    obtain ⟨before, after, rfl⟩ := List.append_of_mem (hperm.subset List.mem_cons_self)
    have hcons : (p :: ps).Perm (p :: (before ++ after)) := hperm.trans List.perm_middle
    have hothers : ps.Perm (before ++ after) := hcons.cons_inv
    have hbefore : ∀ q ∈ before, q ≤ p := fun q hq =>
      hlongest q (hothers.mem_iff.mpr (List.mem_append_left _ hq))
    calc completions (p :: ps)
        ≤ completions (p :: (before ++ after)) := by
          rw [completions_cons, completions_cons, hothers.sum_eq]
          gcongr
          exact ih hrest hothers
      _ ≤ completions (before ++ p :: after) := completions_postpone hbefore

end Cs241.Foundation
