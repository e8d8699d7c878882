import Mathlib.Data.List.Induction
import Mathlib.Data.Nat.Basic
import Mathlib.Logic.ExistsUnique

/-!
# Ranges that tile an interval

A list of ranges `(start, end)` tiles an interval if the ranges are not empty and each begins where
the one before it ends. The slice of a list along a range grows with the range, and with an
associative function folding it on is folding the next slice.
-/
namespace Cs241.Foundation

/-- The ranges go from `a` to `b` without gap, overlap or empty range. -/
inductive Tiles : ℕ → List (ℕ × ℕ) → ℕ → Prop
  | nil (a : ℕ) : Tiles a [] a
  | cons {a b c : ℕ} {ranges : List (ℕ × ℕ)} (h : a < b) (hrest : Tiles b ranges c) :
      Tiles a ((a, b) :: ranges) c

variable {α : Type*} {a b c x : ℕ} {ranges : List (ℕ × ℕ)}

namespace Tiles

theorem le (h : Tiles a ranges b) : a ≤ b := by
  induction h with
  | nil a => exact le_rfl
  | cons h _ ih => omega

theorem concat (h : Tiles a ranges b) (hlt : b < c) : Tiles a (ranges ++ [(b, c)]) c := by
  induction h with
  | nil a => exact .cons hlt (.nil c)
  | cons hab _ ih => exact .cons hab (ih hlt)

theorem bounds (h : Tiles a ranges b) {r : ℕ × ℕ} (hr : r ∈ ranges) :
    a ≤ r.1 ∧ r.1 < r.2 ∧ r.2 ≤ b := by
  induction h with
  | nil a => simp at hr
  | cons hab hrest ih =>
    have hle := hrest.le
    rcases List.mem_cons.mp hr with rfl | hr
    · exact ⟨le_rfl, hab, hle⟩
    · obtain ⟨h₁, h₂, h₃⟩ := ih hr
      exact ⟨by omega, h₂, h₃⟩

/-- Each place is in exactly one of the ranges. -/
theorem existsUnique (h : Tiles a ranges b) (ha : a ≤ x) (hb : x < b) :
    ∃! r, r ∈ ranges ∧ r.1 ≤ x ∧ x < r.2 := by
  induction h with
  | nil a => omega
  | @cons a m b ranges hlt hrest ih =>
    rcases Nat.lt_or_ge x m with hx | hx
    · refine ⟨(a, m), ⟨List.mem_cons_self, ha, hx⟩, fun r ⟨hr, _, _⟩ => ?_⟩
      rcases List.mem_cons.mp hr with rfl | hr
      · rfl
      · have hbounds := hrest.bounds hr
        omega
    · obtain ⟨r, ⟨hr, hle, hxr⟩, hunique⟩ := ih hx hb
      refine ⟨r, ⟨List.mem_cons_of_mem _ hr, hle, hxr⟩, fun q ⟨hq, hqle, hqx⟩ => ?_⟩
      rcases List.mem_cons.mp hq with rfl | hq
      · dsimp only at hqx
        omega
      · exact hunique q ⟨hq, hqle, hqx⟩

end Tiles

/-- The part of a list in a range. -/
def slice (l : List α) (r : ℕ × ℕ) : List α := (l.take r.2).drop r.1

theorem slice_self (l : List α) : slice l (a, a) = [] :=
  List.drop_eq_nil_of_le (List.length_take_le ..)

theorem slice_append (l : List α) (hab : a ≤ b) (hbc : b ≤ c) :
    slice l (a, b) ++ slice l (b, c) = slice l (a, c) := by
  have hb : l.take b = (l.take c).take b := by rw [List.take_take, Nat.min_eq_left hbc]
  have hdrop : (l.take c).drop b = ((l.take c).drop a).drop (b - a) := by
    rw [List.drop_drop, Nat.add_sub_cancel' hab]
  simp only [slice]
  rw [hb, hdrop, List.drop_take, List.take_append_drop]

/-- The slice that reaches one place further. -/
theorem slice_succ {l : List α} {y : α} (hle : a ≤ b) (hy : l[b]? = some y) :
    slice l (a, b + 1) = slice l (a, b) ++ [y] := by
  rw [← slice_append l hle (Nat.le_succ b)]
  congr 1
  obtain ⟨hlt, rfl⟩ := List.getElem?_eq_some_iff.mp hy
  rw [slice, List.take_add_one, List.getElem?_eq_getElem hlt,
    List.drop_append_of_le_length (by simp; omega)]
  simp

/-! ## Folds -/

section Folds

variable {f : α → α → α} {e : α} (hassoc : ∀ a b c, f (f a b) c = f a (f b c))
  (hid : ∀ a, f a e = a)
include hassoc hid

/-- A fold that starts at `a` is `a` with the fold that starts at the identity. -/
theorem foldl_eq_apply (a : α) (l : List α) : l.foldl f a = f a (l.foldl f e) := by
  induction l using List.reverseRecOn with
  | nil => exact (hid a).symm
  | append_singleton l x ih => 
    simp only [List.foldl_append, List.foldl_cons, List.foldl_nil, ih, hassoc]

end Folds

end Cs241.Foundation
