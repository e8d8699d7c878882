import Mathlib.Data.List.TakeWhile

/-!
# Lists up to a delimiter

What is taken from a list up to the first occurrence of an element: all of it if the element
does not occur, and otherwise exactly the part in front.
-/
namespace Cs241.Foundation

variable {α : Type*} [DecidableEq α] {d : α} {xs : List α}

theorem takeWhile_ne_iff : xs.takeWhile (· ≠ d) = xs ↔ d ∉ xs := by
  rw [List.takeWhile_eq_self_iff]
  constructor
  · intro h hmem
    simpa using h d hmem
  · intro h x hx
    simpa using ne_of_mem_of_not_mem hx h

theorem dropWhile_ne (h : d ∉ xs) : xs.dropWhile (· ≠ d) = [] := by
  rw [List.dropWhile_eq_nil_iff]
  intro x hx
  simpa using ne_of_mem_of_not_mem hx h

theorem takeWhile_ne_cons (h : d ∉ xs) (ys : List α) :
    (xs ++ d :: ys).takeWhile (· ≠ d) = xs := by
  have hall : ∀ x ∈ xs, decide (x ≠ d) = true :=
    List.takeWhile_eq_self_iff.mp (takeWhile_ne_iff.mpr h)
  rw [List.takeWhile_append_of_pos hall]
  simp

theorem dropWhile_ne_cons (h : d ∉ xs) (ys : List α) :
    (xs ++ d :: ys).dropWhile (· ≠ d) = d :: ys := by
  have hall : ∀ x ∈ xs, decide (x ≠ d) = true := List.dropWhile_eq_nil_iff.mp (dropWhile_ne h)
  rw [List.dropWhile_append_of_pos hall]
  simp

/-- There is nothing to skip in front of a word. -/
theorem dropWhile_eq_word (hne : xs ≠ []) (h : d ∉ xs) (ys : List α) :
    (xs ++ ys).dropWhile (· = d) = xs ++ ys := by
  obtain ⟨x, xs, rfl⟩ := List.exists_cons_of_ne_nil hne
  have hx : x ≠ d := (List.ne_of_not_mem_cons h).symm
  exact List.dropWhile_cons_of_neg (by simpa using hx)

theorem not_mem_takeWhile_ne (d : α) (xs : List α) : d ∉ xs.takeWhile (· ≠ d) := by
  intro hmem
  simpa using List.mem_takeWhile_imp hmem

end Cs241.Foundation
