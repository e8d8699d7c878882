import Mathlib.Data.List.Basic
import Mathlib.Logic.Function.Basic

/-!
# Objects in memory

A store maps the address of each object to its values, as far as they are known. A memory
shows the store if every known value stands at its place; the objects are apart if no two of
them have an address in common.
-/
namespace Cs241.Foundation

variable {B : Type*}

/-- The objects by their addresses; an unknown value is `none`. -/
abbrev Objects (B : Type*) := ℕ → Option (List (Option B))

namespace Objects

/-- The values `known` are in memory from `p` on. -/
def Known (mem : ℕ → B) (p : ℕ) (known : List (Option B)) : Prop :=
  ∀ k b, known[k]? = some (some b) → mem (p + k) = b

def Shows (mem : ℕ → B) (s : Objects B) : Prop :=
  ∀ p known, s p = some known → Known mem p known

def Apart (s : Objects B) : Prop :=
  ∀ p q known known', s p = some known → s q = some known' → p ≠ q →
    p + known.length ≤ q ∨ q + known'.length ≤ p

/-- An object of another size: the values that fit stay known. -/
def resize (known : List (Option B)) (size : ℕ) : List (Option B) :=
  known.take size ++ List.replicate (size - known.length) none

variable {mem mem' : ℕ → B} {s : Objects B} {p q n k : ℕ} {b : B} {known : List (Option B)}

@[simp] theorem length_resize (known : List (Option B)) (size : ℕ) :
    (resize known size).length = size := by
  rw [resize, List.length_append, List.length_take, List.length_replicate]
  omega

theorem lt_of_known (h : known[k]? = some (some b)) : k < known.length :=
  (List.getElem?_eq_some_iff.mp h).1

/-- What is known of an object in its new size was known before, and is at one of its first
values. -/
theorem known_of_resize (h : (resize known n)[k]? = some (some b)) :
    known[k]? = some (some b) ∧ k < min known.length n := by
  by_cases hk : k < (known.take n).length
  · rw [resize, List.getElem?_append_left hk] at h
    rw [List.length_take] at hk
    rw [List.getElem?_take_of_lt (by omega)] at h
    exact ⟨h, by omega⟩
  · rw [resize, List.getElem?_append_right (by omega)] at h
    have hnone := List.eq_of_mem_replicate (List.mem_of_getElem? h)
    cases hnone

theorem known_unknown : Known mem p (List.replicate n none) := fun _ _ h => by
  cases List.eq_of_mem_replicate (List.mem_of_getElem? h)

theorem known_replicate (h : ∀ k < n, mem (p + k) = b) :
    Known mem p (List.replicate n (some b)) := by
  intro k b' hk
  have hlt := lt_of_known hk
  rw [List.length_replicate] at hlt
  obtain rfl := Option.some.inj (List.eq_of_mem_replicate (List.mem_of_getElem? hk))
  exact h k hlt

theorem Known.congr (h : Known mem p known)
    (heq : ∀ k < known.length, mem' (p + k) = mem (p + k)) : Known mem' p known := by
  intro k b hk
  rw [heq k (lt_of_known hk)]
  exact h k b hk

/-- One value of an object is written. -/
theorem Known.set (h : Known mem p known) (hwritten : mem' (p + n) = b)
    (heq : ∀ k < known.length, k ≠ n → mem' (p + k) = mem (p + k)) :
    Known mem' p (known.set n (some b)) := by
  intro k b' hk
  have hlt := lt_of_known hk
  rw [List.length_set] at hlt
  rcases eq_or_ne k n with rfl | hne
  · rw [List.getElem?_set_self hlt] at hk
    rw [hwritten]
    exact Option.some.inj (Option.some.inj hk)
  · rw [List.getElem?_set_ne hne.symm] at hk
    rw [heq k hlt hne]
    exact h k b' hk

/-- The values that an object keeps may be in another place. -/
theorem Known.resize (h : Known mem p known)
    (heq : ∀ k < min known.length n, mem' (q + k) = mem (p + k)) :
    Known mem' q (resize known n) := by
  intro k b hk
  obtain ⟨hold, hlt⟩ := known_of_resize hk
  rw [heq k hlt]
  exact h k b hold

theorem Shows.release (h : Shows mem s) (p : ℕ) : Shows mem (Function.update s p none) := by
  intro q known hq
  rcases eq_or_ne q p with rfl | hne
  · simp at hq
  · exact h q known (by simpa [hne] using hq)

/-- An object is new, or has new values; the others keep theirs. -/
theorem Shows.update (h : Shows mem s) (hknown : Known mem' p known)
    (heq : ∀ q old, s q = some old → q ≠ p → ∀ k < old.length, mem' (q + k) = mem (q + k)) :
    Shows mem' (Function.update s p (some known)) := by
  intro q values hq
  rcases eq_or_ne q p with rfl | hne
  · obtain rfl : known = values := by simpa using hq
    exact hknown
  · have hold : s q = some values := by simpa [hne] using hq
    exact (h q values hold).congr (heq q values hold hne)

end Objects

end Cs241.Foundation
