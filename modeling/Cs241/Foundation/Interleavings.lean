import Mathlib.Data.List.Basic

/-!
# Interleavings

Several writers share one stream. A log of who wrote what in which order
determines the stream and what each of them wrote; a list is an interleaving of
others when such a log exists.
-/
namespace Cs241.Foundation

variable {ι α : Type*} [DecidableEq ι]

/-- What `i` wrote, by the log. -/
def written (log : List (ι × α)) (i : ι) : List α :=
  (log.filter fun e => e.1 = i).map Prod.snd

/-- `w` has the elements of all lists `l i`, those of each list in their order. -/
def Interleaving (l : ι → List α) (w : List α) : Prop :=
  ∃ log : List (ι × α), log.map Prod.snd = w ∧ ∀ i, written log i = l i

variable {l : ι → List α} {w : List α} {i : ι}

@[simp] theorem written_nil (i : ι) : written ([] : List (ι × α)) i = [] := rfl

theorem written_append (log log' : List (ι × α)) (i : ι) :
    written (log ++ log') i = written log i ++ written log' i := by
  simp [written]

/-- A block of elements written by `i`. -/
theorem written_block (as : List α) (i j : ι) :
    written (as.map fun a => (i, a)) j = if i = j then as else [] := by
  induction as with
  | nil => simp
  | cons a as ih =>
    rw [List.map_cons, ← List.singleton_append, written_append, ih]
    split_ifs with h <;> simp [written, h]

theorem Interleaving.nil (h : ∀ i, l i = []) : Interleaving l ([] : List α) :=
  ⟨[], rfl, fun i => (h i).symm⟩

theorem Interleaving.congr {l' : ι → List α} (h : Interleaving l w) (heq : ∀ i, l' i = l i) :
    Interleaving l' w := by
  obtain ⟨log, hw, hl⟩ := h
  exact ⟨log, hw, fun i => (hl i).trans (heq i).symm⟩

/-- The next elements of the stream come from one of the writers. -/
theorem Interleaving.append {l' : ι → List α} {as : List α} (h : Interleaving l w)
    (hi : l' i = l i ++ as) (hl' : ∀ j, j ≠ i → l' j = l j) : Interleaving l' (w ++ as) := by
  obtain ⟨log, rfl, hl⟩ := h
  refine ⟨log ++ as.map fun a => (i, a), by simp [Function.comp_def], fun j => ?_⟩
  rw [written_append, written_block, hl]
  by_cases hj : i = j
  · subst hj
    rw [if_pos rfl, hi]
  · rw [if_neg hj, List.append_nil, hl' j (Ne.symm hj)]

/-- Every writer's list is in the stream in its order. -/
theorem Interleaving.sublist (h : Interleaving l w) (i : ι) : (l i).Sublist w := by
  obtain ⟨log, rfl, hl⟩ := h
  rw [← hl i]
  exact List.filter_sublist.map Prod.snd

end Cs241.Foundation
