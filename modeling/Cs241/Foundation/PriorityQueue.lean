import Mathlib.Data.List.Perm.Basic
import Mathlib.Algebra.Order.Ring.Int

/-!
# Priority queues over comparison functions

A comparison function in the C style answers with the sign of an integer. A
priority queue is a list that is kept in the order of such a function: an
element is offered in front of those that compare greater, and the front is
polled. Elements that compare equal leave in the order in which they came.
-/
namespace Cs241.Foundation

variable {α β : Type*}

/-- Compare by `key`, the larger one being greater, and break ties with `tie`. -/
def compareBy [LinearOrder β] (key : α → β) (tie : α → α → ℤ) (a b : α) : ℤ :=
  if key a > key b then 1 else if key b > key a then -1 else tie a b

/-- Not to compare greater is a total preorder. -/
structure Consistent (cmp : α → α → ℤ) : Prop where
  trans : ∀ {a b c}, ¬ 0 < cmp a b → ¬ 0 < cmp b c → ¬ 0 < cmp a c
  total : ∀ {a b}, 0 < cmp a b → ¬ 0 < cmp b a

section CompareBy

variable [LinearOrder β] {key : α → β} {tie : α → α → ℤ} {a b : α}

theorem compareBy_pos :
    0 < compareBy key tie a b ↔ key b < key a ∨ key a = key b ∧ 0 < tie a b := by
  rcases lt_trichotomy (key a) (key b) with h | h | h
  · simp [compareBy, h, h.not_gt, h.ne]
  · simp [compareBy, h]
  · simp [compareBy, h]

theorem Consistent.compareBy (htie : Consistent tie) : Consistent (compareBy key tie) where
  trans := by
    intro a b c hab hbc hac
    rw [compareBy_pos, not_or, not_lt, not_and] at hab hbc
    obtain ⟨hab, hab'⟩ := hab
    obtain ⟨hbc, hbc'⟩ := hbc
    rcases compareBy_pos.mp hac with hlt | ⟨heq, hpos⟩
    · exact absurd (hab.trans hbc) (not_le.mpr hlt)
    · have hba : key a = key b := le_antisymm hab (heq ▸ hbc)
      exact htie.trans (hab' hba) (hbc' (hba.symm.trans heq)) hpos
  total := by
    intro a b hab hba
    rcases compareBy_pos.mp hab with hlt | ⟨heq, hpos⟩
    · rcases compareBy_pos.mp hba with hlt' | ⟨heq', -⟩
      · exact absurd hlt' hlt.not_gt
      · exact hlt.ne heq'
    · rcases compareBy_pos.mp hba with hlt' | ⟨-, hpos'⟩
      · exact hlt'.ne heq
      · exact htie.total hpos hpos'

theorem consistent_equal : Consistent fun _ _ : α => 0 :=
  ⟨fun h _ => h, fun h => absurd h (lt_irrefl 0)⟩

end CompareBy

/-- A priority queue: `offer` puts an element behind those that do not compare greater and in
front of those that do, `poll` takes the front. -/
structure Priqueue (α : Type*) where
  offer : (α → α → ℤ) → List α → α → List α
  poll : List α → Option (α × List α)
  offer_spec : ∀ {cmp x pre post}, (∀ y ∈ pre, ¬ 0 < cmp y x) → (∀ y ∈ post, 0 < cmp y x) →
    offer cmp (pre ++ post) x = pre ++ x :: post
  poll_nil : poll [] = none
  poll_cons : ∀ x q, poll (x :: q) = some (x, q)

variable {cmp : α → α → ℤ} {P : Priqueue α} {q : List α} {x : α}

/-- In the order of the comparison function. -/
def InOrder (cmp : α → α → ℤ) (q : List α) : Prop := q.Pairwise fun a b => ¬ 0 < cmp a b

theorem InOrder.congr {cmp' : α → α → ℤ} (h : InOrder cmp q)
    (heq : ∀ a ∈ q, ∀ b ∈ q, cmp' a b = cmp a b) : InOrder cmp' q :=
  List.Pairwise.imp_of_mem (fun ha hb hab => heq _ ha _ hb ▸ hab) h

/-- A queue in order splits around any element. -/
theorem InOrder.split (hcmp : Consistent cmp) (h : InOrder cmp q) (x : α) :
    ∃ pre post, q = pre ++ post ∧ (∀ y ∈ pre, ¬ 0 < cmp y x) ∧ ∀ y ∈ post, 0 < cmp y x := by
  induction q with
  | nil => exact ⟨[], [], rfl, by simp, by simp⟩
  | cons y q ih =>
    obtain ⟨hy, hq⟩ := List.pairwise_cons.mp h
    by_cases hpos : 0 < cmp y x
    · refine ⟨[], y :: q, rfl, by simp, fun z hz => ?_⟩
      rcases List.mem_cons.mp hz with rfl | hz
      · exact hpos
      · by_contra hzx
        exact hcmp.trans (hy z hz) hzx hpos
    · obtain ⟨pre, post, rfl, hpre, hpost⟩ := ih hq
      refine ⟨y :: pre, post, rfl, fun z hz => ?_, hpost⟩
      rcases List.mem_cons.mp hz with rfl | hz
      · exact hpos
      · exact hpre z hz

/-- An element that nothing is greater than goes to the end. -/
theorem Priqueue.offer_eq_append (h : ∀ y ∈ q, ¬ 0 < cmp y x) : P.offer cmp q x = q ++ [x] := by
  have hspec := @Priqueue.offer_spec α P cmp x q [] h fun y hy => absurd hy List.not_mem_nil
  rwa [List.append_nil] at hspec

/-- An offer keeps the order and adds the element. -/
theorem InOrder.offer (hcmp : Consistent cmp) (h : InOrder cmp q) (x : α) :
    InOrder cmp (P.offer cmp q x) ∧ (P.offer cmp q x).Perm (x :: q) := by
  obtain ⟨pre, post, rfl, hpre, hpost⟩ := h.split hcmp x
  rw [P.offer_spec hpre hpost]
  refine ⟨?_, List.perm_middle⟩
  obtain ⟨hp, hq, hpq⟩ := List.pairwise_append.mp h
  refine List.pairwise_append.mpr ⟨hp, List.pairwise_cons.mpr ⟨fun y hy => ?_, hq⟩, ?_⟩
  · exact hcmp.total (hpost y hy)
  · intro a ha b hb
    rcases List.mem_cons.mp hb with rfl | hb
    · exact hpre a ha
    · exact hpq a ha b hb

/-- An offer leaves the others as they stand. -/
theorem InOrder.sublist_offer (hcmp : Consistent cmp) (h : InOrder cmp q) (x : α) :
    q.Sublist (P.offer cmp q x) := by
  obtain ⟨pre, post, rfl, hpre, hpost⟩ := h.split hcmp x
  rw [P.offer_spec hpre hpost]
  exact (List.sublist_cons_self x post).append_left pre

/-- The front of a queue in order is least. -/
theorem InOrder.head_least (hcmp : Consistent cmp) (h : InOrder cmp (x :: q)) :
    ∀ y ∈ x :: q, ¬ 0 < cmp x y := by
  intro y hy
  rcases List.mem_cons.mp hy with rfl | hy
  · exact fun hpos => hcmp.total hpos hpos
  · exact (List.pairwise_cons.mp h).1 y hy

/-- The priority queue that looks for the first greater element. -/
def Priqueue.insertion : Priqueue α where
  offer cmp q x := q.takeWhile (fun y => ¬ 0 < cmp y x) ++ x :: q.dropWhile fun y => ¬ 0 < cmp y x
  poll q := q.head?.map fun x => (x, q.tail)
  offer_spec := by
    intro cmp x pre post hpre hpost
    have htake : post.takeWhile (fun y => ¬ 0 < cmp y x) = [] ∧
        post.dropWhile (fun y => ¬ 0 < cmp y x) = post := by
      cases post with
      | nil => exact ⟨rfl, rfl⟩
      | cons y post => simp [hpost y List.mem_cons_self]
    rw [List.takeWhile_append_of_pos (by simpa using hpre),
      List.dropWhile_append_of_pos (by simpa using hpre), htake.1, htake.2, List.append_nil]
  poll_nil := rfl
  poll_cons _ _ := rfl

end Cs241.Foundation
