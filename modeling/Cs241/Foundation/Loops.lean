import Mathlib.Data.Nat.Basic
import Mathlib.Order.Basic

/-!
# Loops that need not end

A `while` loop as the function that performs one round. The rounds are counted, so that a loop can
be run; it ends if some number of rounds is enough. A measure that every round lowers makes it end,
and an invariant under which no round is the last keeps it from ending.
-/
namespace Cs241.Foundation

variable {σ ρ : Type*}

/-- What a round comes to: the loop is left with a result, or goes on, or the body does not
return. -/
inductive Round (σ ρ : Type*)
  | exit (r : ρ)
  | next (s : σ)
  | stuck

/-- The result of a loop that is left after at most the given number of rounds. -/
def iterate (round : σ → Round σ ρ) : ℕ → σ → Option ρ
  | 0, _ => none
  | fuel + 1, s =>
    match round s with
    | .exit r => some r
    | .next s' => iterate round fuel s'
    | .stuck => none

/-- From `s` the loop ends, with the result `r`. -/
def Ends (round : σ → Round σ ρ) (s : σ) (r : ρ) : Prop := ∃ fuel, iterate round fuel s = some r

variable {round : σ → Round σ ρ} {s s' : σ} {r r' : ρ} {fuel : ℕ}

theorem iterate_exit (h : round s = .exit r) : iterate round (fuel + 1) s = some r := by
  rw [iterate, h]

theorem iterate_next (h : round s = .next s') :
    iterate round (fuel + 1) s = iterate round fuel s' := by
  rw [iterate, h]

theorem iterate_stuck (h : round s = .stuck) : iterate round fuel s = none := by
  cases fuel with
  | zero => rfl
  | succ fuel => rw [iterate, h]

/-- More rounds make no difference. -/
theorem iterate_mono (h : iterate round fuel s = some r) {more : ℕ} (hle : fuel ≤ more) :
    iterate round more s = some r := by
  induction fuel generalizing s more with
  | zero => simp [iterate] at h
  | succ fuel ih =>
    obtain ⟨more, rfl⟩ := Nat.exists_eq_succ_of_ne_zero (n := more) (by omega)
    cases hround : round s with
    | exit r' => rwa [iterate_exit hround] at h ⊢
    | next s' =>
      rw [iterate_next hround] at h ⊢
      exact ih h (by omega)
    | stuck => simp [iterate_stuck hround] at h

namespace Ends

theorem exit (h : round s = .exit r) : Ends round s r := ⟨1, iterate_exit h⟩

theorem next (h : round s = .next s') (h' : Ends round s' r) : Ends round s r := by
  obtain ⟨fuel, h'⟩ := h'
  exact ⟨fuel + 1, (iterate_next h).trans h'⟩

theorem unique (h : Ends round s r) (h' : Ends round s r') : r = r' := by
  obtain ⟨fuel, h⟩ := h
  obtain ⟨fuel', h'⟩ := h'
  have hr := iterate_mono h (Nat.le_max_left fuel fuel')
  exact Option.some.inj (hr.symm.trans (iterate_mono h' (Nat.le_max_right fuel fuel')))

/-- Partial correctness: an invariant holds where the loop is left. -/
theorem invariant {I : σ → Prop} (h : Ends round s r) (h₀ : I s)
    (hnext : ∀ s s', I s → round s = .next s' → I s') : ∃ t, I t ∧ round t = .exit r := by
  obtain ⟨fuel, h⟩ := h
  induction fuel generalizing s with
  | zero => simp [iterate] at h
  | succ fuel ih =>
    cases hround : round s with
    | exit r' =>
      rw [iterate_exit hround] at h
      exact ⟨s, h₀, Option.some.inj h ▸ hround⟩
    | next s' =>
      rw [iterate_next hround] at h
      exact ih (hnext s s' h₀ hround) h
    | stuck => simp [iterate_stuck hround] at h

/-- Total correctness: an invariant under which every round is the last or lowers the measure. -/
theorem of_measure {I : σ → Prop} (measure : σ → ℕ)
    (hround : ∀ s, I s → (∃ r, round s = .exit r) ∨
      ∃ s', round s = .next s' ∧ I s' ∧ measure s' < measure s)
    (h : I s) : ∃ t r, Ends round s r ∧ I t ∧ round t = .exit r := by
  induction hm : measure s using Nat.strong_induction_on generalizing s with
  | h m ih =>
    rcases hround s h with ⟨r, hexit⟩ | ⟨s', hnext, hI, hlt⟩
    · exact ⟨s, r, .exit hexit, h, hexit⟩
    · obtain ⟨t, r, ht, hrest⟩ := ih (measure s') (hm ▸ hlt) hI rfl
      exact ⟨t, r, .next hnext ht, hrest⟩

/-- A loop whose invariant excludes a last round does not end. -/
theorem not_of_invariant {I : σ → Prop}
    (hround : ∀ s, I s → round s = .stuck ∨ ∃ s', round s = .next s' ∧ I s')
    (h : I s) : ¬ Ends round s r := by
  intro hends
  have hinv : ∀ s s', I s → round s = .next s' → I s' := by
    intro s s' hs hnext
    rcases hround s hs with hstuck | ⟨t, ht, hI⟩
    · exact absurd (hstuck.symm.trans hnext) (by simp)
    · exact Round.next.inj (ht.symm.trans hnext) ▸ hI
  obtain ⟨t, ht, hexit⟩ := hends.invariant h hinv
  rcases hround t ht with hstuck | ⟨u, hu, -⟩
  · exact absurd (hstuck.symm.trans hexit) (by simp)
  · exact absurd (hu.symm.trans hexit) (by simp)

end Ends

end Cs241.Foundation
