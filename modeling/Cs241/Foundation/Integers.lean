import Mathlib.Algebra.Order.Ring.Int
import Mathlib.Tactic.NormNum

/-!
# Conversions between integer types

What becomes of a value that is converted to a type of 32 or 64 bits. A value of the
type stays as it is.
-/
namespace Cs241.Foundation

/-- A value as an `int`. -/
def toInt (x : ℤ) : ℤ := Int.bmod x (2 ^ 32)

/-- A value as a `ssize_t`. -/
def toSsize (x : ℤ) : ℤ := Int.bmod x (2 ^ 64)

/-- A value as a `size_t`. -/
def toSize (x : ℤ) : ℕ := (x % 2 ^ 64).toNat

section Conversions

variable {x : ℤ}

theorem bmod_of_lt {m : ℕ} (h₀ : 0 ≤ x) (h : 2 * x < m) : Int.bmod x m = x :=
  Int.bmod_eq_of_le (by omega) (by omega)

theorem toInt_of_lt (h₀ : 0 ≤ x) (h : x < 2 ^ 31) : toInt x = x := by
  unfold toInt
  obtain ⟨m, hm⟩ : ∃ m : ℕ, m = 2 ^ 32 := ⟨_, rfl⟩
  rw [← hm]
  exact bmod_of_lt h₀ (by omega)

theorem toSsize_of_lt (h₀ : 0 ≤ x) (h : x < 2 ^ 63) : toSsize x = x := by
  unfold toSsize
  obtain ⟨m, hm⟩ : ∃ m : ℕ, m = 2 ^ 64 := ⟨_, rfl⟩
  rw [← hm]
  exact bmod_of_lt h₀ (by omega)

/-- A `size_t` as a `ssize_t`: the upper half is negative. -/
theorem toSsize_eq_ite {n : ℕ} (h : n < 2 ^ 64) :
    toSsize n = if n < 2 ^ 63 then (n : ℤ) else n - 2 ^ 64 := by
  split_ifs with hlt
  · exact toSsize_of_lt (Int.natCast_nonneg n) (by exact_mod_cast hlt)
  · unfold toSsize
    rw [show (2 : ℤ) ^ 64 = ((2 ^ 64 : ℕ) : ℤ) by norm_num]
    obtain ⟨m, hm⟩ : ∃ m : ℕ, m = 2 ^ 64 := ⟨_, rfl⟩
    rw [← hm] at h ⊢
    rw [Int.bmod_def, Int.emod_eq_of_lt (by omega) (by omega), if_neg (by omega)]

theorem toSsize_natCast {n : ℕ} (h : n < 2 ^ 63) : toSsize n = n := by
  rw [toSsize_eq_ite (by omega), if_pos h]

theorem toSsize_pos_iff {n : ℕ} (h : n < 2 ^ 64) : 0 < toSsize n ↔ 0 < n ∧ n < 2 ^ 63 := by
  rw [toSsize_eq_ite h]
  split_ifs <;> omega

theorem toSsize_eq_neg_one_iff {n : ℕ} (h : n < 2 ^ 64) : toSsize n = -1 ↔ n = 2 ^ 64 - 1 := by
  rw [toSsize_eq_ite h]
  by_cases hlt : n < 2 ^ 63
  · rw [if_pos hlt]
    omega
  · rw [if_neg hlt]
    omega

theorem toSize_of_lt {n : ℕ} (h : n < 2 ^ 64) : toSize n = n := by
  unfold toSize
  rw [Int.emod_eq_of_lt (by omega) (by omega), Int.toNat_natCast]

theorem toInt_range (x : ℤ) : -2 ^ 31 ≤ toInt x ∧ toInt x < 2 ^ 31 := by
  unfold toInt
  obtain ⟨m, hm⟩ : ∃ m : ℕ, m = 2 ^ 32 := ⟨_, rfl⟩
  rw [← hm]
  have hpos : 0 < m := by omega
  have hlower := Int.le_bmod (x := x) hpos
  have hupper := Int.bmod_lt (x := x) hpos
  omega

theorem toInt_le (h₀ : 0 ≤ x) : toInt x ≤ x := by
  unfold toInt
  obtain ⟨m, hm⟩ : ∃ m : ℕ, m = 2 ^ 32 := ⟨_, rfl⟩
  rw [← hm, Int.bmod_def]
  lift x to ℕ using h₀
  have hmod : (x : ℤ) % m ≤ x := by exact_mod_cast Nat.mod_le _ _
  split_ifs
  · exact hmod
  · exact (Int.sub_le_self _ (by omega)).trans hmod

/-- Sums wrap around once, however often they are cut to an `int` on the way. -/
theorem toInt_toInt_add_toInt (x y : ℤ) : toInt (toInt x + toInt y) = toInt (x + y) := by
  unfold toInt
  rw [Int.bmod_add_bmod, Int.add_bmod_bmod]

theorem toInt_eq_zero_iff : toInt x = 0 ↔ 2 ^ 32 ∣ x := by
  unfold toInt
  obtain ⟨m, hm⟩ : ∃ m : ℕ, m = 2 ^ 32 := ⟨_, rfl⟩
  rw [← hm, ← Int.dvd_iff_bmod_eq_zero, hm]
  norm_num

/-- A count in 64 bits has the same lower half as one without a bound. -/
theorem toInt_emod (x : ℤ) : toInt (x % 2 ^ 64) = toInt x := by
  unfold toInt
  have hmod : x % 2 ^ 64 % (2 ^ 32 : ℕ) = x % (2 ^ 32 : ℕ) :=
    Int.emod_emod_of_dvd x ⟨2 ^ 32, by norm_num⟩
  rw [Int.bmod_def, Int.bmod_def, hmod]

end Conversions

end Cs241.Foundation
