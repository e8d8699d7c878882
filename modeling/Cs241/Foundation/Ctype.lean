import Mathlib.Data.UInt

/-!
# Characters of the C locale

The classes of `ctype.h` that the programs use. Bytes outside of ASCII are in none of
them.
-/
namespace Cs241.Ctype

def isPunct (c : UInt8) : Bool :=
  (33 ≤ c && c ≤ 47) || (58 ≤ c && c ≤ 64) || (91 ≤ c && c ≤ 96) || (123 ≤ c && c ≤ 126)

def isSpace (c : UInt8) : Bool := c == 32 || (9 ≤ c && c ≤ 13)

def isDigit (c : UInt8) : Bool := 48 ≤ c && c ≤ 57

def isUpper (c : UInt8) : Bool := 65 ≤ c && c ≤ 90

def isLower (c : UInt8) : Bool := 97 ≤ c && c ≤ 122

def isAlpha (c : UInt8) : Bool := isUpper c || isLower c

def toUpper (c : UInt8) : UInt8 := if isLower c then c - 32 else c

def toLower (c : UInt8) : UInt8 := if isUpper c then c + 32 else c

theorem isPunct_of_isSpace {c : UInt8} (h : isSpace c = true) : isPunct c = false := by
  simp only [isSpace, isPunct, Bool.or_eq_true, Bool.and_eq_true, beq_iff_eq, decide_eq_true_eq,
    UInt8.le_iff_toNat_le, ← UInt8.toNat_inj, Bool.or_eq_false_iff, Bool.and_eq_false_iff,
    decide_eq_false_iff_not] at h ⊢
  simp only [UInt8.reduceToNat] at h ⊢
  have hle : c.toNat ≤ 32 := by omega
  exact ⟨⟨⟨.inl (by omega), .inl (by omega)⟩, .inl (by omega)⟩, .inl (by omega)⟩

theorem toLower_of_not_isAlpha {c : UInt8} (h : ¬ isAlpha c = true) : toLower c = c := by
  unfold isAlpha at h
  rw [toLower, if_neg (fun hu => h (by simp [hu]))]

end Cs241.Ctype
