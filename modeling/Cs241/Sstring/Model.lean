import Mathlib.Data.UInt

/-!
# Strings of `vector/sstring.c`

A string is a vector of characters. `sstring_to_cstr` is taken to give its characters
back, as a string of C.
-/
namespace Cs241.Sstring

/-- The loop of `sstring_split`, where `sstr` collects the current piece. -/
def splitLoop (delimiter : UInt8) : List UInt8 → List UInt8 → List (List UInt8)
  | sstr, [] => [sstr]
  | sstr, c :: this =>
    if c = delimiter then sstr :: splitLoop delimiter [] this
    else splitLoop delimiter (sstr ++ [c]) this

/-- `sstring_split(this, delimiter)` -/
def split (this : List UInt8) (delimiter : UInt8) : List (List UInt8) :=
  splitLoop delimiter [] this

theorem splitLoop_ne_nil {delimiter : UInt8} {sstr this : List UInt8} :
    splitLoop delimiter sstr this ≠ [] := by
  induction this generalizing sstr with
  | nil => exact List.cons_ne_nil _ _
  | cons c this ih =>
    rw [splitLoop]
    split_ifs
    · exact List.cons_ne_nil _ _
    · exact ih

theorem split_ne_nil {this : List UInt8} {delimiter : UInt8} : split this delimiter ≠ [] :=
  splitLoop_ne_nil

end Cs241.Sstring
