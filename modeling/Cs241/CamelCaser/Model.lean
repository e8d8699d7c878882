import Mathlib.Algebra.Order.Ring.Int
import Cs241.Foundation.Ctype
import Cs241.Foundation.Integers

/-!
# `extreme_edge_cases/camelCaser.c`

One pass over the input collects the sentences, each in a buffer that doubles when
it is full, in an array that doubles when it is full. Lengths and the position in the
input are of type `int`, whose overflow is undefined. Every access to an array is
checked against its current length, so that the model stops where the program would
leave an array. `malloc`, `calloc` and `realloc` succeed.
-/
namespace Cs241.CamelCaser

open Ctype Foundation

/-- A string of C, without its terminator. -/
structure CString where
  data : List UInt8
  nonzero : ∀ c ∈ data, c ≠ 0

/-! ## Arithmetic and arrays -/

/-- Why the model stops: an index is outside its array, a value is outside `int`, or a loop took
more rounds than it was given. -/
inductive Fault
  | index
  | overflow
  | fuel
deriving DecidableEq

def int (x : ℤ) : Except Fault ℤ :=
  if -2 ^ 31 ≤ x ∧ x < 2 ^ 31 then .ok x else .error .overflow

/-- An array that is filled from the front, and its length. -/
structure Buffer (α : Type) where
  data : List α
  len : ℤ

namespace Buffer

variable {α : Type}

/-- Ten elements to begin with. -/
def empty : Buffer α := { data := [], len := 10 }

/-- `array[spot++] = x` -/
def push (b : Buffer α) (x : α) : Except Fault (Buffer α) :=
  if (b.data.length : ℤ) < b.len then .ok { b with data := b.data ++ [x] } else .error .index

/-- A full array is doubled. -/
def grow (b : Buffer α) : Except Fault (Buffer α) := do
  if (b.data.length : ℤ) = b.len then
    let len ← int (b.len * 2)
    .ok { b with len := len }
  else .ok b

end Buffer

section Pass

-- `input_str` and `input_len`
variable (input : CString) (len : ℤ)

/-- `input_str[i]`; the terminator is part of the array. -/
def charAt (i : ℤ) : Except Fault UInt8 :=
  if 0 ≤ i ∧ i ≤ input.data.length then .ok (input.data.getD i.toNat 0) else .error .index

/-- The variables of the loop over one sentence. -/
structure Scan where
  i : ℤ
  word : Buffer UInt8
  upper : Bool
  alpha : Bool

def skipSpaces : ℕ → ℤ → Except Fault ℤ
  | 0, _ => .error .fuel
  | fuel + 1, i => do
    if i < len then
      let c ← charAt input i
      if isSpace c then
        let i ← int (i + 1)
        skipSpaces fuel i
      else .ok i
    else .ok i

/-- The rest of the round for a character that is copied, a letter as `upper` says. -/
def Scan.copy (s : Scan) (c : UInt8) : Except Fault Scan := do
  let (x, upper) :=
    if isAlpha c then (if s.upper then (toUpper c, false) else (toLower c, s.upper))
    else (c, s.upper)
  let word ← s.word.push x
  let word ← word.grow
  let i ← int (s.i + 1)
  .ok { i := i, word := word, upper := upper, alpha := true }

/-- The loop over one sentence. -/
def scan : ℕ → Scan → Except Fault Scan
  | 0, _ => .error .fuel
  | fuel + 1, s => do
    if s.i < len then
      let c ← charAt input s.i
      if isPunct c then .ok s
      else if isSpace c then
        let i ← skipSpaces input len (fuel + 1) s.i
        scan fuel { s with i := i, upper := s.alpha || s.upper }
      else
        let s ← s.copy c
        scan fuel s
    else .ok s

/-- The loop over the input. A sentence in `camel` is the buffer it is in; `NULL` is `none`. -/
def sentences : ℕ → ℤ → Buffer (Option (List UInt8)) → Except Fault (Buffer (Option (List UInt8)))
  | 0, _, _ => .error .fuel
  | fuel + 1, i, camel => do
    if i < len then
      let s ← scan input len (input.data.length + 1)
        { i := i, word := .empty, upper := false, alpha := false }
      let word ← s.word.push 0
      let camel ← camel.push (some word.data)
      let camel ← camel.grow
      let i ← int (s.i + 1)
      sentences fuel i camel
    else .ok camel

/-- A last sentence that no punctuation ends is taken back. -/
def dropTail (c : UInt8) (camel : List (Option (List UInt8))) :
    Except Fault (List (Option (List UInt8))) :=
  if isPunct c then .ok camel
  else if 2 ≤ camel.length then .ok (camel.set (camel.length - 2) none)
  else .error .index

/-- `camel_caser(input_str)`: the array it returns. Each round of a loop moves on in the input, so
that no loop takes more rounds than there are characters, and one. -/
def camelCaser : Except Fault (List (Option (List UInt8))) := do
  let len := toInt input.data.length
  let camel ← sentences input len (input.data.length + 1) 0 .empty
  let camel ← camel.push none
  let last ← int (len - 1)
  let c ← charAt input last
  dropTail c camel.data

end Pass

/-! ## What the caller sees -/

/-- The strings of an array that ends with `NULL`. -/
def strings : List (Option (List UInt8)) → List (List UInt8)
  | some word :: rest => (word.takeWhile fun c => c ≠ 0) :: strings rest
  | _ => []

/-- The words of a text. -/
def words (text : List UInt8) : List (List UInt8) := (text.splitOnP isSpace).filter fun w => w ≠ []

/-- The first letter in upper case and the others in lower case. -/
def capitalize : List UInt8 → List UInt8
  | [] => []
  | c :: cs => if isAlpha c then toUpper c :: cs.map toLower else c :: capitalize cs

def joinWords : List (List UInt8) → List UInt8
  | [] => []
  | w :: ws => w.map toLower ++ ws.flatMap capitalize

/-- The texts that a punctuation character ends. -/
def sentenceTexts (input : List UInt8) : List (List UInt8) := (input.splitOnP isPunct).dropLast

/-- The sentences in camel case. -/
def camelCase (input : List UInt8) : List (List UInt8) :=
  (sentenceTexts input).map fun text => joinWords (words text)

end Cs241.CamelCaser
