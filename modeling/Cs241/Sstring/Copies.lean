import Cs241.Foundation.Scatter
import Cs241.Foundation.ByteMemory
import Cs241.Vector.Refinement

/-!
# Strings and the strings of C

`cstr_to_sstring` pushes the characters of a string of C one by one into the vector of a
new string. `sstring_to_cstr` copies them back and ends the copy where `strlen` finds it to
end, so that it relies on what the memory held before.
-/
namespace Cs241.Sstring

open Foundation Cs241.Vector

/-- The callbacks for characters and for strings, which copy what they are given, and the contents
of fresh memory. -/
structure Callbacks where
  char : Vector.Env UInt8
  string : Vector.Env (List UInt8)
  char_copies : ∀ t x, char.copyConstructor t x = x
  string_copies : ∀ t x, string.copyConstructor t x = x

/-- A string of C, without its terminator. -/
structure CString where
  text : List UInt8
  zero_not_mem : 0 ∉ text

variable (env : Callbacks)

def sstringCreate : Vec UInt8 := vectorCreate env.char

/-- The loop of `cstr_to_sstring`, over what is left of the input. -/
def pushChars : Vec UInt8 → List UInt8 → Option (Vec UInt8)
  | sstr, [] => some sstr
  | sstr, c :: input =>
    (vectorPushBack env.char sstr c).bind fun sstr => pushChars sstr input

def cstrToSstring (input : CString) : Option (Vec UInt8) :=
  pushChars env (sstringCreate env) input.text

/-- `strlen` of what is in a buffer of `size` bytes; `none` if it reads on behind the buffer. -/
def strlen (size : ℕ) (cstr : Mem) : Option ℕ := (List.range size).find? fun i => cstr i = 0

/-- `for (; i < vector_size(input->string); i++) cstr[i] = vector_get(input->string, i)`, for `k`
rounds. -/
def copyChars (input : Vec UInt8) : ℕ → ℕ → Mem → Mem
  | 0, _, cstr => cstr
  | k + 1, i, cstr => copyChars input k (i + 1) (Function.update cstr i (input.array i))

/-- `sstring_to_cstr(input)`, where `malloc` provides a buffer that holds `fresh`; `none` if a byte
outside of the buffer is read. -/
def sstringToCstr (fresh : Mem) (input : Vec UInt8) : Option (List UInt8) :=
  let size := input.size + 1
  let cstr := copyChars input input.size 0 fresh
  (strlen size cstr).map fun len => gather (Function.update cstr len 0) id 0 size

/-! ## From a string of C -/

section Push

variable {env} {α : Type*} {e : Vector.Env α} {v v' : Vec α} {x : α}

theorem vectorPushBack_contents (hcopy : ∀ t x, e.copyConstructor t x = x)
    (hv : v.size ≤ v.capacity) (h : vectorPushBack e v x = some v') :
    contents v' = contents v ++ [x] ∧ v'.size ≤ v'.capacity := by
  obtain ⟨hsize, -, hroom, t, ht⟩ := vectorPushBack_spec hv h
  rw [hcopy] at ht
  exact ⟨ht, by omega⟩

theorem vectorPushBack_returns (e : Vector.Env α) (x : α) (hv : v.size + 1 < 2 ^ 60) :
    ∃ v', vectorPushBack e v x = some v' := by
  obtain ⟨u, hu, -⟩ := vectorResize_returns e v hv
  exact ⟨_, Option.map_eq_some_iff.mpr ⟨u, hu, rfl⟩⟩

theorem pushChars_contents {sstr sstr' : Vec UInt8} {input : List UInt8}
    (hv : sstr.size ≤ sstr.capacity) (h : pushChars env sstr input = some sstr') :
    contents sstr' = contents sstr ++ input ∧ sstr'.size ≤ sstr'.capacity := by
  induction input generalizing sstr with
  | nil =>
    obtain rfl := Option.some.inj h
    exact ⟨(List.append_nil _).symm, hv⟩
  | cons c input ih =>
    obtain ⟨u, hu, hrest⟩ := Option.bind_eq_some_iff.mp h
    obtain ⟨hcontents, hroom⟩ := vectorPushBack_contents env.char_copies hv hu
    obtain ⟨hall, hroom'⟩ := ih hroom hrest
    exact ⟨by rw [hall, hcontents, List.append_assoc, List.singleton_append], hroom'⟩

theorem pushChars_returns {sstr : Vec UInt8} {input : List UInt8}
    (hv : sstr.size ≤ sstr.capacity) (hsize : sstr.size + input.length < 2 ^ 60) :
    ∃ sstr', pushChars env sstr input = some sstr' := by
  induction input generalizing sstr with
  | nil => exact ⟨sstr, rfl⟩
  | cons c input ih =>
    rw [List.length_cons] at hsize
    obtain ⟨u, hu⟩ := vectorPushBack_returns env.char c (v := sstr) (by omega)
    obtain ⟨hu_size, -, hroom, -⟩ := vectorPushBack_spec hv hu
    obtain ⟨sstr', h⟩ := @ih u (by omega) (by omega)
    exact ⟨sstr', by rw [pushChars, hu]; exact h⟩

/-- The characters of the input, in order. -/
theorem cstrToSstring_contents {input : CString} {sstr : Vec UInt8}
    (h : cstrToSstring env input = some sstr) : contents sstr = input.text :=
  (pushChars_contents (Nat.zero_le _) h).1

theorem cstrToSstring_returns (env : Callbacks) {input : CString}
    (hsize : input.text.length < 2 ^ 60) : ∃ sstr, cstrToSstring env input = some sstr :=
  pushChars_returns (Nat.zero_le _) (by simpa [sstringCreate, vectorCreate] using hsize)

end Push

/-! ## To a string of C -/

section Copy

variable {input : Vec UInt8} {fresh cstr : Mem} {k i x : ℕ}

theorem copyChars_apply : copyChars input k i cstr x =
    if i ≤ x ∧ x < i + k then input.array x else cstr x := by
  induction k generalizing i cstr with
  | zero => rw [copyChars, if_neg (by omega)]
  | succ k ih =>
    rw [copyChars, ih]
    rcases eq_or_ne x i with rfl | hne
    · rw [if_neg (by omega), if_pos (by omega), Function.update_self]
    · rw [Function.update_of_ne hne]
      exact if_congr (by omega) rfl rfl

theorem array_ne_zero (hinput : 0 ∉ contents input) (hx : x < input.size) : input.array x ≠ 0 :=
  fun h => hinput (List.mem_map.mpr ⟨x, List.mem_range.mpr hx, h⟩)

/-- `strlen` finds no end before the byte behind the characters. -/
theorem strlen_copyChars (hinput : 0 ∉ contents input) :
    strlen (input.size + 1) (copyChars input input.size 0 fresh) =
      if fresh input.size = 0 then some input.size else none := by
  have hbyte : ∀ x < input.size, copyChars input input.size 0 fresh x ≠ 0 := by
    intro x hx
    rw [copyChars_apply, if_pos (by omega)]
    exact array_ne_zero hinput hx
  have hend : copyChars input input.size 0 fresh input.size = fresh input.size := by
    rw [copyChars_apply, if_neg (by omega)]
  rw [strlen, List.range_succ, List.find?_append, List.find?_eq_none.mpr (by simpa using hbyte)]
  split_ifs with h <;> simp [hend, h]

/-- The copy ends in the buffer exactly if the byte behind the characters was zero before. -/
theorem sstringToCstr_iff (fresh : Mem) (hinput : 0 ∉ contents input) :
    sstringToCstr fresh input = some (contents input ++ [0]) ↔ fresh input.size = 0 := by
  rw [sstringToCstr, strlen_copyChars hinput]
  split_ifs with hend
  · simp only [hend, iff_true]
    rw [Option.map_some, gather, List.range_succ, List.map_append]
    congr 2
    · refine List.map_congr_left fun x hx => ?_
      have hx := List.mem_range.mp hx
      rw [id, Nat.zero_add, Function.update_of_ne (by omega), copyChars_apply, if_pos (by omega)]
    · simp
  · simp [hend]

end Copy

/-! ## There and back -/

/-- The copy is the string exactly if the byte that `malloc` left for the terminator is zero. -/
theorem sstringToCstr_cstrToSstring (env : Callbacks) (fresh : Mem) (s : CString) :
    (∀ sstr, cstrToSstring env s = some sstr →
      (sstringToCstr fresh sstr = some (s.text ++ [0]) ↔ fresh s.text.length = 0)) ∧
    (s.text.length < 2 ^ 60 → ∃ sstr, cstrToSstring env s = some sstr) := by
  refine ⟨fun sstr h => ?_, cstrToSstring_returns env⟩
  have hcontents := cstrToSstring_contents h
  have hsize : sstr.size = s.text.length := by rw [← hcontents, length_contents]
  have hcopy := sstringToCstr_iff fresh (hcontents ▸ s.zero_not_mem)
  rwa [hcontents, hsize] at hcopy

/-- Callbacks that copy, on memory full of zeros. -/
def copying : Callbacks where
  char := { copyConstructor := fun _ x => x, defaultConstructor := fun _ => 0,
            fresh := fun _ _ => 0 }
  string := { copyConstructor := fun _ x => x, defaultConstructor := fun _ => [],
              fresh := fun _ _ => [] }
  char_copies := fun _ _ => rfl
  string_copies := fun _ _ => rfl

/-- A string of one character in memory full of zeros. -/
theorem sstringToCstr_cstrToSstring_one : ∃ sstr,
    cstrToSstring copying ⟨[97], by decide⟩ = some sstr ∧
      sstringToCstr (fun _ => 0) sstr = some [97, 0] := by
  obtain ⟨hcopy, hreturns⟩ := sstringToCstr_cstrToSstring copying (fun _ => 0) ⟨[97], by decide⟩
  obtain ⟨sstr, h⟩ := hreturns (by norm_num)
  exact ⟨sstr, h, (hcopy sstr h).mpr rfl⟩

/-- In memory full of ones the copy of the empty string has no end. -/
theorem sstringToCstr_empty : ∃ sstr, cstrToSstring copying ⟨[], List.not_mem_nil⟩ = some sstr ∧
    sstringToCstr (fun _ => 1) sstr = none :=
  ⟨_, rfl, by decide⟩

end Cs241.Sstring
