import Cs241.Foundation.Integers
import Cs241.Foundation.Loops
import Cs241.Sstring.Copies

/-!
# Appending a string to a string

`sstring_append` asks for the size of its second argument in every round. When both handles name
one string, that size grows with every round, and the loop ends only if there is no first round.
-/
namespace Cs241.Sstring

open Foundation Cs241.Vector

/-- The strings that exist: a handle is the address of a record with the address of a vector, and
no two records share one. -/
structure Store where
  string : ℕ → ℕ
  vectors : ℕ → Vec UInt8
  string_injective : Function.Injective string
  room : ∀ p, (vectors p).size ≤ (vectors p).capacity

namespace Store

variable (s : Store)

/-- The vector `handle->string`. -/
def vector (handle : ℕ) : Vec UInt8 := s.vectors (s.string handle)

def text (handle : ℕ) : List UInt8 := contents (s.vector handle)

def setVector (handle : ℕ) (v : Vec UInt8) (hv : v.size ≤ v.capacity) : Store :=
  { s with
    vectors := Function.update s.vectors (s.string handle) v
    room := fun p => by
      rcases eq_or_ne p (s.string handle) with rfl | hne
      · simpa using hv
      · simpa [hne] using s.room p }

/-- `vector_push_back(handle->string, element)`. -/
def pushBack (env : Callbacks) (handle : ℕ) (element : UInt8) : Option Store :=
  match h : vectorPushBack env.char (s.vector handle) element with
  | none => none
  | some v =>
    some (s.setVector handle v (vectorPushBack_contents env.char_copies (s.room _) h).2)

end Store

variable (env : Callbacks) (this addition : ℕ)

/-- `for (; i < vector_size(addition->string); i++) vector_push_back(this->string, …)`, one round. -/
def appendRound : Store × ℕ → Round (Store × ℕ) Store
  | (s, i) =>
    if i < (s.vector addition).size then
      match s.pushBack env this ((s.vector addition).array i) with
      | none => .stuck
      | some t => .next (t, i + 1)
    else .exit s

/-- `sstring_append(this, addition)`, which returns `vector_size(this->string)` as an `int`. -/
def sstringAppend (fuel : ℕ) (s : Store) : Option (Store × ℤ) :=
  (iterate (appendRound env this addition) fuel (s, 0)).map fun t =>
    (t, toInt (t.vector this).size)

/-- The call returns the new length, with the text of `addition` behind that of `this` and a
distinct `addition` as it was. -/
def Appends (s : Store) : Prop :=
  ∃ fuel t n, sstringAppend env this addition fuel s = some (t, n) ∧
    t.text this = s.text this ++ s.text addition ∧
    (this ≠ addition → t.vector addition = s.vector addition) ∧ n = (t.text this).length

/-! ## One round -/

section Rounds

variable {env} {this addition : ℕ} {s t : Store} {handle i : ℕ} {x : UInt8} {v : Vec UInt8}

namespace Store

theorem length_text : (s.text handle).length = (s.vector handle).size := length_contents _

theorem vector_setVector (hv : v.size ≤ v.capacity) : (s.setVector handle v hv).vector handle = v :=
  Function.update_self ..

theorem vector_setVector_of_ne (hv : v.size ≤ v.capacity) (hne : addition ≠ handle) :
    (s.setVector handle v hv).vector addition = s.vector addition :=
  Function.update_of_ne (fun h => hne (s.string_injective h)) ..

/-- Only the text of one string changes, by one character. -/
theorem pushBack_some (h : s.pushBack env handle x = some t) :
    t.text handle = s.text handle ++ [x] ∧
      ∀ other, other ≠ handle → t.vector other = s.vector other := by
  unfold pushBack at h
  split at h
  · simp at h
  · rename_i v hpush
    have hv := vectorPushBack_contents env.char_copies (s.room _) hpush
    obtain rfl := Option.some.inj h
    refine ⟨?_, fun other hne => vector_setVector_of_ne hv.2 hne⟩
    rw [text, vector_setVector]
    exact hv.1

theorem pushBack_returns (env : Callbacks) (x : UInt8) (hsize : (s.vector handle).size + 1 < 2 ^ 60) :
    ∃ t, s.pushBack env handle x = some t := by
  obtain ⟨v, hv⟩ := vectorPushBack_returns env.char x hsize
  unfold pushBack
  split
  · simp_all
  · exact ⟨_, rfl⟩

end Store

theorem appendRound_exit (h : (s.vector addition).size ≤ i) :
    appendRound env this addition (s, i) = .exit s := if_neg (by omega)

/-- The loop is left where the index has reached the size. -/
theorem appendRound_eq_exit (h : appendRound env this addition (s, i) = .exit t) :
    s = t ∧ (s.vector addition).size ≤ i := by
  rw [appendRound] at h
  split_ifs at h with hi
  · split at h <;> simp at h
  · exact ⟨Round.exit.inj h, Nat.le_of_not_lt hi⟩

theorem appendRound_next (h : i < (s.vector addition).size)
    (hpush : s.pushBack env this ((s.vector addition).array i) = some t) :
    appendRound env this addition (s, i) = .next (t, i + 1) := by
  rw [appendRound, if_pos h, hpush]

theorem appendRound_stuck (h : i < (s.vector addition).size)
    (hpush : s.pushBack env this ((s.vector addition).array i) = none) :
    appendRound env this addition (s, i) = .stuck := by
  rw [appendRound, if_pos h, hpush]

theorem take_contents_succ (h : i < v.size) :
    (contents v).take (i + 1) = (contents v).take i ++ [v.array i] := by
  have hlen : i < (contents v).length := by rwa [length_contents]
  rw [List.take_add_one, List.getElem?_eq_getElem hlen]
  simp [contents]

end Rounds

/-! ## The loop -/

section Loop

variable {env} {this addition : ℕ} {s : Store}

/-- What a loop over a distinct string has done after `i` rounds. -/
structure Appended (this addition : ℕ) (s : Store) (st : Store × ℕ) : Prop where
  le : st.2 ≤ (s.vector addition).size
  addition_eq : st.1.vector addition = s.vector addition
  text_eq : st.1.text this = s.text this ++ (s.text addition).take st.2

theorem Appended.round (hne : this ≠ addition)
    (hlen : (s.text this).length + (s.text addition).length < 2 ^ 60) {st : Store × ℕ}
    (h : Appended this addition s st) :
    (∃ t, appendRound env this addition st = .exit t) ∨ ∃ st',
      appendRound env this addition st = .next st' ∧ Appended this addition s st' ∧
        (s.vector addition).size - st'.2 < (s.vector addition).size - st.2 := by
  obtain ⟨u, i⟩ := st
  have hvector : u.vector addition = s.vector addition := h.addition_eq
  rcases Nat.lt_or_ge i (s.vector addition).size with hi | hi
  · -- the text of `this` stays below the bound of the capacity
    have hsize : (u.vector this).size + 1 < 2 ^ 60 := by
      rw [← Store.length_text, h.text_eq, List.length_append, List.length_take]
      rw [@Store.length_text s addition] at hlen ⊢
      omega
    obtain ⟨t, ht⟩ := Store.pushBack_returns env ((u.vector addition).array i) hsize
    obtain ⟨htext, hothers⟩ := Store.pushBack_some ht
    refine .inr ⟨(t, i + 1), appendRound_next (by rwa [hvector]) ht, ⟨hi, ?_, ?_⟩, ?_⟩
    · exact (hothers addition hne.symm).trans hvector
    · have hstep := take_contents_succ hi
      rw [htext, h.text_eq, List.append_assoc, hvector]
      exact congrArg (s.text this ++ ·) hstep.symm
    · exact Nat.sub_lt_sub_left hi (Nat.lt_succ_self i)
  · exact .inl ⟨u, appendRound_exit (by rwa [hvector])⟩

theorem appends_of_ne (hne : this ≠ addition)
    (hlen : (s.text this).length + (s.text addition).length < 2 ^ 31) :
    Appends env this addition s := by
  have hstart : Appended this addition s (s, 0) := ⟨Nat.zero_le _, rfl, by simp⟩
  have hrun : ∃ st t, Ends (appendRound env this addition) (s, 0) t ∧
      Appended this addition s st ∧ appendRound env this addition st = .exit t :=
    Ends.of_measure (fun st => (s.vector addition).size - st.2)
      (fun _ h => h.round hne (hlen.trans (by norm_num))) hstart
  obtain ⟨⟨u, i⟩, t, ⟨fuel, hfuel⟩, hdone, hexit⟩ := hrun
  obtain ⟨hut, hi⟩ := appendRound_eq_exit hexit
  subst u
  rw [hdone.addition_eq] at hi
  have htext : t.text this = s.text this ++ s.text addition := by
    rw [hdone.text_eq, List.take_of_length_le (Store.length_text.trans_le hi)]
  refine ⟨fuel, t, toInt (t.vector this).size, ?_, htext, fun _ => hdone.addition_eq, ?_⟩
  · rw [sstringAppend, hfuel]
    rfl
  · rw [← Store.length_text]
    refine toInt_of_lt (by omega) ?_
    rw [htext, List.length_append]
    exact_mod_cast hlen

theorem appends_of_empty (h : s.text addition = []) (hlen : (s.text this).length < 2 ^ 31) :
    Appends env this addition s := by
  have hsize : (s.vector addition).size = 0 := by rw [← Store.length_text, h, List.length_nil]
  refine ⟨1, s, toInt (s.vector this).size, ?_, by simp [h], fun _ => rfl, ?_⟩
  · rw [sstringAppend, iterate_exit (appendRound_exit (by omega))]
    rfl
  · rw [← Store.length_text]
    exact toInt_of_lt (by omega) (by exact_mod_cast hlen)

/-- Every round makes the string that is appended to itself longer than the index. -/
theorem not_ends_self (h : s.text this ≠ []) (t : Store) :
    ¬ Ends (appendRound env this this) (s, 0) t := by
  have hpos : 0 < (s.vector this).size := by
    rw [← Store.length_text]
    exact List.length_pos_iff.mpr h
  refine Ends.not_of_invariant (I := fun st => st.2 < (st.1.vector this).size) ?_ hpos
  rintro ⟨u, i⟩ hi
  cases hpush : u.pushBack env this ((u.vector this).array i) with
  | none => exact .inl (appendRound_stuck hi hpush)
  | some v =>
    refine .inr ⟨(v, i + 1), appendRound_next hi hpush, ?_⟩
    have hlen := congrArg List.length (Store.pushBack_some hpush).1
    rw [List.length_append, Store.length_text, Store.length_text, List.length_singleton] at hlen
    exact hlen ▸ Nat.succ_lt_succ hi

end Loop

/-- Appending succeeds exactly if the handles differ or there is nothing to append. -/
theorem appends_iff (s : Store)
    (hlen : (s.text this).length + (s.text addition).length < 2 ^ 31) :
    Appends env this addition s ↔ this ≠ addition ∨ s.text addition = [] := by
  constructor
  · rintro ⟨fuel, t, n, h, -⟩
    by_contra hself
    obtain ⟨rfl, htext⟩ : this = addition ∧ s.text addition ≠ [] := by
      simpa [not_or] using hself
    obtain ⟨t, ht, -⟩ := Option.map_eq_some_iff.mp h
    exact not_ends_self htext t ⟨fuel, ht⟩
  · rintro (hne | hempty)
    · exact appends_of_ne hne hlen
    · exact appends_of_empty hempty (by omega)

/-- Strings at all addresses, each of one letter. -/
def letters : Store where
  string := id
  vectors _ := { array := fun _ => 97, size := 1, capacity := 8, log := [] }
  string_injective := Function.injective_id
  room _ := by norm_num

theorem appends_letters : Appends copying 0 1 letters :=
  (appends_iff copying 0 1 letters (by decide)).mpr (.inl (by decide))

/-- A letter appended to itself. -/
theorem not_appends_letters : ¬ Appends copying 0 0 letters := by
  rintro ⟨fuel, t, n, h, -⟩
  obtain ⟨t, ht, -⟩ := Option.map_eq_some_iff.mp h
  exact not_ends_self (by decide) t ⟨fuel, ht⟩

end Cs241.Sstring
