import Mathlib.Data.List.Basic
import Mathlib.Data.List.TakeWhile

/-!
# Accesses to a block of memory

A block is the list of its bytes. A computation that accesses it stops at the first access behind
the end, with the index of the byte. For each operation there is a rule that tells when it stays
within the block, and what the rest of the computation gets.
-/
namespace Cs241.Foundation

abbrev Block := List UInt8

/-- A computation with the index of the first byte that it accesses behind the end of its block. -/
abbrev Checked := Except ℕ

/-- All accesses are within the block. -/
def InBounds {α : Type} (x : Checked α) : Prop := ∃ a, x = .ok a

/-- The bytes before the first zero. -/
def Block.text (block : Block) : List UInt8 := block.takeWhile (· ≠ 0)

namespace Block

def load (block : Block) (i : ℕ) : Checked UInt8 :=
  match block[i]? with
  | some b => .ok b
  | none => .error i

def store (block : Block) (i : ℕ) (b : UInt8) : Checked Block :=
  if i < block.length then .ok (block.set i b) else .error i

def loadAll (block : Block) : ℕ → ℕ → Checked (List UInt8)
  | _, 0 => .ok []
  | i, n + 1 => do return (← block.load i) :: (← block.loadAll (i + 1) n)

def storeAll (block : Block) (i : ℕ) : List UInt8 → Checked Block
  | [] => .ok block
  | b :: bs => do (← block.store i b).storeAll (i + 1) bs

/-- The index of the first zero behind `i` bytes. -/
def strlenFrom (i : ℕ) : List UInt8 → Checked ℕ
  | [] => .error i
  | b :: bs => if b = 0 then .ok i else strlenFrom (i + 1) bs

/-- `strlen` -/
def strlen (block : Block) : Checked ℕ := strlenFrom 0 block

/-- The string as `printf` and `fputs` read it. -/
def string (block : Block) : Checked (List UInt8) := do
  block.loadAll 0 (← block.strlen)

def equalsFrom (i : ℕ) : List UInt8 → List UInt8 → Checked Bool
  | [], _ => .error i
  | b :: _, [] => .ok (b = 0)
  | b :: bs, c :: cs => if b = c then equalsFrom (i + 1) bs cs else .ok false

/-- `strcmp` with a string that has no zero, up to the first difference. -/
def equals (block : Block) (s : List UInt8) : Checked Bool := equalsFrom 0 block s

end Block

section Binds

variable {ε α β : Type} {f : α → Except ε β}

@[simp] theorem ok_bind (a : α) (f : α → Except ε β) : (Except.ok a : Except ε α) >>= f = f a := rfl

@[simp] theorem error_bind (e : ε) (f : α → Except ε β) :
    (Except.error e : Except ε α) >>= f = .error e := rfl

theorem bind_eq_ok {x : Except ε α} {b : β} :
    x >>= f = .ok b ↔ ∃ a, x = .ok a ∧ f a = .ok b := by
  cases x with
  | error e => simp
  | ok a => simp

end Binds

variable {α β : Type} {block : Block} {f : α → Checked β}

@[simp] theorem inBounds_ok (a : α) : InBounds (.ok a : Checked α) := ⟨a, rfl⟩

@[simp] theorem inBounds_pure (a : α) : InBounds (pure a : Checked α) := ⟨a, rfl⟩

@[simp] theorem not_inBounds_error (i : ℕ) : ¬ InBounds (.error i : Checked α) := by
  rintro ⟨a, h⟩
  cases h

theorem inBounds_bind (x : Checked α) :
    InBounds (x >>= f) ↔ ∃ a, x = .ok a ∧ InBounds (f a) := by
  constructor
  · rintro ⟨b, h⟩
    obtain ⟨a, ha, hf⟩ := bind_eq_ok.mp h
    exact ⟨a, ha, b, hf⟩
  · rintro ⟨a, ha, b, hf⟩
    exact ⟨b, bind_eq_ok.mpr ⟨a, ha, hf⟩⟩

@[simp] theorem inBounds_bind_pure (x : Checked α) (g : α → β) :
    InBounds (x >>= fun a => pure (g a)) ↔ InBounds x := by
  rw [inBounds_bind, InBounds]
  simp only [inBounds_pure, and_true]

/-- The rule for an operation that stays within the block exactly if `p` holds. -/
theorem inBounds_bind_of {x : Checked α} {p : Prop} {a : α} (hok : p → x = .ok a)
    (herror : ¬ p → ¬ InBounds x) : InBounds (x >>= f) ↔ p ∧ InBounds (f a) := by
  by_cases hp : p
  · rw [hok hp, ok_bind]
    simp [hp]
  · rw [inBounds_bind]
    exact iff_of_false (fun ⟨a, ha, _⟩ => herror hp ⟨a, ha⟩) fun h => hp h.1

namespace Block

/-! ## Ranges of bytes -/

theorem loadAll_eq {i n : ℕ} (h : i + n ≤ block.length) :
    block.loadAll i n = .ok ((block.drop i).take n) := by
  induction n generalizing i with
  | zero => rfl
  | succ n ih =>
    have hi : i < block.length := by omega
    rw [loadAll, load, List.getElem?_eq_getElem hi, ih (by omega),
      List.drop_eq_getElem_cons hi, List.take_succ_cons]
    rfl

theorem storeAll_eq {i : ℕ} {bytes : List UInt8}
    (h : bytes = [] ∨ i + bytes.length ≤ block.length) :
    block.storeAll i bytes = .ok (block.take i ++ bytes ++ block.drop (i + bytes.length)) := by
  induction bytes generalizing i block with
  | nil => simp [storeAll]
  | cons b bs ih =>
    have hle : i + (b :: bs).length ≤ block.length := h.resolve_left (List.cons_ne_nil _ _)
    rw [List.length_cons] at hle ⊢
    have hi : i < block.length := by omega
    have htake : (block.set i b).take (i + 1) = block.take i ++ [b] := by
      rw [List.take_add_one, List.take_set_of_le le_rfl, List.getElem?_set_self hi]
      rfl
    rw [storeAll, store, if_pos hi, ok_bind, ih (.inr (by simp; omega)), htake,
      List.drop_set_of_lt (by omega), List.append_assoc _ [b], List.singleton_append,
      show i + 1 + bs.length = i + (bs.length + 1) by omega]

theorem not_inBounds_storeAll {i : ℕ} {bytes : List UInt8} (hne : bytes ≠ [])
    (h : block.length < i + bytes.length) : ¬ InBounds (block.storeAll i bytes) := by
  induction bytes generalizing i block with
  | nil => exact absurd rfl hne
  | cons b bs ih =>
    rw [List.length_cons] at h
    rw [storeAll, store]
    split_ifs with hi
    · rw [ok_bind]
      refine ih ?_ (by simp; omega)
      rintro rfl
      simp at h
      omega
    · exact not_inBounds_error i

theorem storeAll_ok {i : ℕ} {bytes : List UInt8} {block' : Block}
    (h : block.storeAll i bytes = .ok block') :
    block' = block.take i ++ bytes ++ block.drop (i + bytes.length) := by
  by_cases hfits : bytes = [] ∨ i + bytes.length ≤ block.length
  · exact Except.ok.inj (h.symm.trans (storeAll_eq hfits))
  · rw [not_or] at hfits
    exact absurd ⟨block', h⟩ (not_inBounds_storeAll hfits.1 (by omega))

theorem inBounds_storeAll_bind {i : ℕ} {bytes : List UInt8} {f : Block → Checked β} :
    InBounds (block.storeAll i bytes >>= f) ↔
      (bytes = [] ∨ i + bytes.length ≤ block.length) ∧
        InBounds (f (block.take i ++ bytes ++ block.drop (i + bytes.length))) :=
  inBounds_bind_of storeAll_eq fun h => by
    rw [not_or] at h
    exact not_inBounds_storeAll h.1 (by omega)

/-! ## Strings -/

theorem strlenFrom_eq {i : ℕ} (h : (0 : UInt8) ∈ block) :
    strlenFrom i block = .ok (i + block.text.length) := by
  induction block generalizing i with
  | nil => simp at h
  | cons b bs ih =>
    by_cases hb : b = 0
    · simp [strlenFrom, text, hb]
    · have hmem : (0 : UInt8) ∈ bs := (List.mem_cons.mp h).resolve_left fun h => hb h.symm
      rw [strlenFrom, if_neg hb, ih hmem, text, text, List.takeWhile_cons_of_pos (by simpa using hb),
        List.length_cons]
      congr 1
      omega

theorem strlen_eq (h : (0 : UInt8) ∈ block) : block.strlen = .ok block.text.length := by
  rw [strlen, strlenFrom_eq h, Nat.zero_add]

theorem not_inBounds_strlenFrom {i : ℕ} (h : (0 : UInt8) ∉ block) :
    ¬ InBounds (strlenFrom i block) := by
  induction block generalizing i with
  | nil => exact not_inBounds_error i
  | cons b bs ih =>
    rw [List.mem_cons, not_or] at h
    rw [strlenFrom, if_neg fun hb => h.1 hb.symm]
    exact ih h.2

theorem string_eq (h : (0 : UInt8) ∈ block) : block.string = .ok block.text := by
  have hprefix : block.text <+: block := List.takeWhile_prefix _
  rw [string, strlen_eq h, ok_bind, loadAll_eq (by simpa using hprefix.length_le), List.drop_zero,
    ← List.prefix_iff_eq_take.mp hprefix]

theorem inBounds_string : InBounds block.string ↔ (0 : UInt8) ∈ block := by
  refine ⟨fun hstring => ?_, fun h => ⟨_, string_eq h⟩⟩
  by_contra h
  obtain ⟨n, hn, -⟩ := (inBounds_bind _).mp hstring
  exact not_inBounds_strlenFrom h ⟨n, hn⟩

theorem string_ok {s : List UInt8} (h : block.string = .ok s) : s = block.text :=
  Except.ok.inj (h.symm.trans (string_eq (inBounds_string.mp ⟨s, h⟩)))

theorem inBounds_string_bind {f : List UInt8 → Checked β} :
    InBounds (block.string >>= f) ↔ (0 : UInt8) ∈ block ∧ InBounds (f block.text) :=
  inBounds_bind_of string_eq fun h => mt inBounds_string.mp h

theorem equalsFrom_eq {i : ℕ} {s : List UInt8} (h : (0 : UInt8) ∈ block) (hs : (0 : UInt8) ∉ s) :
    equalsFrom i block s = .ok (block.text = s) := by
  induction block generalizing i s with
  | nil => simp at h
  | cons b bs ih =>
    cases s with
    | nil =>
      by_cases hb : b = 0
      · simp [equalsFrom, text, hb]
      · simp [equalsFrom, text, hb]
    | cons c cs =>
      rw [List.mem_cons, not_or] at hs
      by_cases hb : b = c
      · subst hb
        have hmem : (0 : UInt8) ∈ bs := (List.mem_cons.mp h).resolve_left hs.1
        rw [equalsFrom, if_pos rfl, ih hmem hs.2, text, text,
          List.takeWhile_cons_of_pos (by simpa using fun hb => hs.1 hb.symm)]
        simp
      · rw [equalsFrom, if_neg hb]
        have hne : text (b :: bs) ≠ c :: cs := by
          intro heq
          by_cases hzero : b = 0
          · simp [text, hzero] at heq
          · rw [text, List.takeWhile_cons_of_pos (by simpa using hzero)] at heq
            exact hb (List.cons.inj heq).1
        simp [hne]

theorem equals_eq {s : List UInt8} (h : (0 : UInt8) ∈ block) (hs : (0 : UInt8) ∉ s) :
    block.equals s = .ok (block.text = s) := equalsFrom_eq h hs

end Block

end Cs241.Foundation
