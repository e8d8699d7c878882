import Mathlib.Data.List.TakeWhile
import Mathlib.Tactic.Linarith
import Mathlib.Tactic.Ring
import Cs241.CamelCaser.Model
import Cs241.Foundation.Blocks

/-!
# The loops of `camel_caser`

Each loop gets one specification. It says where in the input the loop stops and what
it has written, and that the only thing that can go wrong is an `int` that overflows:
a buffer that is doubled for the 28th time, or the position after an input of 2^31 - 1
characters.
-/
namespace Cs241.CamelCaser

open Ctype Foundation

/-! ## Buffers -/

/-- The first number of elements for which a buffer would need a length that is no `int`. -/
def limit : ℕ := 10 * 2 ^ 27

/-- A buffer between two rounds: doubled at most 27 times, and not full. -/
def Buffer.Sound {α : Type} (b : Buffer α) : Prop :=
  (b.data.length : ℤ) < b.len ∧ ∃ k ≤ 27, b.len = 10 * 2 ^ k

section Buffers

variable {α : Type} {b : Buffer α}

theorem Buffer.sound_empty : (Buffer.empty : Buffer α).Sound :=
  ⟨by simp [Buffer.empty], 0, by omega, rfl⟩

theorem Buffer.Sound.push (h : b.Sound) (x : α) :
    b.push x = .ok { b with data := b.data ++ [x] } := if_pos h.1

theorem pow_le_limit {k : ℕ} (hk : k ≤ 27) : (10 : ℤ) * 2 ^ k ≤ limit := by
  have hpow : (2 : ℤ) ^ k ≤ 2 ^ 27 := pow_le_pow_right₀ (by norm_num) hk
  unfold limit
  push_cast
  linarith

theorem Buffer.Sound.lt_limit (h : b.Sound) : b.data.length < limit := by
  obtain ⟨hroom, k, hk, hlen⟩ := h
  have hle := pow_le_limit hk
  omega

/-- One more element, after which a full buffer is doubled. -/
theorem Buffer.Sound.push_grow (h : b.Sound) (x : α) (hlt : b.data.length + 1 < limit) :
    ∃ b' : Buffer α, (b.push x >>= Buffer.grow) = .ok b' ∧ b'.Sound ∧ b'.data = b.data ++ [x] := by
  obtain ⟨hroom, k, hk, hlen⟩ := h
  rw [Buffer.push, if_pos hroom, ok_bind, Buffer.grow]
  dsimp only
  rw [List.length_append, List.length_singleton]
  split_ifs with hfull
  · have hk' : k ≠ 27 := by
      rintro rfl
      unfold limit at hlt
      omega
    have hpow : (10 : ℤ) * 2 ^ k * 2 = 10 * 2 ^ (k + 1) := by ring
    have hle := pow_le_limit (k := k + 1) (by omega)
    have hrange : -2 ^ 31 ≤ b.len * 2 ∧ b.len * 2 < 2 ^ 31 := by
      rw [hlen, hpow]
      unfold limit at hle
      omega
    rw [int, if_pos hrange, ok_bind]
    refine ⟨_, rfl, ⟨?_, k + 1, by omega, by rw [hlen, hpow]⟩, rfl⟩
    simp only [List.length_append, List.length_singleton]
    omega
  · refine ⟨_, rfl, ⟨?_, k, hk, hlen⟩, rfl⟩
    simp only [List.length_append, List.length_singleton]
    omega

/-- At the limit the length overflows. -/
theorem Buffer.Sound.push_grow_overflow (h : b.Sound) (x : α) (hle : limit ≤ b.data.length + 1) :
    (b.push x >>= Buffer.grow) = .error .overflow := by
  have hlt := h.lt_limit
  obtain ⟨hroom, k, hk, hlen⟩ := h
  have hpow := pow_le_limit hk
  have hfull : b.len = limit := by omega
  rw [Buffer.push, if_pos hroom, ok_bind, Buffer.grow]
  dsimp only
  rw [List.length_append, List.length_singleton, if_pos (by omega), hfull, int,
    if_neg (by unfold limit; omega), error_bind]

end Buffers

/-! ## Positions -/

/-- The input up to `len` is `done` and then `rest`. -/
structure At (input : CString) (len : ℤ) (done rest : List UInt8) : Prop where
  prefix_data : done ++ rest <+: input.data
  len_eq : len = done.length + rest.length
  len_lt : len < 2 ^ 31

section Positions

variable {input : CString} {len : ℤ} {done rest text : List UInt8} {c : UInt8}

theorem At.length_le (h : At input len done rest) : rest.length ≤ input.data.length := by
  have hle := h.prefix_data.length_le
  rw [List.length_append] at hle
  omega

theorem At.int_ok (h : At input len done rest) {i : ℤ} (h₀ : 0 ≤ i) (hi : i ≤ len) :
    int i = .ok i :=
  if_pos ⟨by omega, hi.trans_lt h.len_lt⟩

theorem At.char (h : At input len done (c :: rest)) : charAt input done.length = .ok c := by
  obtain ⟨tail, htail⟩ := h.prefix_data
  have hle := h.prefix_data.length_le
  rw [List.length_append, List.length_cons] at hle
  rw [charAt, if_pos (by omega), ← htail]
  simp

theorem At.lt (h : At input len done (c :: rest)) : (done.length : ℤ) < len := by
  rw [h.len_eq, List.length_cons]
  omega

theorem At.skip (h : At input len done (text ++ rest)) : At input len (done ++ text) rest := by
  refine ⟨by simpa using h.prefix_data, ?_, h.len_lt⟩
  rw [h.len_eq, List.length_append, List.length_append]
  omega

theorem At.next (h : At input len done (c :: rest)) : At input len (done ++ [c]) rest :=
  At.skip h

theorem At.stop (h : At input len done []) : ¬ (done.length : ℤ) < len := by
  rw [h.len_eq]
  simp

theorem At.int_next (h : At input len done (c :: rest)) :
    int ((done.length : ℤ) + 1) = .ok ((done ++ [c]).length : ℤ) := by
  have hlt := h.lt
  rw [h.int_ok (by omega) (by omega)]
  simp

end Positions

/-! ## One sentence -/

/-- What a text adds to the buffer, where `upper` and `alpha` are the two flags. -/
def emit : Bool → Bool → List UInt8 → List UInt8
  | _, _, [] => []
  | upper, alpha, c :: cs =>
    if isSpace c then emit (alpha || upper) alpha cs
    else if isAlpha c then
      (if upper then toUpper c else toLower c) :: emit false true cs
    else c :: emit upper true cs

/-- The number of characters that a text adds to the buffer. -/
def written (text : List UInt8) : ℕ := text.countP fun c => !isSpace c

section Sentence

variable {input : CString} {len : ℤ} {done rest : List UInt8}

theorem skipSpaces_spec {fuel : ℕ} (h : At input len done rest) (hf : rest.length < fuel) :
    skipSpaces input len fuel done.length = .ok (done ++ rest.takeWhile isSpace).length := by
  induction fuel generalizing rest done with
  | zero => exact absurd hf (Nat.not_lt_zero _)
  | succ fuel ih =>
    cases rest with
    | nil =>
      rw [skipSpaces, if_neg h.stop]
      simp
    | cons c rest =>
      rw [skipSpaces, if_pos h.lt, h.char, ok_bind]
      by_cases hc : isSpace c = true
      · have hf' : rest.length < fuel := by simpa using hf
        rw [if_pos hc, h.int_next, ok_bind, ih h.next hf']
        simp [hc]
      · rw [if_neg hc]
        simp [hc]

/-- A run of spaces counts once. -/
theorem emit_spaces {upper alpha : Bool} {run text : List UInt8}
    (hrun : ∀ c ∈ run, isSpace c = true) :
    emit (alpha || upper) alpha (run ++ text) = emit (alpha || upper) alpha text := by
  induction run with
  | nil => rfl
  | cons c run ih =>
    have hc := hrun c List.mem_cons_self
    rw [List.cons_append, emit, if_pos hc, ← Bool.or_assoc, Bool.or_self]
    exact ih fun d hd => hrun d (List.mem_cons_of_mem _ hd)

/-- The run of spaces that a text starts with. -/
theorem emit_run {upper alpha : Bool} {c : UInt8} {rest text : List UInt8}
    (hc : isSpace c = true) : emit upper alpha ((c :: rest).takeWhile isSpace ++ text) =
      emit (alpha || upper) alpha text := by
  rw [List.takeWhile_cons_of_pos hc, List.cons_append, emit, if_pos hc]
  exact emit_spaces fun d hd => List.mem_takeWhile_imp hd

theorem written_spaces {run text : List UInt8} (hrun : ∀ c ∈ run, isSpace c = true) :
    written (run ++ text) = written text := by
  have hnone : run.countP (fun c => !isSpace c) = 0 :=
    List.countP_eq_zero.mpr fun c hc => by simp [hrun c hc]
  rw [written, List.countP_append, hnone, Nat.zero_add]
  rfl

/-- Where the text starts with a run of spaces. -/
theorem sentence_spaces (rest : List UInt8) :
    rest.takeWhile (fun c => !isPunct c) = rest.takeWhile isSpace ++
      (rest.dropWhile isSpace).takeWhile fun c => !isPunct c := by
  have hsplit := List.takeWhile_append_dropWhile (p := isSpace) (l := rest)
  conv_lhs => rw [← hsplit]
  apply List.takeWhile_append_of_pos
  intro c hc
  simp [isPunct_of_isSpace (List.mem_takeWhile_imp hc)]

theorem push_grow_bind {α β : Type} (b : Buffer α) (x : α) (f : Buffer α → Except Fault β) :
    (do let b ← b.push x; let b ← b.grow; f b) = (b.push x >>= Buffer.grow) >>= f := by
  cases b.push x <;> rfl

section Copy

variable {c : UInt8} {word : Buffer UInt8} {upper alpha : Bool}

/-- The character that is written for `c`. -/
def copied (upper : Bool) (c : UInt8) : UInt8 :=
  if isAlpha c then (if upper then toUpper c else toLower c) else c

theorem emit_cons (upper alpha : Bool) (c : UInt8) (text : List UInt8) :
    emit upper alpha (c :: text) =
      if isSpace c then emit (alpha || upper) alpha text
      else copied upper c :: emit (!isAlpha c && upper) true text := by
  rw [emit, copied]
  cases isAlpha c <;> cases upper <;> rfl

theorem copy_eq (h : At input len done (c :: rest)) :
    Scan.copy { i := done.length, word := word, upper := upper, alpha := alpha } c =
      (word.push (copied upper c) >>= Buffer.grow).map fun word =>
        { i := (done ++ [c]).length, word := word, upper := !isAlpha c && upper
          alpha := true } := by
  have hflags : (if isAlpha c = true then
        (if upper = true then (toUpper c, false) else (toLower c, upper)) else (c, upper)) =
      (copied upper c, !isAlpha c && upper) := by
    unfold copied
    cases isAlpha c <;> cases upper <;> rfl
  rw [Scan.copy]
  dsimp only
  rw [hflags]
  dsimp only
  rw [push_grow_bind, h.int_next]
  rfl

/-- The loop stops at the first punctuation, or `int` overflows. -/
theorem scan_spec (upper alpha : Bool) {fuel : ℕ} (h : At input len done rest) (hs : word.Sound)
    (hf : rest.length < fuel) :
    (word.data.length + written (rest.takeWhile fun c => !isPunct c) < limit →
      ∃ s, scan input len fuel { i := done.length, word := word, upper := upper, alpha := alpha } =
          .ok s ∧ s.i = (done ++ rest.takeWhile fun c => !isPunct c).length ∧ s.word.Sound ∧
        s.word.data = word.data ++ emit upper alpha (rest.takeWhile fun c => !isPunct c)) ∧
    (limit ≤ word.data.length + written (rest.takeWhile fun c => !isPunct c) →
      scan input len fuel { i := done.length, word := word, upper := upper, alpha := alpha } =
        .error .overflow) := by
  induction fuel generalizing upper alpha rest done word with
  | zero => exact absurd hf (Nat.not_lt_zero _)
  | succ fuel ih =>
    cases rest with
    | nil =>
      rw [scan, if_neg h.stop]
      have hlt := hs.lt_limit
      refine ⟨fun _ => ⟨_, rfl, by simp, hs, by simp [emit]⟩, fun hle => ?_⟩
      simp only [written, List.takeWhile_nil, List.countP_nil] at hle
      omega
    | cons c rest =>
      have hf' : rest.length < fuel := by simpa using hf
      rw [scan, if_pos h.lt]
      dsimp only
      rw [h.char, ok_bind]
      by_cases hp : isPunct c = true
      · rw [if_pos hp]
        have hnil : (c :: rest).takeWhile (fun c => !isPunct c) = [] := by simp [hp]
        rw [hnil]
        have hlt := hs.lt_limit
        refine ⟨fun _ => ⟨_, rfl, by simp, hs, by simp [emit]⟩, fun hle => ?_⟩
        simp only [written, List.countP_nil] at hle
        omega
      · rw [if_neg hp]
        by_cases hc : isSpace c = true
        · -- The whole run of spaces is skipped.
          have hrun : ∀ d ∈ (c :: rest).takeWhile isSpace, isSpace d = true :=
            fun d hd => List.mem_takeWhile_imp hd
          have hsplit := List.takeWhile_append_dropWhile (p := isSpace) (l := c :: rest)
          have hat : At input len (done ++ (c :: rest).takeWhile isSpace)
              ((c :: rest).dropWhile isSpace) := At.skip (hsplit.symm ▸ h)
          have hshort : ((c :: rest).dropWhile isSpace).length < fuel := by
            rw [List.dropWhile_cons_of_pos hc]
            exact (List.dropWhile_sublist _).length_le.trans_lt hf'
          rw [if_pos hc, skipSpaces_spec h hf, ok_bind, sentence_spaces, written_spaces hrun,
            emit_run hc, ← List.append_assoc]
          exact ih (alpha || upper) alpha hat hs hshort
        · rw [if_neg hc, copy_eq h]
          have htake : (c :: rest).takeWhile (fun c => !isPunct c) =
              c :: rest.takeWhile fun c => !isPunct c := by simp [hp]
          have hwritten : written (c :: rest.takeWhile fun c => !isPunct c) =
              written (rest.takeWhile fun c => !isPunct c) + 1 := by simp [written, hc]
          rw [htake, hwritten, emit_cons, if_neg hc]
          rcases Nat.lt_or_ge (word.data.length + 1) limit with hlt | hle
          · obtain ⟨word', hword, hs', hdata⟩ := hs.push_grow (copied upper c) hlt
            rw [hword, Except.map, ok_bind]
            have ih := ih (!isAlpha c && upper) true h.next hs' hf'
            rw [hdata, List.length_append, List.length_singleton] at ih
            refine ⟨fun hroom => ?_, fun hfull => ih.2 (by omega)⟩
            obtain ⟨s, hscan, hi, hsound, hsdata⟩ := ih.1 (by omega)
            exact ⟨s, hscan, by simpa using hi, hsound, by simpa using hsdata⟩
          · rw [hs.push_grow_overflow _ hle]
            exact ⟨fun hroom => by omega, fun _ => rfl⟩

end Copy

end Sentence

end Cs241.CamelCaser
