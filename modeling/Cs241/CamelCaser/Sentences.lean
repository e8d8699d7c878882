import Cs241.CamelCaser.Loops

/-!
# The sentences of `camel_caser`

The flags of the pass amount to words in camel case. The program returns one string a
sentence as long as no `int` overflows: a sentence that fills a buffer of 10 * 2^27
bytes, as many sentences, or an input of 2^31 - 1 characters that does not end with
punctuation are too much. On the empty input it reads before the input.
-/
namespace Cs241.CamelCaser

open Ctype Foundation

/-! ## Texts -/

/-- The text after the last punctuation. -/
def tailText (input : List UInt8) : List UInt8 := (input.splitOnP isPunct).getLastD []

/-- The input is empty or ends with punctuation. -/
def ended (input : List UInt8) : Bool := input.getLast?.all isPunct

/-- The texts that the program goes through, with the last one if it is not empty. -/
def scanned (input : List UInt8) : List (List UInt8) :=
  sentenceTexts input ++ if ended input then [] else [tailText input]

section Texts

variable {text rest : List UInt8} {p : UInt8}

theorem text_cases (input : List UInt8) : (∀ c ∈ input, isPunct c = false) ∨
    ∃ text p rest, input = text ++ p :: rest ∧ (∀ c ∈ text, isPunct c = false) ∧
      isPunct p = true := by
  induction input with
  | nil => exact .inl (by simp)
  | cons c input ih =>
    by_cases hc : isPunct c = true
    · exact .inr ⟨[], c, input, rfl, by simp, hc⟩
    · have hc' : isPunct c = false := by simpa using hc
      rcases ih with hall | ⟨text, p, rest, rfl, htext, hp⟩
      · exact .inl (List.forall_mem_cons.mpr ⟨hc', hall⟩)
      · exact .inr ⟨c :: text, p, rest, rfl, List.forall_mem_cons.mpr ⟨hc', htext⟩, hp⟩

theorem takeWhile_text (htext : ∀ c ∈ text, isPunct c = false) (hp : isPunct p = true) :
    (text ++ p :: rest).takeWhile (fun c => !isPunct c) = text := by
  rw [List.takeWhile_append_of_pos fun c hc => by simp [htext c hc]]
  simp [hp]

theorem sentenceTexts_cons (htext : ∀ c ∈ text, isPunct c = false) (hp : isPunct p = true) :
    sentenceTexts (text ++ p :: rest) = text :: sentenceTexts rest := by
  rw [sentenceTexts, List.splitOnP_append_cons_of_forall_mem htext p hp,
    List.dropLast_cons_of_ne_nil (List.splitOnP_ne_nil _ _)]
  rfl

theorem ended_cons (hp : isPunct p = true) : ended (text ++ p :: rest) = ended rest := by
  rcases List.eq_nil_or_concat rest with rfl | ⟨rest, c, rfl⟩
  · simp [ended, hp]
  · have hassoc : text ++ p :: (rest ++ [c]) = (text ++ p :: rest) ++ [c] := by simp
    rw [ended, ended, List.concat_eq_append, hassoc, List.getLast?_concat, List.getLast?_concat]

theorem scanned_cons (htext : ∀ c ∈ text, isPunct c = false) (hp : isPunct p = true) :
    scanned (text ++ p :: rest) = text :: scanned rest := by
  have htail : tailText (text ++ p :: rest) = tailText rest := by
    obtain ⟨q, qs, hq⟩ := List.exists_cons_of_ne_nil (List.splitOnP_ne_nil isPunct rest)
    rw [tailText, tailText, List.splitOnP_append_cons_of_forall_mem htext p hp, hq]
    rfl
  rw [scanned, scanned, sentenceTexts_cons htext hp, ended_cons hp, htail, List.cons_append]

theorem scanned_text (htext : ∀ c ∈ text, isPunct c = false) (hne : text ≠ []) :
    ended text = false ∧ scanned text = [text] := by
  have hended : ended text = false := by
    rw [ended, List.getLast?_eq_some_getLast hne]
    exact htext _ (List.getLast_mem hne)
  refine ⟨hended, ?_⟩
  rw [scanned, hended, sentenceTexts, tailText, List.splitOnP_eq_singleton htext]
  rfl

theorem scanned_nil : scanned [] = [] := rfl

theorem length_sentenceTexts (input : List UInt8) :
    (sentenceTexts input).length = input.countP isPunct := by
  induction hn : input.length using Nat.strong_induction_on generalizing input with
  | _ n ih =>
    rcases text_cases input with hnone | ⟨text, p, rest, rfl, htext, hp⟩
    · rw [sentenceTexts, List.splitOnP_eq_singleton hnone, List.countP_eq_zero.mpr (by simpa)]
      rfl
    · have hrest := ih rest.length (by simp [← hn]; omega) rest rfl
      have hzero : text.countP isPunct = 0 := List.countP_eq_zero.mpr (by simpa using htext)
      rw [sentenceTexts_cons htext hp, List.length_cons, hrest, List.countP_append, hzero,
        List.countP_cons_of_pos hp, Nat.zero_add]

end Texts

/-! ## The loop over the sentences -/

/-- Nothing overflows: each text fits into its buffer, the texts into the array, and the position
after them is an `int`. -/
structure Fits (input : List UInt8) : Prop where
  texts : ∀ text ∈ scanned input, written text < limit
  number : (scanned input).length < limit
  last : input.length = 2 ^ 31 - 1 → ended input = true

instance (input : List UInt8) : Decidable (Fits input) :=
  decidable_of_iff ((∀ text ∈ scanned input, written text < limit) ∧
      (scanned input).length < limit ∧ (input.length = 2 ^ 31 - 1 → ended input = true))
    ⟨fun h => ⟨h.1, h.2.1, h.2.2⟩, fun h => ⟨h.texts, h.number, h.last⟩⟩

/-- The same for the rest of an input of `len` characters, with `n` entries in the array. -/
structure FitsFrom (n : ℕ) (len : ℤ) (rest : List UInt8) : Prop where
  texts : ∀ text ∈ scanned rest, written text < limit
  number : n + (scanned rest).length < limit
  last : len = 2 ^ 31 - 1 → ended rest = true

section Fitting

variable {n : ℕ} {len : ℤ} {text rest : List UInt8} {p : UInt8}

theorem fitsFrom_zero (hlen : (rest.length : ℤ) = len) : FitsFrom 0 len rest ↔ Fits rest := by
  constructor
  · rintro ⟨htexts, hnumber, hlast⟩
    exact ⟨htexts, by simpa using hnumber, fun h => hlast (by omega)⟩
  · rintro ⟨htexts, hnumber, hlast⟩
    exact ⟨htexts, by simpa using hnumber, fun h => hlast (by omega)⟩

theorem fitsFrom_text (htext : ∀ c ∈ text, isPunct c = false) (hne : text ≠ []) :
    FitsFrom n len text ↔ written text < limit ∧ n + 1 < limit ∧ len ≠ 2 ^ 31 - 1 := by
  obtain ⟨hended, hscanned⟩ := scanned_text htext hne
  constructor
  · rintro ⟨htexts, hnumber, hlast⟩
    rw [hscanned] at htexts hnumber
    exact ⟨htexts text List.mem_cons_self, hnumber, fun h => by simp [hended] at hlast; omega⟩
  · rintro ⟨hwritten, hnumber, hlast⟩
    exact ⟨by simpa [hscanned] using hwritten, by simpa [hscanned] using hnumber,
      fun h => absurd h hlast⟩

theorem fitsFrom_cons (htext : ∀ c ∈ text, isPunct c = false) (hp : isPunct p = true) :
    FitsFrom n len (text ++ p :: rest) ↔ written text < limit ∧ FitsFrom (n + 1) len rest := by
  have hscanned : scanned (text ++ p :: rest) = text :: scanned rest := scanned_cons htext hp
  have hended : ended (text ++ p :: rest) = ended rest := ended_cons hp
  constructor
  · rintro ⟨htexts, hnumber, hlast⟩
    rw [hscanned, List.forall_mem_cons] at htexts
    rw [hscanned, List.length_cons] at hnumber
    exact ⟨htexts.1, htexts.2, by omega, fun h => hended ▸ hlast h⟩
  · rintro ⟨hwritten, htexts, hnumber, hlast⟩
    refine ⟨?_, ?_, fun h => hended.trans (hlast h)⟩
    · rw [hscanned]
      exact List.forall_mem_cons.mpr ⟨hwritten, htexts⟩
    · rw [hscanned, List.length_cons]
      omega

end Fitting

/-- What is put into the array for a text. -/
def entry (text : List UInt8) : Option (List UInt8) := some (emit false false text ++ [0])

section Loop

variable {input : CString} {len : ℤ} {done rest : List UInt8}
  {camel : Buffer (Option (List UInt8))} {fuel : ℕ}

/-- One round. -/
theorem sentences_round (fuel : ℕ) (h : At input len done rest) (hne : rest ≠ [])
    (hs : camel.Sound) :
    (written (rest.takeWhile fun c => !isPunct c) < limit ∧ camel.data.length + 1 < limit →
      ∃ camel' : Buffer (Option (List UInt8)), camel'.Sound ∧
        camel'.data = camel.data ++ [entry (rest.takeWhile fun c => !isPunct c)] ∧
        sentences input len (fuel + 1) done.length camel =
          int ((done ++ rest.takeWhile fun c => !isPunct c).length + 1) >>= fun i =>
            sentences input len fuel i camel') ∧
    (¬ (written (rest.takeWhile fun c => !isPunct c) < limit ∧ camel.data.length + 1 < limit) →
      sentences input len (fuel + 1) done.length camel = .error .overflow) := by
  obtain ⟨c, cs, rfl⟩ := List.exists_cons_of_ne_nil hne
  have hscan := scan_spec false false h Buffer.sound_empty
    (Nat.lt_succ_of_le h.length_le)
  generalize (c :: cs).takeWhile (fun c => !isPunct c) = text at hscan ⊢
  rw [sentences, if_pos h.lt]
  have hempty : ((Buffer.empty : Buffer UInt8).data.length : ℕ) = 0 := rfl
  rw [hempty, Nat.zero_add] at hscan
  rcases Nat.lt_or_ge (written text) limit with hlt | hle
  · obtain ⟨s, hscan, hi, hsound, hdata⟩ := hscan.1 hlt
    rw [hscan, ok_bind, hsound.push, ok_bind, push_grow_bind, hi]
    have hentry : some (s.word.data ++ [0]) = entry text := by rw [hdata]; rfl
    rw [hentry]
    rcases Nat.lt_or_ge (camel.data.length + 1) limit with hlt' | hle'
    · obtain ⟨camel', hpush, hs', hdata'⟩ := hs.push_grow (entry text) hlt'
      rw [hpush, ok_bind]
      exact ⟨fun _ => ⟨camel', hs', hdata', rfl⟩, fun hnot => absurd ⟨hlt, hlt'⟩ hnot⟩
    · rw [hs.push_grow_overflow _ hle', error_bind]
      exact ⟨fun hroom => by omega, fun _ => rfl⟩
  · rw [hscan.2 hle, error_bind]
    exact ⟨fun hroom => by omega, fun _ => rfl⟩

/-- The last text, which no punctuation ends. -/
theorem sentences_last (h : At input len done rest) (hnone : ∀ c ∈ rest, isPunct c = false)
    (hne : rest ≠ []) (hs : camel.Sound) (hf : rest.length < fuel + 1) :
    (FitsFrom camel.data.length len rest →
      ∃ camel', sentences input len (fuel + 1) done.length camel = .ok camel' ∧ camel'.Sound ∧
        camel'.data = camel.data ++ (scanned rest).map entry) ∧
    (¬ FitsFrom camel.data.length len rest →
      sentences input len (fuel + 1) done.length camel = .error .overflow) := by
  have hround := sentences_round fuel h hne hs
  have htake : rest.takeWhile (fun c => !isPunct c) = rest :=
    List.takeWhile_eq_self_iff.mpr fun c hc => by simp [hnone c hc]
  rw [htake] at hround
  rw [fitsFrom_text hnone hne, (scanned_text hnone hne).2]
  have hi : ((done ++ rest).length : ℤ) = len := by
    rw [h.len_eq, List.length_append]
    push_cast
    rfl
  have hlen := h.len_eq
  have hlt := h.len_lt
  have hpos : 0 < rest.length := List.length_pos_of_ne_nil hne
  by_cases hroom : written rest < limit ∧ camel.data.length + 1 < limit
  · obtain ⟨camel', hs', hdata, heq⟩ := hround.1 hroom
    rw [heq, hi]
    by_cases hlast : len = 2 ^ 31 - 1
    · rw [int, if_neg (by omega), error_bind]
      exact ⟨fun hfits => absurd hlast hfits.2.2, fun _ => rfl⟩
    · obtain ⟨fuel, rfl⟩ : ∃ k, fuel = k + 1 := ⟨fuel - 1, by omega⟩
      rw [int, if_pos (by omega), ok_bind, sentences, if_neg (by omega)]
      exact ⟨fun _ => ⟨camel', rfl, hs', hdata⟩, fun hnot => absurd ⟨hroom.1, hroom.2, hlast⟩ hnot⟩
  · rw [hround.2 hroom]
    exact ⟨fun hfits => absurd ⟨hfits.1, hfits.2.1⟩ hroom, fun _ => rfl⟩

/-- The loop goes through all texts, or `int` overflows. -/
theorem sentences_spec (h : At input len done rest) (hs : camel.Sound) (hf : rest.length < fuel) :
    (FitsFrom camel.data.length len rest →
      ∃ camel', sentences input len fuel done.length camel = .ok camel' ∧ camel'.Sound ∧
        camel'.data = camel.data ++ (scanned rest).map entry) ∧
    (¬ FitsFrom camel.data.length len rest →
      sentences input len fuel done.length camel = .error .overflow) := by
  induction fuel generalizing rest done camel with
  | zero => exact absurd hf (Nat.not_lt_zero _)
  | succ fuel ih =>
    by_cases hne : rest = []
    · subst hne
      rw [sentences, if_neg h.stop, scanned_nil]
      refine ⟨fun _ => ⟨camel, rfl, hs, by simp⟩, fun hnot => absurd ?_ hnot⟩
      exact ⟨by simp [scanned_nil], hs.lt_limit, fun _ => rfl⟩
    rcases text_cases rest with hnone | ⟨text, p, rest', rfl, htext, hp⟩
    · exact sentences_last h hnone hne hs hf
    -- A text, and the punctuation that ends it.
    have hround := sentences_round fuel h hne hs
    rw [takeWhile_text htext hp] at hround
    rw [fitsFrom_cons htext hp, scanned_cons htext hp]
    have h' : At input len (done ++ text) (p :: rest') := h.skip
    have hf' : rest'.length < fuel := by
      rw [List.length_append, List.length_cons] at hf
      omega
    by_cases hroom : written text < limit ∧ camel.data.length + 1 < limit
    · obtain ⟨camel', hs', hdata, heq⟩ := hround.1 hroom
      rw [heq, h'.int_next, ok_bind, and_iff_right hroom.1]
      have ih := ih h'.next hs' hf'
      rw [hdata, List.length_append, List.length_singleton] at ih
      simpa using ih
    · rw [hround.2 hroom]
      refine ⟨fun hfits => absurd ⟨hfits.1, ?_⟩ hroom, fun _ => rfl⟩
      exact (Nat.le_add_right _ _).trans_lt hfits.2.number

end Loop

/-! ## Words -/

/-- After the first character of the sentence: the next letter starts a word if there was a space
since the last letter. -/
theorem emit_words (text : List UInt8) : ∀ {w : List UInt8} {ws : List (List UInt8)},
    text.splitOnP isSpace = w :: ws →
      emit true true text = capitalize w ++ ws.flatMap capitalize ∧
      emit false true text = w.map toLower ++ ws.flatMap capitalize := by
  induction text with
  | nil =>
    intro w ws h
    rw [List.splitOnP_nil] at h
    obtain ⟨rfl, rfl⟩ := List.cons.inj h
    exact ⟨rfl, rfl⟩
  | cons c text ih =>
    intro w ws h
    obtain ⟨v, vs, hv⟩ := List.exists_cons_of_ne_nil (List.splitOnP_ne_nil isSpace text)
    obtain ⟨hupper, hlower⟩ := ih hv
    rw [List.splitOnP_cons_eq_if_modifyHead, hv] at h
    by_cases hc : isSpace c = true
    · rw [if_pos hc] at h
      obtain ⟨rfl, rfl⟩ := List.cons.inj h
      rw [emit, if_pos hc, emit, if_pos hc, List.flatMap_cons]
      exact ⟨hupper, hupper⟩
    · rw [if_neg hc, List.modifyHead_cons] at h
      obtain ⟨rfl, rfl⟩ := List.cons.inj h
      rw [emit, if_neg hc, emit, if_neg hc, capitalize, List.map_cons]
      by_cases ha : isAlpha c = true
      · rw [if_pos ha, if_pos ha, if_pos ha, hlower]
        exact ⟨rfl, rfl⟩
      · rw [if_neg ha, if_neg ha, if_neg ha, hupper, hlower, toLower_of_not_isAlpha ha]
        exact ⟨rfl, rfl⟩

theorem flatMap_capitalize (ws : List (List UInt8)) :
    (ws.filter fun w => w ≠ []).flatMap capitalize = ws.flatMap capitalize := by
  induction ws with
  | nil => rfl
  | cons w ws ih =>
    cases w with
    | nil => simpa [capitalize] using ih
    | cons c cs => simpa using ih

/-- The flags of the pass amount to words in camel case. -/
theorem emit_joinWords (text : List UInt8) : emit false false text = joinWords (words text) := by
  induction text with
  | nil => rfl
  | cons c text ih =>
    obtain ⟨v, vs, hv⟩ := List.exists_cons_of_ne_nil (List.splitOnP_ne_nil isSpace text)
    unfold words
    rw [List.splitOnP_cons_eq_if_modifyHead, emit]
    by_cases hc : isSpace c = true
    · rw [if_pos hc, if_pos hc]
      simpa [words] using ih
    · rw [if_neg hc, if_neg hc, hv, List.modifyHead_cons, List.filter_cons_of_pos (by simp),
        joinWords, flatMap_capitalize, (emit_words text hv).2, List.map_cons]
      by_cases ha : isAlpha c = true
      · rw [if_pos ha]
        rfl
      · rw [if_neg ha, toLower_of_not_isAlpha ha]
        rfl

/-! ## Strings -/

theorem copied_ne_zero {upper : Bool} {c : UInt8} (h : c ≠ 0) : copied upper c ≠ 0 := by
  have hne : c.toNat ≠ 0 := fun hz => h (UInt8.toNat_inj.mp hz)
  have hlt := c.toNat_lt
  unfold copied toUpper toLower isLower isUpper
  simp only [Bool.and_eq_true, decide_eq_true_eq, UInt8.le_iff_toNat_le, ne_eq,
    ← UInt8.toNat_inj, UInt8.reduceToNat]
  split_ifs
  all_goals
    try simp only [UInt8.toNat_sub, UInt8.toNat_add, UInt8.reduceToNat]
    omega

theorem emit_ne_zero {upper alpha : Bool} {text : List UInt8} (h : ∀ c ∈ text, c ≠ 0) :
    ∀ c ∈ emit upper alpha text, c ≠ 0 := by
  induction text generalizing upper alpha with
  | nil => simp [emit]
  | cons c text ih =>
    have hc := h c List.mem_cons_self
    have hrest : ∀ d ∈ text, d ≠ 0 := fun d hd => h d (List.mem_cons_of_mem _ hd)
    rw [emit_cons]
    split_ifs
    · exact ih hrest
    · exact List.forall_mem_cons.mpr ⟨copied_ne_zero hc, ih hrest⟩

/-- The strings that the entries stand for. -/
theorem strings_entries {texts : List (List UInt8)} (h : ∀ text ∈ texts, ∀ c ∈ text, c ≠ 0)
    (rest : List (Option (List UInt8))) :
    strings (texts.map entry ++ none :: rest) = texts.map (emit false false) := by
  induction texts with
  | nil => rfl
  | cons text texts ih =>
    have htext : ∀ c ∈ emit false false text, c ≠ 0 := emit_ne_zero (h text List.mem_cons_self)
    rw [List.map_cons, List.cons_append, entry, strings, List.map_cons,
      ih fun t ht => h t (List.mem_cons_of_mem _ ht),
      List.takeWhile_append_of_pos (by simpa using htext)]
    simp

theorem mem_of_mem_splitOnP {p : UInt8 → Bool} {input text : List UInt8} {c : UInt8}
    (ht : text ∈ input.splitOnP p) (hc : c ∈ text) : c ∈ input := by
  induction input generalizing text with
  | nil => simp_all
  | cons d input ih =>
    obtain ⟨v, vs, hv⟩ := List.exists_cons_of_ne_nil (List.splitOnP_ne_nil p input)
    rw [List.splitOnP_cons_eq_if_modifyHead, hv] at ht
    rw [hv] at ih
    split_ifs at ht
    · rcases List.mem_cons.mp ht with rfl | ht
      · exact absurd hc List.not_mem_nil
      · exact List.mem_cons_of_mem _ (ih ht hc)
    · rw [List.modifyHead_cons] at ht
      rcases List.mem_cons.mp ht with rfl | ht
      · rcases List.mem_cons.mp hc with rfl | hc
        · exact List.mem_cons_self
        · exact List.mem_cons_of_mem _ (ih List.mem_cons_self hc)
      · exact List.mem_cons_of_mem _ (ih (List.mem_cons_of_mem _ ht) hc)

/-! ## The whole program -/

/-- What the length of the input becomes as an `int`. -/
def inputLen (input : CString) : ℤ := toInt input.data.length

/-- The part of the input that the program looks at. -/
def looked (input : CString) : List UInt8 := input.data.take (inputLen input).toNat

section Program

variable {input : CString}

theorem inputLen_range (input : CString) :
    -2 ^ 31 ≤ inputLen input ∧ inputLen input < 2 ^ 31 ∧
      inputLen input ≤ input.data.length :=
  ⟨(toInt_range _).1, (toInt_range _).2, toInt_le (by omega)⟩

theorem looked_at (h : 0 < inputLen input) : At input (inputLen input) [] (looked input) := by
  obtain ⟨-, hlt, hle⟩ := inputLen_range input
  unfold looked
  refine ⟨?_, ?_, hlt⟩
  · rw [List.nil_append]
    exact List.take_prefix _ _
  · rw [List.length_take, List.length_nil]
    omega

theorem looked_ne_nil (h : 0 < inputLen input) : looked input ≠ [] := by
  intro hnil
  have hlen := (looked_at h).len_eq
  rw [hnil] at hlen
  simp at hlen
  omega

theorem length_looked (h : 0 < inputLen input) : (looked input).length = inputLen input := by
  have hlen := (looked_at h).len_eq
  rw [List.length_nil] at hlen
  omega

/-- The loop, from the empty array on. -/
theorem sentences_looked (h : 0 < inputLen input) :
    (Fits (looked input) →
      ∃ camel, sentences input (inputLen input) (input.data.length + 1) 0 .empty = .ok camel ∧
        camel.Sound ∧ camel.data = (scanned (looked input)).map entry) ∧
    (¬ Fits (looked input) →
      sentences input (inputLen input) (input.data.length + 1) 0 .empty = .error .overflow) := by
  have hat := looked_at h
  rw [← fitsFrom_zero (length_looked h)]
  have hspec := sentences_spec hat Buffer.sound_empty (Nat.lt_succ_of_le hat.length_le)
  have hempty : (Buffer.empty : Buffer (Option (List UInt8))).data = [] := rfl
  rw [hempty, List.nil_append, List.length_nil, List.length_nil, Nat.cast_zero] at hspec
  exact hspec

/-- The program up to the last character of the input. -/
theorem camelCaser_bind : camelCaser input = (do
    let camel ← sentences input (inputLen input) (input.data.length + 1) 0 .empty
    let camel ← camel.push none
    let last ← int (inputLen input - 1)
    let c ← charAt input last
    dropTail c camel.data) := rfl

/-- If nothing overflows, the array holds the sentences in camel case. -/
theorem camelCaser_ok (h : 0 < inputLen input) (hfits : Fits (looked input)) :
    ∃ camel, camelCaser input = .ok camel ∧ strings camel = camelCase (looked input) := by
  have hat := looked_at h
  have hlen := length_looked h
  obtain ⟨camel, hsentences, hsound, hdata⟩ := (sentences_looked h).1 hfits
  -- The last character that was looked at.
  obtain ⟨init, c, hc⟩ := (List.eq_nil_or_concat (looked input)).resolve_left (looked_ne_nil h)
  rw [List.concat_eq_append] at hc
  have hchar : charAt input (inputLen input - 1) = .ok c := by
    have hskip : At input (inputLen input) ([] ++ init) [c] := At.skip (hc ▸ hat)
    have hi : inputLen input - 1 = (([] ++ init).length : ℤ) := by
      rw [← hlen, hc]
      simp
    rw [hi]
    exact hskip.char
  have hended : ended (looked input) = isPunct c := by
    rw [ended, hc, List.getLast?_concat]
    rfl
  rw [camelCaser_bind, hsentences, ok_bind, hsound.push, ok_bind, hat.int_ok (by omega) (by omega),
    ok_bind, hchar, ok_bind, hdata, dropTail]
  have htexts : ∀ text ∈ sentenceTexts (looked input), ∀ c ∈ text, c ≠ 0 := fun text ht c hc =>
    input.nonzero c (List.mem_of_mem_take (mem_of_mem_splitOnP (List.mem_of_mem_dropLast ht) hc))
  have hcamel : (sentenceTexts (looked input)).map (emit false false) =
      camelCase (looked input) := by
    rw [camelCase]
    exact List.map_congr_left fun text _ => emit_joinWords text
  rw [scanned, hended]
  by_cases hp : isPunct c = true
  · rw [if_pos hp, if_pos hp, List.append_nil]
    exact ⟨_, rfl, (strings_entries htexts []).trans hcamel⟩
  · rw [if_neg hp, if_neg hp, if_pos (by simp)]
    refine ⟨_, rfl, ?_⟩
    rw [← hcamel, ← strings_entries htexts [none]]
    simp

theorem camelCaser_overflow (h : 0 < inputLen input) (hnot : ¬ Fits (looked input)) :
    camelCaser input = .error .overflow := by
  rw [camelCaser_bind, (sentences_looked h).2 hnot, error_bind]

/-- Without a positive length the last character is before the input. -/
theorem camelCaser_before (h : inputLen input ≤ 0) :
    camelCaser input = .error .index ∨ camelCaser input = .error .overflow := by
  have hrange := inputLen_range input
  rw [camelCaser_bind, sentences, if_neg (by omega), ok_bind, Buffer.sound_empty.push, ok_bind,
    int]
  split_ifs
  · rw [ok_bind, charAt, if_neg (by omega), error_bind]
    exact .inl rfl
  · rw [error_bind]
    exact .inr rfl

/-- No index leaves its array, and no `int` overflows, if there is a character to look at and
everything fits. -/
theorem camelCaser_within (input : CString) :
    (∃ camel, camelCaser input = .ok camel) ↔ 0 < inputLen input ∧ Fits (looked input) := by
  constructor
  · rintro ⟨camel, hcamel⟩
    have hpos : 0 < inputLen input := by
      by_contra hneg
      rcases camelCaser_before (not_lt.mp hneg) with herror | herror <;>
        rw [herror] at hcamel <;> cases hcamel
    refine ⟨hpos, ?_⟩
    by_contra hnot
    rw [camelCaser_overflow hpos hnot] at hcamel
    cases hcamel
  · rintro ⟨hpos, hfits⟩
    obtain ⟨camel, hcamel, -⟩ := camelCaser_ok hpos hfits
    exact ⟨camel, hcamel⟩

/-- On the empty string the program reads the byte before it. -/
theorem camelCaser_empty : camelCaser ⟨[], by simp⟩ = .error .index := rfl

/-- A length that is an `int`. -/
theorem inputLen_of_lt (hlen : input.data.length < 2 ^ 31) :
    inputLen input = input.data.length :=
  toInt_of_lt (by omega) (by omega)

theorem looked_of_lt (hlen : input.data.length < 2 ^ 31) : looked input = input.data := by
  unfold looked
  rw [inputLen_of_lt hlen, Int.toNat_natCast, List.take_length]

/-- The strings are the sentences in camel case, one for each punctuation character, as long as
everything fits. -/
theorem camelCaser_converts (hne : input.data ≠ []) (hlen : input.data.length < 2 ^ 31) :
    (∃ camel, camelCaser input = .ok camel ∧ strings camel = camelCase input.data ∧
        (strings camel).length = input.data.countP isPunct) ↔ Fits input.data := by
  have hpos : 0 < inputLen input := by
    rw [inputLen_of_lt hlen]
    exact_mod_cast List.length_pos_of_ne_nil hne
  have hlooked := looked_of_lt hlen
  constructor
  · rintro ⟨camel, hcamel, -⟩
    by_contra hnot
    rw [camelCaser_overflow hpos (hlooked ▸ hnot)] at hcamel
    cases hcamel
  · intro hfits
    obtain ⟨camel, hcamel, hstrings⟩ := camelCaser_ok hpos (hlooked ▸ hfits)
    rw [hlooked] at hstrings
    refine ⟨camel, hcamel, hstrings, ?_⟩
    rw [hstrings, camelCase, List.length_map, length_sentenceTexts]

/-- `Ab 1c. d` -/
def shortInput : CString where
  data := [65, 98, 32, 49, 99, 46, 32, 100]
  nonzero := by simp

/-- It has one sentence, `ab1C`. -/
theorem camelCaser_converts_short :
    (∃ camel, camelCaser shortInput = .ok camel ∧ strings camel = camelCase shortInput.data ∧
        (strings camel).length = shortInput.data.countP isPunct) ∧
      camelCase shortInput.data = [[97, 98, 49, 67]] :=
  ⟨(camelCaser_converts (by decide) (by decide)).mpr (by decide), by decide⟩

/-- A sentence of 10 * 2^27 letters. -/
def longSentence : CString where
  data := List.replicate limit 97 ++ [46]
  nonzero c hc := by
    rcases List.mem_append.mp hc with hc | hc
    · rw [List.eq_of_mem_replicate hc]
      decide
    · rw [List.mem_singleton.mp hc]
      decide

theorem length_longSentence : longSentence.data.length = limit + 1 := by
  rw [longSentence, List.length_append, List.length_replicate, List.length_singleton]

theorem longSentence_lt : longSentence.data.length < 2 ^ 31 := by
  rw [length_longSentence]
  unfold limit
  norm_num

theorem longSentence_ne_nil : longSentence.data ≠ [] :=
  List.ne_nil_of_length_pos (by rw [length_longSentence]; omega)

theorem longSentence_overflow : camelCaser longSentence = .error .overflow := by
  apply camelCaser_overflow
  · rw [inputLen_of_lt longSentence_lt, length_longSentence]
    omega
  · rw [looked_of_lt longSentence_lt]
    intro hfits
    have htext : ∀ c ∈ List.replicate limit (97 : UInt8), isPunct c = false := fun c hc => by
      rw [List.eq_of_mem_replicate hc]
      decide
    have hmem : List.replicate limit 97 ∈ scanned longSentence.data := by
      rw [longSentence, scanned_cons htext (by decide)]
      exact List.mem_cons_self
    have hlt := hfits.texts _ hmem
    rw [written, List.countP_replicate, if_pos (by decide)] at hlt
    exact lt_irrefl _ hlt

/-- A nonempty input shorter than 2^31 may still be too long. -/
theorem not_camelCaser_converts :
    ¬ ∀ input : CString, input.data ≠ [] → input.data.length < 2 ^ 31 →
      ∃ camel, camelCaser input = .ok camel ∧ strings camel = camelCase input.data ∧
        (strings camel).length = input.data.countP isPunct := by
  intro hall
  obtain ⟨camel, hcamel, -⟩ := hall longSentence longSentence_ne_nil longSentence_lt
  rw [longSentence_overflow] at hcamel
  cases hcamel

end Program

end Cs241.CamelCaser
