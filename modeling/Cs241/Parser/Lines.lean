import Cs241.Foundation.Delimiters
import Cs241.Parser.Model

/-!
# The lines of a makefile

What the lines are as bytes, and what the parser does with each kind. White space at the end
of a line, with or without a carriage return, makes no difference.
-/
namespace Cs241.Parser

open Ctype Foundation

inductive Line
  | blank
  | comment
  | rule (target : Name) (dependencies : List Name)
  | recipe (command : Name)
deriving DecidableEq

def isNameChar (c : UInt8) : Bool :=
  isAlpha c || isDigit c || c == 95 || c == 45 || c == 46 || c == 47

/-- The name of a target or a dependency. -/
structure IsName (name : Name) : Prop where
  chars : ∀ c ∈ name, isNameChar c = true
  start : ∃ c, name.head? = some c ∧ (isAlpha c || isDigit c || c == 46 || c == 47) = true

/-- A command without comments and without white space around it. -/
structure IsCommand (command : Name) : Prop where
  first : ∃ c, command.head? = some c ∧ isSpace c = false
  last : ∃ c, command.getLast? = some c ∧ isSpace c = false
  zero_not_mem : 0 ∉ command
  newline_not_mem : 10 ∉ command
  hash_not_mem : 35 ∉ command

/-- Names with spaces in front of each, and at the end. -/
inductive Separated : List Name → List UInt8 → Prop
  | nil (n : ℕ) : Separated [] (List.replicate n 32)
  | cons (n : ℕ) {name names rest} : IsName name → Separated names rest →
      Separated (name :: names) (List.replicate (n + 1) 32 ++ name ++ rest)

/-- The bytes of a line without its end. The first dependency may follow the colon directly. -/
inductive IsLine : Line → List UInt8 → Prop
  | blank {text} : (∀ c ∈ text, isSpace c = true ∧ c ≠ 10) → IsLine .blank text
  | comment {spaces text} : (∀ c ∈ spaces, isSpace c = true ∧ c ≠ 10) → 0 ∉ text → 10 ∉ text →
      IsLine .comment (spaces ++ 35 :: text)
  | rule {target dependencies rest} : IsName target → Separated dependencies (32 :: rest) →
      IsLine (.rule target dependencies) (target ++ 58 :: rest)
  | recipe {command} : IsCommand command → IsLine (.recipe command) (9 :: command)

/-- The bytes of a makefile, whose last line may have no end. -/
inductive Spells : List Line → List UInt8 → Prop
  | nil : Spells [] []
  | last {line text} : IsLine line text → text ≠ [] → Spells [line] text
  | cons {line text ending lines rest} : IsLine line text → ending = [10] ∨ ending = [13, 10] →
      Spells lines rest → Spells (line :: lines) (text ++ ending ++ rest)

variable {c d : UInt8} {name command text rest : List UInt8} {names dependencies : List Name}
  {line : Line} {lines : List Line}

/-! ## Characters -/

theorem ne_of_isNameChar (h : isNameChar c = true) (hd : isNameChar d = false) : c ≠ d := by
  rintro rfl
  simp [hd] at h

theorem isSpace_of_isNameChar (h : isNameChar c = true) : isSpace c = false := by
  by_contra hspace
  simp only [isSpace, isNameChar, isAlpha, isDigit, isUpper, isLower, Bool.not_eq_false,
    Bool.or_eq_true, Bool.and_eq_true, beq_iff_eq, decide_eq_true_eq, UInt8.le_iff_toNat_le,
    ← UInt8.toNat_inj, UInt8.reduceToNat] at h hspace
  omega

namespace IsName

variable (h : IsName name)
include h

theorem not_mem (hd : isNameChar d = false) : d ∉ name :=
  fun hmem => ne_of_isNameChar (h.chars d hmem) hd rfl

theorem exists_cons : ∃ c rest, name = c :: rest ∧ isNameChar c = true ∧
    isMakefileTarget (c :: rest) = true := by
  obtain ⟨c, hc, hstart⟩ := h.start
  obtain ⟨rest, rfl⟩ := List.head?_eq_some_iff.mp hc
  exact ⟨c, rest, rfl, h.chars c List.mem_cons_self, by simpa [isMakefileTarget] using hstart⟩

theorem ne_nil : name ≠ [] := by
  obtain ⟨c, rest, rfl, -, -⟩ := h.exists_cons
  exact List.cons_ne_nil c rest

end IsName

theorem isName_singleton (h : isAlpha c = true) : IsName [c] where
  chars := List.forall_mem_singleton.mpr (by simp [isNameChar, h])
  start := ⟨c, rfl, by simp [h]⟩

theorem isCommand_singleton (h : isAlpha c = true) : IsCommand [c] := by
  have hname := isName_singleton h
  have hspace : isSpace c = false := isSpace_of_isNameChar (hname.chars c List.mem_cons_self)
  exact ⟨⟨c, rfl, hspace⟩, ⟨c, rfl, hspace⟩, hname.not_mem rfl, hname.not_mem rfl,
    hname.not_mem rfl⟩

/-! ## White space -/

theorem rdropWhile_append_cons {p : UInt8 → Bool} (hc : p c = false) (front back : List UInt8) :
    (front ++ c :: back).rdropWhile p = front ++ c :: back.rdropWhile p := by
  induction back using List.reverseRecOn with
  | nil =>
    rw [List.rdropWhile_concat_neg _ _ _ (by simp [hc]), List.rdropWhile_nil]
  | append_singleton back d ih =>
    rw [← List.cons_append, ← List.append_assoc, List.rdropWhile_concat, ih,
      List.rdropWhile_concat]
    split_ifs <;> simp

theorem rdropWhile_of_last {p : UInt8 → Bool} (h : ∃ c, text.getLast? = some c ∧ p c = false) :
    text.rdropWhile p = text := by
  obtain ⟨c, hc, hp⟩ := h
  obtain ⟨front, rfl⟩ := List.getLast?_eq_some_iff.mp hc
  exact List.rdropWhile_concat_neg _ _ _ (by simp [hp])

theorem Separated.stripBackWhitespace (h : Separated names rest) :
    Separated names (stripBackWhitespace rest) := by
  induction h with
  | nil n =>
    have hnil : Parser.stripBackWhitespace (List.replicate n 32) = [] := by
      apply List.rdropWhile_eq_nil_iff.mpr
      intro c hc
      rw [List.eq_of_mem_replicate hc]
      decide
    rw [hnil]
    exact .nil 0
  | @cons n name names rest hname _ ih =>
    have hlast : isSpace (name.getLast hname.ne_nil) = false :=
      isSpace_of_isNameChar (hname.chars _ (List.getLast_mem _))
    have hstrip : Parser.stripBackWhitespace (List.replicate (n + 1) 32 ++ name ++ rest) =
        List.replicate (n + 1) 32 ++ name ++ Parser.stripBackWhitespace rest := by
      obtain ⟨front, back, rfl⟩ : ∃ front back, name = front ++ [back] :=
        ⟨_, _, (List.dropLast_append_getLast hname.ne_nil).symm⟩
      rw [List.getLast_append_singleton] at hlast
      simp only [← List.append_assoc]
      rw [List.append_assoc _ [back] rest, List.singleton_append, Parser.stripBackWhitespace,
        rdropWhile_append_cons hlast]
      simp [Parser.stripBackWhitespace]
    rw [hstrip]
    exact .cons n hname ih

/-- The end of a line goes with the white space in front of it. -/
theorem stripBackWhitespace_chomp (hzero : 0 ∉ text) (hnewline : 10 ∉ text)
    {ending : List UInt8} (hending : ending = [] ∨ ending = [10] ∨ ending = [13, 10]) :
    stripBackWhitespace (cString (chomp (text ++ ending))) = stripBackWhitespace text := by
  have hstring : ∀ text' : List UInt8, text' ⊆ text → cString text' = text' := by
    intro text' hsub
    exact takeWhile_ne_iff.mpr fun hmem => hzero (hsub hmem)
  rcases hending with rfl | rfl | rfl
  · have hlast : text.getLast? ≠ some 10 := fun h => hnewline (List.mem_of_getLast? h)
    rw [List.append_nil, chomp, if_neg hlast, hstring text (List.Subset.refl _)]
  · rw [chomp, if_pos List.getLast?_concat, List.dropLast_concat]
    dsimp only
    split_ifs with hreturn
    · obtain ⟨front, rfl⟩ := List.getLast?_eq_some_iff.mp hreturn
      rw [List.dropLast_concat, hstring front (List.subset_append_left _ _),
        stripBackWhitespace, stripBackWhitespace, List.rdropWhile_concat_pos _ _ _ (by decide)]
    · rw [hstring text (List.Subset.refl _)]
  · have hchomp : chomp (text ++ [13, 10]) = text := by
      rw [chomp, show text ++ [13, 10] = text ++ [13] ++ [10] by simp,
        if_pos List.getLast?_concat, List.dropLast_concat, if_pos List.getLast?_concat,
        List.dropLast_concat]
    rw [hchomp, hstring text (List.Subset.refl _)]

/-! ## Words -/

theorem strtok_spaces (n : ℕ) (line : Name) :
    strtok (List.replicate n 32 ++ line) = strtok line := by
  have hdrop : (List.replicate n (32 : UInt8) ++ line).dropWhile (fun c => c = 32) =
      line.dropWhile fun c => c = 32 :=
    List.dropWhile_append_of_pos fun c hc => by simp [List.eq_of_mem_replicate hc]
  rw [strtok, hdrop, strtok]

/-- The space behind a token is skipped, or there is none. -/
theorem strtok_name (hname : IsName name) (h : Separated names rest) :
    ∃ line, strtok (name ++ rest) = some (name, line) ∧ strtok line = strtok rest := by
  have hspace : 32 ∉ name := hname.not_mem rfl
  have hrest : rest = [] ∨ ∃ rest', rest = 32 :: rest' := by
    cases h with
    | nil n =>
      cases n with
      | zero => exact .inl rfl
      | succ n => exact .inr ⟨_, List.replicate_succ⟩
    | cons n _ _ => exact .inr ⟨_, by rw [List.replicate_succ, List.cons_append, List.cons_append]⟩
  rw [strtok, dropWhile_eq_word hname.ne_nil hspace, if_neg (by simp [hname.ne_nil])]
  rcases hrest with rfl | ⟨rest', rfl⟩
  · refine ⟨[], ?_, rfl⟩
    rw [List.append_nil, takeWhile_ne_iff.mpr hspace, dropWhile_ne hspace, List.tail_nil]
  · refine ⟨rest', ?_, (strtok_spaces 1 rest').symm⟩
    rw [takeWhile_ne_cons hspace, dropWhile_ne_cons hspace, List.tail_cons]

theorem tokens_congr {line line' : Name} (h : strtok line = strtok line') (size : ℕ) :
    tokens size line = tokens size line' := by
  cases size with
  | zero => rfl
  | succ size => rw [tokens, tokens, h]

theorem tokens_separated (h : Separated names rest) {size : ℕ} (hsize : names.length < size) :
    tokens size rest = names := by
  induction h generalizing size with
  | nil n =>
    obtain ⟨size, rfl⟩ := Nat.exists_eq_succ_of_ne_zero hsize.ne_bot
    have hnone : strtok (List.replicate n 32) = none := by
      rw [← List.append_nil (List.replicate n 32), strtok_spaces]
      rfl
    rw [tokens, hnone]
  | @cons n name names rest hname hrest ih =>
    obtain ⟨size, rfl⟩ := Nat.exists_eq_succ_of_ne_zero (Nat.ne_zero_of_lt hsize)
    obtain ⟨line, hfirst, hline⟩ := strtok_name hname hrest
    rw [tokens, List.append_assoc, strtok_spaces, hfirst]
    dsimp only
    rw [tokens_congr hline, ih (Nat.lt_of_succ_lt_succ hsize)]

theorem Separated.length_le (h : Separated names rest) : names.length ≤ rest.count 32 := by
  induction h with
  | nil n => exact Nat.zero_le _
  | cons n _ _ ih =>
    rw [List.count_append, List.count_append, List.count_replicate_self, List.length_cons]
    omega

theorem Separated.cons_stripBackWhitespace (h : Separated names (32 :: rest)) :
    Separated names (32 :: Parser.stripBackWhitespace rest) := by
  have hstrip := h.stripBackWhitespace
  by_cases hspaces : ∀ c ∈ rest, isSpace c = true
  · have hnil : Parser.stripBackWhitespace rest = [] := List.rdropWhile_eq_nil_iff.mpr hspaces
    have hnil' : Parser.stripBackWhitespace (32 :: rest) = [] :=
      List.rdropWhile_eq_nil_iff.mpr (List.forall_mem_cons.mpr ⟨rfl, hspaces⟩)
    have hnames : names = [] := by
      simpa [hnil'] using hstrip.length_le
    rw [hnil, hnames]
    exact .nil 1
  · obtain ⟨c, hmem, hc⟩ : ∃ c ∈ rest, isSpace c = false := by simpa using hspaces
    obtain ⟨front, back, rfl⟩ := List.append_of_mem hmem
    rw [Parser.stripBackWhitespace, ← List.cons_append, rdropWhile_append_cons hc] at hstrip
    rwa [Parser.stripBackWhitespace, rdropWhile_append_cons hc]

/-- There is room for all tokens of the line. -/
theorem splitLineOnSpaces_separated (h : Separated names (32 :: rest)) :
    splitLineOnSpaces rest = names := by
  have hlength := h.length_le
  rw [List.count_cons_self] at hlength
  have hskip : strtok rest = strtok (32 :: rest) := (strtok_spaces 1 rest).symm
  rw [splitLineOnSpaces, tokens_congr hskip]
  exact tokens_separated h (by omega)

/-! ## Kinds of lines -/

theorem stripLoop_of_not_mem (h : 35 ∉ text) (str : Name) : stripLoop str text = str ++ text := by
  induction text generalizing str with
  | nil => simp [stripLoop]
  | cons c text ih =>
    have hc : c ≠ 35 := (List.ne_of_not_mem_cons h).symm
    rw [stripLoop, if_neg fun hhash => hc hhash.1, ih (List.not_mem_of_not_mem_cons h),
      List.append_assoc, List.singleton_append]

theorem stripBackComments_of_not_mem (h : 35 ∉ text) : stripBackComments text = text :=
  stripLoop_of_not_mem h []

theorem Separated.not_mem (h : Separated names rest) (hc : isNameChar c = false) (hspace : c ≠ 32) :
    c ∉ rest := by
  induction h with
  | nil n => exact fun hmem => hspace (List.eq_of_mem_replicate hmem)
  | cons n hname _ ih =>
    intro hmem
    rcases List.mem_append.mp hmem with hmem | hmem
    · rcases List.mem_append.mp hmem with hmem | hmem
      · exact hspace (List.eq_of_mem_replicate hmem)
      · exact hname.not_mem hc hmem
    · exact ih hmem

/-- No byte of a line is the end of a string or of a line. -/
theorem IsLine.not_mem (h : IsLine line text) : 0 ∉ text ∧ 10 ∉ text := by
  cases h with
  | blank hspaces =>
    exact ⟨fun hmem => absurd (hspaces 0 hmem).1 (by decide), fun hmem => (hspaces 10 hmem).2 rfl⟩
  | @comment spaces text hspaces hzero hnewline =>
    have hspace : 0 ∉ spaces := fun hmem => absurd (hspaces 0 hmem).1 (by decide)
    have hend : 10 ∉ spaces := fun hmem => (hspaces 10 hmem).2 rfl
    simp [hspace, hend, hzero, hnewline]
  | @rule name _ rest hname hdependencies =>
    have hout : ∀ c, isNameChar c = false → c ≠ 32 → c ∉ name ∧ c ∉ rest := fun c hc hspace =>
      ⟨hname.not_mem hc, List.not_mem_of_not_mem_cons (hdependencies.not_mem hc hspace)⟩
    have hzero := hout 0 rfl (by decide)
    have hnewline := hout 10 rfl (by decide)
    simp [hzero, hnewline]
  | recipe hcommand => simp [hcommand.zero_not_mem, hcommand.newline_not_mem]

namespace State

variable (p : State)

/-- What a line does to the variables, where a recipe line has a rule. -/
def next (p : State) : Line → State
  | .blank | .comment => p.count
  | .rule target dependencies => p.count.addRule target dependencies
  | .recipe command =>
    match p.currRule with
    | none => p.count
    | some currRule => p.count.addRecipe currRule command

/-- The bytes between the ends of two lines. -/
def parseText (text : List UInt8) : Except Exit State :=
  let line := stripBackComments (skipWhitespace (stripBackWhitespace text))
  if line = [] then .ok p.count else p.count.parseNonempty (stripBackWhitespace text) line

theorem parseText_blank (h : ∀ c ∈ text, isSpace c = true) : p.parseText text = .ok p.count := by
  have hnil : stripBackWhitespace text = [] := List.rdropWhile_eq_nil_iff.mpr h
  rw [parseText, hnil]
  rfl

theorem parseText_comment {spaces : List UInt8} (h : ∀ c ∈ spaces, isSpace c = true) :
    p.parseText (spaces ++ 35 :: text) = .ok p.count := by
  have hstrip : stripBackWhitespace (spaces ++ 35 :: text) =
      spaces ++ 35 :: stripBackWhitespace text := rdropWhile_append_cons rfl _ _
  have hskip : skipWhitespace (spaces ++ 35 :: stripBackWhitespace text) =
      35 :: stripBackWhitespace text := by
    rw [skipWhitespace, List.dropWhile_append_of_pos h]
    exact List.dropWhile_cons_of_neg (by decide)
  rw [parseText, hstrip, hskip]
  rfl

/-- A line that begins with a name and a colon. -/
theorem parseNonempty_rule (hname : IsName name) (h : Separated names (32 :: rest)) :
    p.parseNonempty (name ++ 58 :: rest) (name ++ 58 :: rest) = .ok (p.addRule name names) := by
  have hcolon : 58 ∉ name := hname.not_mem rfl
  have hspace : terminateWhitespace name = name := by
    apply List.takeWhile_eq_self_iff.mpr
    intro d hd
    simp [isSpace_of_isNameChar (hname.chars d hd)]
  have hfirst : (name ++ 58 :: rest).head? ≠ some 9 ∧
      isMakefileTarget (name ++ 58 :: rest) = true := by
    obtain ⟨c, name, rfl, hc, hstart⟩ := hname.exists_cons
    exact ⟨by simpa using ne_of_isNameChar hc rfl, by simpa [isMakefileTarget] using hstart⟩
  rw [parseNonempty, if_neg hfirst.1, if_pos hfirst.2, dropWhile_ne_cons hcolon]
  dsimp only
  rw [takeWhile_ne_cons hcolon, hspace, splitLineOnSpaces_separated h]

theorem parseText_rule (hname : IsName name) (h : Separated names (32 :: rest)) :
    p.parseText (name ++ 58 :: rest) = .ok (p.count.addRule name names) := by
  have hstrip : stripBackWhitespace (name ++ 58 :: rest) =
      name ++ 58 :: stripBackWhitespace rest := rdropWhile_append_cons rfl _ _
  have hrest := h.cons_stripBackWhitespace
  have hskip : ∀ rest, skipWhitespace (name ++ 58 :: rest) = name ++ 58 :: rest := by
    obtain ⟨c, name, rfl, hc, -⟩ := hname.exists_cons
    exact fun rest => List.dropWhile_cons_of_neg (by simp [isSpace_of_isNameChar hc])
  have hhash : 35 ∉ name ++ 58 :: stripBackWhitespace rest := by
    have hfront : 35 ∉ name := hname.not_mem rfl
    have hback : 35 ∉ stripBackWhitespace rest :=
      List.not_mem_of_not_mem_cons (hrest.not_mem rfl (by decide))
    simp [hfront, hback]
  rw [parseText, hstrip, hskip, stripBackComments_of_not_mem hhash,
    parseNonempty_rule p.count hname hrest]
  exact if_neg (List.append_ne_nil_of_left_ne_nil hname.ne_nil _)

theorem parseText_recipe (h : IsCommand command) {currRule : Name}
    (hcurr : p.currRule = some currRule) :
    p.parseText (9 :: command) = .ok (p.count.addRecipe currRule command) := by
  obtain ⟨c, hc, hfirst⟩ := h.first
  obtain ⟨rest, rfl⟩ := List.head?_eq_some_iff.mp hc
  have hstrip : stripBackWhitespace (9 :: c :: rest) = 9 :: c :: rest := by
    obtain ⟨d, hd, hlast⟩ := h.last
    exact rdropWhile_of_last ⟨d, by rw [List.getLast?_cons_cons, hd], hlast⟩
  have hskip : skipWhitespace (9 :: c :: rest) = c :: rest := by
    rw [skipWhitespace, List.dropWhile_cons_of_pos (by decide),
      List.dropWhile_cons_of_neg (by simp [hfirst])]
  have hcount : p.count.currRule = some currRule := hcurr
  rw [parseText, hstrip, hskip, stripBackComments_of_not_mem h.hash_not_mem, parseNonempty,
    if_pos List.head?_cons, hcount]
  exact if_neg (List.cons_ne_nil _ _)

theorem parseText_next (h : IsLine line text)
    (hcurr : ∀ command, line = .recipe command → p.currRule ≠ none) :
    p.parseText text = .ok (p.next line) := by
  cases h with
  | blank hspaces => exact p.parseText_blank fun c hc => (hspaces c hc).1
  | comment hspaces => exact p.parseText_comment fun c hc => (hspaces c hc).1
  | rule hname hdependencies => exact p.parseText_rule hname hdependencies
  | @recipe command hcommand =>
    obtain ⟨currRule, hsome⟩ := Option.ne_none_iff_exists'.mp (hcurr command rfl)
    rw [p.parseText_recipe hcommand hsome, next, hsome]

/-- The end of a line, which the last one may do without. -/
theorem parseLine_next (h : IsLine line text) {ending : List UInt8}
    (hending : ending = [] ∨ ending = [10] ∨ ending = [13, 10])
    (hcurr : ∀ command, line = .recipe command → p.currRule ≠ none) :
    p.parseLine (text ++ ending) = .ok (p.next line) := by
  obtain ⟨hzero, hnewline⟩ := h.not_mem
  rw [parseLine, stripBackWhitespace_chomp hzero hnewline hending]
  exact p.parseText_next h hcurr

end State

/-! ## The file -/

theorem getlines_append (h : 10 ∉ text) (lineBuf : List UInt8) :
    getlines lineBuf (text ++ 10 :: rest) = (lineBuf ++ text ++ [10]) :: getlines [] rest := by
  induction text generalizing lineBuf with
  | nil => rw [List.nil_append, getlines, if_pos rfl, List.append_nil]
  | cons c text ih =>
    have hc : c ≠ 10 := (List.ne_of_not_mem_cons h).symm
    rw [List.cons_append, getlines, if_neg hc, ih (List.not_mem_of_not_mem_cons h)]
    simp

theorem getlines_last (h : 10 ∉ text) (hne : text ≠ []) : getlines [] text = [text] := by
  have hall : ∀ lineBuf, lineBuf ++ text ≠ [] → getlines lineBuf text = [lineBuf ++ text] := by
    clear hne
    induction text with
    | nil =>
      intro lineBuf hne
      rw [List.append_nil] at hne ⊢
      rw [getlines, if_neg hne]
    | cons c text ih =>
      intro lineBuf _
      have hc : c ≠ 10 := (List.ne_of_not_mem_cons h).symm
      rw [getlines, if_neg hc, ih (List.not_mem_of_not_mem_cons h) _ (by simp)]
      simp
  exact hall [] hne

theorem State.next_currRule {p : State} (hcurr : p.currRule ≠ none) (line : Line) :
    (p.next line).currRule ≠ none := by
  cases line with
  | blank => exact hcurr
  | comment => exact hcurr
  | rule target dependencies => exact Option.some_ne_none target
  | recipe command =>
    obtain ⟨currRule, hsome⟩ := Option.ne_none_iff_exists'.mp hcurr
    rw [State.next, hsome]
    exact hcurr

/-- From a rule line on there is a rule for every recipe line. -/
theorem foldlM_parseLine (h : Spells lines text) {p : State}
    (hcurr : p.currRule ≠ none ∨ ∃ target dependencies rest,
      lines = .rule target dependencies :: rest) :
    (getlines [] text).foldlM State.parseLine p = .ok (lines.foldl State.next p) := by
  induction h generalizing p with
  | nil => rfl
  | @last line text hline hne =>
    have hparse := p.parseLine_next hline (.inl rfl) fun command hrecipe => hcurr.resolve_right
      (by simp [hrecipe])
    rw [List.append_nil] at hparse
    rw [getlines_last hline.not_mem.2 hne, List.foldlM_cons, hparse]
    rfl
  | @cons line text ending lines rest hline hending _ ih =>
    have hlines : getlines [] (text ++ ending ++ rest) =
        (text ++ ending) :: getlines [] rest := by
      have hnewline := hline.not_mem.2
      rcases hending with rfl | rfl
      · rw [List.append_assoc, List.singleton_append, getlines_append hnewline, List.nil_append]
      · have hreturn : 10 ∉ text ++ [13] := by simp [hnewline]
        rw [show text ++ [13, 10] ++ rest = text ++ [13] ++ 10 :: rest by simp,
          getlines_append hreturn]
        simp
    have hparse := p.parseLine_next hline (.inr hending) fun command hrecipe =>
      hcurr.resolve_right (by simp [hrecipe])
    have hnext : (p.next line).currRule ≠ none := by
      rcases hcurr with hcurr | ⟨target, dependencies, _, heq⟩
      · exact State.next_currRule hcurr line
      · rw [(List.cons.inj heq).1]
        exact Option.some_ne_none target
    rw [hlines, List.foldlM_cons, hparse]
    exact ih (.inl hnext)

end Cs241.Parser
