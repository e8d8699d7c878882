import Cs241.Shell.Replay
import Cs241.Sstring.Pieces

/-!
# Two commands on a line

`get_args` walks over the words of the line. At an operator that is a word of its own
it takes what lies on both sides, but a semicolon stands at the end of a word, and that
word goes to the right. The words are copies that `sstring_to_cstr` has made, each in
memory of its own.
-/
namespace Cs241.Shell

open Foundation Cs241.Sstring Cs241.Vector

/-! ## Copies of the words -/

/-- The string in which `sstring_split` has collected a piece. -/
def collected (piece : Text) : Vec UInt8 :=
  { array := fun i => piece.getD i 0, size := piece.length, capacity := piece.length, log := [] }

/-- The pieces as the vector of `sstring_split` gets them, where `malloc` provides a buffer that
holds `fresh k` for the copy of piece `k`; `none` if a byte outside of a buffer is read. -/
def copyPieces (fresh : ℕ → Mem) : List Text → Option (List Text)
  | [] => some []
  | piece :: pieces =>
    (sstringToCstr (fresh 0) (collected piece)).bind fun cstr =>
      (copyPieces (fun k => fresh (k + 1)) pieces).map fun copies =>
        cstr.takeWhile (· ≠ 0) :: copies

/-- `get_args(line)` on the memory that `malloc` provides. -/
def getArgsCopied (mem : Memory) (fresh : ℕ → Mem) (line : Text) : Option Parsed :=
  (copyPieces fresh (split (yeet line).text 32)).map fun args =>
    Parsed.rounds mem { args := args, args1 := [], args2 := [], op := .none } args.length

/-- The byte behind each copy is zero before the copy is made. -/
def Ended (fresh : ℕ → Mem) (pieces : List Text) : Prop :=
  ∀ k piece, pieces[k]? = some piece → fresh k piece.length = 0

section Copies

variable {fresh : ℕ → Mem} {pieces copies : List Text} {piece : Text}

theorem contents_collected (piece : Text) : contents (collected piece) = piece := by
  refine List.ext_getElem? fun i => ?_
  rw [getElem?_contents]
  split_ifs with hi
  · simp only [collected] at hi ⊢
    rw [List.getD_eq_getElem?_getD, List.getElem?_eq_getElem hi, Option.getD_some]
  · rw [List.getElem?_eq_none (Nat.le_of_not_lt hi)]

/-- The copy of a piece is the piece, or it has no end. -/
theorem sstringToCstr_collected (fresh : Mem) (h : 0 ∉ piece) :
    sstringToCstr fresh (collected piece) =
      if fresh piece.length = 0 then some (piece ++ [0]) else none := by
  have hzero : 0 ∉ contents (collected piece) := by rwa [contents_collected]
  split_ifs with hend
  · have hcopy := (sstringToCstr_iff fresh hzero).mpr hend
    rwa [contents_collected] at hcopy
  · have hsize : ¬ fresh (collected piece).size = 0 := hend
    rw [sstringToCstr, strlen_copyChars hzero, if_neg hsize]
    rfl

theorem ended_cons : Ended fresh (piece :: pieces) ↔
    fresh 0 piece.length = 0 ∧ Ended (fun k => fresh (k + 1)) pieces := by
  constructor
  · intro h
    exact ⟨h 0 piece rfl, fun k other hk => h (k + 1) other hk⟩
  · rintro ⟨hpiece, hpieces⟩ k other hk
    cases k with
    | zero =>
      obtain rfl := Option.some.inj hk
      exact hpiece
    | succ k => exact hpieces k other hk

theorem copyPieces_iff (h : ∀ piece ∈ pieces, 0 ∉ piece) :
    copyPieces fresh pieces = some copies ↔ copies = pieces ∧ Ended fresh pieces := by
  induction pieces generalizing fresh copies with
  | nil => simp [copyPieces, Ended, eq_comm]
  | cons piece pieces ih =>
    have hpiece := h piece List.mem_cons_self
    rw [copyPieces, sstringToCstr_collected _ hpiece, ended_cons]
    split_ifs with hend
    · rw [Option.bind_some, Option.map_eq_some_iff, takeWhile_ne_cons hpiece]
      constructor
      · rintro ⟨rest, hrest, rfl⟩
        obtain ⟨rfl, hended⟩ := (ih fun piece hp => h piece (List.mem_cons_of_mem _ hp)).mp hrest
        exact ⟨rfl, hend, hended⟩
      · rintro ⟨rfl, -, hended⟩
        have hrest := (ih fun piece hp => h piece (List.mem_cons_of_mem _ hp)).mpr ⟨rfl, hended⟩
        exact ⟨pieces, hrest, rfl⟩
    · simp [hend]

end Copies

/-! ## Command lines -/

/-- A word that is no operator and does not end in a semicolon. -/
structure Word where
  text : Text
  ne_nil : text ≠ []
  space_not_mem : 32 ∉ text
  newline_not_mem : 10 ∉ text
  zero_not_mem : 0 ∉ text
  ne_and : text ≠ andWord
  ne_or : text ≠ orWord
  no_semicolon : text.getLast? ≠ some 59

/-- The words of a command, of which there is at least one. -/
structure Command where
  front : List Word
  last : Word

namespace Command

variable (X : Command)

def words : List Text := (X.front ++ [X.last]).map Word.text

/-- The words, with single spaces between them. -/
def text : Text := [32].intercalate X.words

end Command

inductive Connective
  | and
  | or
  | seq
deriving DecidableEq

namespace Connective

def op : Connective → Op
  | and => .and
  | or => .or
  | seq => .seq

/-- What stands between the commands. -/
def text : Connective → Text
  | and => [32, 38, 38, 32]
  | or => [32, 124, 124, 32]
  | seq => [59, 32]

end Connective

/-- The lines `X && Y`, `X || Y` and `X; Y`. -/
def commandLine (X : Command) (c : Connective) (Y : Command) : Text := X.text ++ c.text ++ Y.text

/-- The arguments of such a line. The semicolon stays with its word. -/
def arguments (X : Command) (c : Connective) (Y : Command) : List Text :=
  match c with
  | .and => X.words ++ andWord :: Y.words
  | .or => X.words ++ orWord :: Y.words
  | .seq => X.front.map Word.text ++ (X.last.text ++ [59]) :: Y.words

/-- What `get_args` makes of such a line. -/
def parsed (X : Command) (c : Connective) (Y : Command) : Parsed :=
  match c with
  | .and => ⟨X.words ++ andWord :: Y.words, X.words, Y.words, .and⟩
  | .or => ⟨X.words ++ orWord :: Y.words, X.words, Y.words, .or⟩
  | .seq => ⟨X.words ++ Y.words, X.front.map Word.text, X.last.text :: Y.words, .seq⟩

section Lines

variable {X Y : Command} {c : Connective} {ws vs : List Text} {w t : Text} {b : UInt8}

theorem Command.words_ne_nil (X : Command) : X.words ≠ [] := by simp [Command.words]

/-- A byte that is in no word is in none of the arguments of a command. -/
theorem Command.not_mem_words (hb : ∀ w : Word, b ∉ w.text) : ∀ text ∈ X.words, b ∉ text := by
  intro text htext
  obtain ⟨w, -, rfl⟩ := List.mem_map.mp htext
  exact hb w

theorem intercalate_append (hws : ws ≠ []) (hvs : vs ≠ []) :
    [32].intercalate (ws ++ vs) = [32].intercalate ws ++ 32 :: [32].intercalate vs := by
  induction ws with
  | nil => exact absurd rfl hws
  | cons w ws ih =>
    cases ws with
    | nil => simp [List.intercalate_cons_of_ne_nil hvs]
    | cons w' ws =>
      rw [List.cons_append, List.intercalate_cons_of_ne_nil (by simp), ih (by simp),
        List.intercalate_cons_cons]
      simp

theorem intercalate_concat :
    [32].intercalate (ws ++ [w]) ++ t = [32].intercalate (ws ++ [w ++ t]) := by
  cases ws with
  | nil => simp
  | cons v ws =>
    rw [intercalate_append (by simp) (by simp), intercalate_append (by simp) (by simp)]
    simp

theorem not_mem_intercalate (hb : b ≠ 32) (h : ∀ w ∈ ws, b ∉ w) : b ∉ [32].intercalate ws := by
  induction ws with
  | nil => simp [List.intercalate_nil]
  | cons v ws ih =>
    have hv := h v List.mem_cons_self
    have hws := ih fun w hw => h w (List.mem_cons_of_mem _ hw)
    cases ws with
    | nil => simpa using hv
    | cons w ws =>
      rw [List.intercalate_cons_cons]
      simp [hv, hws, hb]

/-- A byte that is in no word and in no operator is in no argument. -/
theorem not_mem_arguments (hb : ∀ w : Word, b ∉ w.text) (hchars : b ∉ [38, 124, 59]) :
    ∀ text ∈ arguments X c Y, b ∉ text := by
  have hX := Command.not_mem_words (X := X) hb
  have hY := Command.not_mem_words (X := Y) hb
  simp only [List.mem_cons, List.not_mem_nil, or_false, not_or] at hchars
  cases c with
  | and =>
    have hop : b ∉ andWord := by simp [andWord, hchars]
    exact List.forall_mem_append.mpr ⟨hX, List.forall_mem_cons.mpr ⟨hop, hY⟩⟩
  | or =>
    have hop : b ∉ orWord := by simp [orWord, hchars]
    exact List.forall_mem_append.mpr ⟨hX, List.forall_mem_cons.mpr ⟨hop, hY⟩⟩
  | seq =>
    have hfront : ∀ text ∈ X.front.map Word.text, b ∉ text :=
      fun text htext => hX text (by simp [Command.words, List.mem_map.mp htext])
    have hlast : b ∉ X.last.text ++ [59] := by simp [hb, hchars]
    exact List.forall_mem_append.mpr ⟨hfront, List.forall_mem_cons.mpr ⟨hlast, hY⟩⟩

/-- An operator of its own between two commands. -/
theorem intercalate_words (X Y : Command) (op : Text) :
    [32].intercalate (X.words ++ op :: Y.words) = X.text ++ 32 :: op ++ 32 :: Y.text := by
  rw [intercalate_append X.words_ne_nil (by simp),
    List.intercalate_cons_of_ne_nil Y.words_ne_nil]
  simp [Command.text]

theorem commandLine_eq (X : Command) (c : Connective) (Y : Command) :
    commandLine X c Y = [32].intercalate (arguments X c Y) := by
  cases c with
  | and =>
    rw [arguments, intercalate_words]
    simp [commandLine, Connective.text, andWord]
  | or =>
    rw [arguments, intercalate_words]
    simp [commandLine, Connective.text, orWord]
  | seq =>
    have hsplit : X.front.map Word.text ++ (X.last.text ++ [59]) :: Y.words =
        (X.front.map Word.text ++ [X.last.text ++ [59]]) ++ Y.words := by simp
    rw [arguments, hsplit, intercalate_append (by simp) Y.words_ne_nil, ← intercalate_concat]
    simp [commandLine, Connective.text, Command.text, Command.words]

theorem arguments_ne_nil : arguments X c Y ≠ [] := by cases c <;> simp [arguments]

/-- The pieces of the line are its arguments. -/
theorem split_commandLine (X : Command) (c : Connective) (Y : Command) :
    split (yeet (commandLine X c Y)).text 32 = arguments X c Y := by
  have hnewline : 10 ∉ commandLine X c Y := by
    rw [commandLine_eq]
    exact not_mem_intercalate (by decide) (not_mem_arguments Word.newline_not_mem (by decide))
  have hyeet : (yeet (commandLine X c Y)).text = commandLine X c Y :=
    congrArg Line.text (yeet_text ⟨_, hnewline⟩)
  rw [hyeet, split_eq_splitOn, commandLine_eq]
  exact List.splitOn_intercalate 32 (not_mem_arguments Word.space_not_mem (by decide))
    arguments_ne_nil

end Lines

/-! ## The rounds -/

section Rounds

variable {mem : Memory} {p q : Parsed} {i n m : ℕ} {l r : List Text} {w : Word} {X Y : Command}

theorem modify_append_cons (f : Text → Text) (arg : Text) :
    (l ++ arg :: r).modify l.length f = l ++ f arg :: r := by
  induction l with
  | nil => rfl
  | cons word l ih => simpa [List.modify_succ_cons] using ih

/-- An argument without a newline stays as it is. -/
theorem modify_yeet {args : List Text} {arg : Text} (h : args[i]? = some arg) (hnl : 10 ∉ arg) :
    (args.modify i fun arg => (yeet arg).text) = args := by
  have hyeet : (yeet arg).text = arg := congrArg Line.text (yeet_text ⟨arg, hnl⟩)
  refine List.ext_getElem? fun j => ?_
  rw [List.getElem?_modify]
  by_cases hij : i = j
  · subst hij
    simp [h, hyeet]
  · simp [hij]

theorem Word.getLastD_ne (w : Word) (before : UInt8) : w.text.getLastD before ≠ 59 := by
  have hlast := List.getLast?_eq_some_getLast w.ne_nil
  intro hsemicolon
  rw [List.getLastD_eq_getLast?, hlast, Option.getD_some] at hsemicolon
  exact w.no_semicolon (hlast.trans (congrArg some hsemicolon))

/-- A word changes nothing. -/
theorem Parsed.round_word (h : p.args[i]? = some w.text) : p.round mem i = p := by
  have hyeet := modify_yeet h w.newline_not_mem
  have hget : p.args.getD i [] = w.text := by rw [List.getD_eq_getElem?_getD, h, Option.getD_some]
  unfold Parsed.round
  dsimp only
  rw [hyeet, hget, if_neg w.ne_and, if_neg w.ne_or, if_neg (w.getLastD_ne _)]

theorem Parsed.rounds_words (hq : p.rounds mem n = q) (hnm : n ≤ m)
    (h : ∀ j, n ≤ j → j < m → ∃ w : Word, q.args[j]? = some w.text) : p.rounds mem m = q := by
  induction m, hnm using Nat.le_induction with
  | base => exact hq
  | succ m hnm ih =>
    obtain ⟨w, hw⟩ := h m hnm (Nat.lt_succ_self m)
    rw [Parsed.rounds, ih fun j hj hjm => h j hj (Nat.lt_succ_of_lt hjm), Parsed.round_word hw]

/-- At an operator of its own. -/
theorem Parsed.round_and (h : p.args = l ++ andWord :: r) :
    p.round mem l.length = ⟨p.args, p.args1 ++ l, p.args2 ++ r, .and⟩ := by
  have hget : p.args[l.length]? = some andWord := by simp [h]
  have hyeet := modify_yeet hget (by decide)
  unfold Parsed.round
  dsimp only
  rw [hyeet, List.getD_eq_getElem?_getD, hget, Option.getD_some, if_pos rfl, h]
  simp

theorem Parsed.round_or (h : p.args = l ++ orWord :: r) :
    p.round mem l.length = ⟨p.args, p.args1 ++ l, p.args2 ++ r, .or⟩ := by
  have hget : p.args[l.length]? = some orWord := by simp [h]
  have hyeet := modify_yeet hget (by decide)
  unfold Parsed.round
  dsimp only
  rw [hyeet, List.getD_eq_getElem?_getD, hget, Option.getD_some, if_neg (by decide), if_pos rfl, h]
  simp

/-- The semicolon is taken off its word, and the word to the right. -/
theorem Parsed.round_seq (h : p.args = l ++ (w.text ++ [59]) :: r) :
    p.round mem l.length =
      ⟨l ++ w.text :: r, p.args1 ++ l, p.args2 ++ w.text :: r, .seq⟩ := by
  have hget : p.args[l.length]? = some (w.text ++ [59]) := by simp [h]
  have hyeet := modify_yeet hget (by simp [w.newline_not_mem])
  have hne : ∀ word : Text, word.getLast? ≠ some 59 → w.text ++ [59] ≠ word := by
    rintro word hword rfl
    exact hword (by simp)
  have hskeet : (l ++ (w.text ++ [59]) :: r).modify l.length skeet = l ++ w.text :: r := by
    rw [modify_append_cons, skeet, List.dropLast_concat]
  unfold Parsed.round
  dsimp only
  rw [hyeet, List.getD_eq_getElem?_getD, hget, Option.getD_some, if_neg (hne _ (by decide)),
    if_neg (hne _ (by decide)), if_pos (by simp), h, hskeet]
  simp

theorem exists_word {ws : List Word} (hi : i < ws.length) :
    ∃ w : Word, (ws.map Word.text)[i]? = some w.text :=
  ⟨ws[i], by rw [List.getElem?_map, List.getElem?_eq_getElem hi, Option.map_some]⟩

/-- Words on both sides of an argument: only the round of that argument counts. -/
theorem Parsed.rounds_between (ws vs : List Word) {a b : Text}
    (hp : p.args = ws.map Word.text ++ a :: vs.map Word.text)
    (hround : p.round mem ws.length = q)
    (hq : q.args = ws.map Word.text ++ b :: vs.map Word.text) :
    p.rounds mem p.args.length = q := by
  have hleft : p.rounds mem ws.length = p := by
    refine Parsed.rounds_words rfl (Nat.zero_le _) fun j _ hj => ?_
    rw [hp, List.getElem?_append_left (by simpa using hj)]
    exact exists_word hj
  have hmiddle : p.rounds mem (ws.length + 1) = q := by rw [Parsed.rounds, hleft, hround]
  have hlength : p.args.length = ws.length + 1 + vs.length := by
    simp only [hp, List.length_append, List.length_map, List.length_cons]
    omega
  refine Parsed.rounds_words hmiddle (by omega) fun j hj hjm => ?_
  obtain ⟨k, rfl⟩ := Nat.exists_eq_add_of_le hj
  rw [hq, List.getElem?_append_right (by simp; omega), List.length_map,
    show ws.length + 1 + k - ws.length = k + 1 by omega, List.getElem?_cons_succ]
  exact exists_word (by omega)

theorem getArgs_commandLine (mem : Memory) (X : Command) (c : Connective) (Y : Command) :
    getArgs mem (commandLine X c Y) = parsed X c Y := by
  have hlength : (X.front ++ [X.last]).length = X.words.length := (List.length_map _).symm
  rw [getArgs, split_commandLine]
  cases c with
  | and =>
    refine Parsed.rounds_between (X.front ++ [X.last]) (Y.front ++ [Y.last]) rfl ?_ rfl
    rw [hlength, Parsed.round_and (r := Y.words) rfl]
    rfl
  | or =>
    refine Parsed.rounds_between (X.front ++ [X.last]) (Y.front ++ [Y.last]) rfl ?_ rfl
    rw [hlength, Parsed.round_or (r := Y.words) rfl]
    rfl
  | seq =>
    have hfront : X.front.length = (X.front.map Word.text).length := (List.length_map _).symm
    refine Parsed.rounds_between X.front (Y.front ++ [Y.last]) rfl ?_
      (q := parsed X .seq Y) (b := X.last.text) (by simp [parsed, Command.words])
    rw [hfront, Parsed.round_seq (w := X.last) (r := Y.words) rfl]
    simp [parsed, Command.words]

end Rounds

/-- `get_args` puts the words of both commands in their places, and the operator, exactly if the
operator is `&&` or `||` and the copies of the words have found zeros to end with. -/
theorem getArgs_operator_iff (mem : Memory) (fresh : ℕ → Mem) (X : Command) (c : Connective)
    (Y : Command) :
    (∃ p, getArgsCopied mem fresh (commandLine X c Y) = some p ∧
      p.op = c.op ∧ p.args1 = X.words ∧ p.args2 = Y.words) ↔
    (c = .and ∨ c = .or) ∧ Ended fresh (arguments X c Y) := by
  have hcopies := @copyPieces_iff fresh (arguments X c Y)
  have hzero : ∀ piece ∈ arguments X c Y, 0 ∉ piece :=
    not_mem_arguments Word.zero_not_mem (by decide)
  have hparsed := getArgs_commandLine mem X c Y
  rw [getArgs, split_commandLine] at hparsed
  rw [getArgsCopied, split_commandLine]
  constructor
  · rintro ⟨p, hp, -, hargs1, -⟩
    obtain ⟨args, hargs, rfl⟩ := Option.map_eq_some_iff.mp hp
    obtain ⟨rfl, hended⟩ := (copyPieces_iff hzero).mp hargs
    refine ⟨?_, hended⟩
    rw [hparsed] at hargs1
    cases c with
    | and => exact .inl rfl
    | or => exact .inr rfl
    | seq =>
      -- the last word of the left command is missing
      exact absurd (congrArg List.length hargs1) (by simp [parsed, Command.words])
  · rintro ⟨hc, hended⟩
    refine ⟨parsed X c Y, ?_, ?_⟩
    · rw [(copyPieces_iff hzero).mpr ⟨rfl, hended⟩, Option.map_some, hparsed]
    · rcases hc with rfl | rfl <;> exact ⟨rfl, rfl, rfl⟩

/-- The word of one letter. -/
def letter (b : UInt8) (h : b ∉ [32, 10, 0, 59]) : Word where
  text := [b]
  ne_nil := List.cons_ne_nil _ _
  space_not_mem hb := h (List.mem_singleton.mp hb ▸ by simp)
  newline_not_mem hb := h (List.mem_singleton.mp hb ▸ by simp)
  zero_not_mem hb := h (List.mem_singleton.mp hb ▸ by simp)
  ne_and hb := absurd (congrArg List.length hb) (by simp [andWord])
  ne_or hb := absurd (congrArg List.length hb) (by simp [orWord])
  no_semicolon hb := h (Option.some.inj hb ▸ by simp)

/-- Of the line `a; b` the left command comes out empty, and `a` goes to the right. -/
theorem not_getArgs_seq :
    commandLine ⟨[], letter 97 (by decide)⟩ .seq ⟨[], letter 98 (by decide)⟩ = [97, 59, 32, 98] ∧
    ¬ ∃ p, getArgsCopied ⟨fun _ => 0, 0⟩ (fun _ _ => 0) [97, 59, 32, 98] = some p ∧
      p.op = .seq ∧ p.args1 = [[97]] ∧ p.args2 = [[98]] := by
  refine ⟨by decide, ?_⟩
  rintro ⟨p, hp, -, hargs1, -⟩
  have hempty : (getArgsCopied ⟨fun _ => 0, 0⟩ (fun _ _ => 0) [97, 59, 32, 98]).map
      Parsed.args1 = some [] := by decide
  rw [hp, Option.map_some, hargs1] at hempty
  simp at hempty

end Cs241.Shell
