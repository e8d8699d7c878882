import Cs241.Shell.History
import Cs241.Shell.Operators

/-!
# Scripts

A script is a list of statements: a command, two commands with an operator between
them, or nothing. What the shell does with the text of a script is what its statements
mean, with a history of statements. An entry that is run again is one command, whatever
operator it has.
-/
namespace Cs241.Shell

open Foundation

/-- `loop()` on the lines that `getline` reads. -/
def loop (mem : Memory) (world : World) (s : State) : List Text → Option State
  | [] => some s
  | line :: lines => (round mem world s line).bind fun r =>
    if r.2 then loop mem world r.1 lines else some r.1

/-! ## Statements -/

inductive Statement
  | single (X : Command)
  | pair (X : Command) (c : Connective) (Y : Command)

namespace Statement

def text : Statement → Text
  | single X => X.text
  | pair X c Y => commandLine X c Y

/-- The commands of the statement. -/
def parsed : Statement → Parsed
  | single X => { args := X.words, args1 := [], args2 := [], op := .none }
  | pair X c Y => Shell.parsed X c Y

/-- The words of the statement as one command. -/
def words (st : Statement) : List Text := st.parsed.args

def name (st : Statement) : Text := st.words.headD []

end Statement

section Texts

variable {b : UInt8} {st : Statement}

theorem split_command (X : Command) : Sstring.split (yeet X.text).text 32 = X.words := by
  have hnewline : 10 ∉ X.text :=
    not_mem_intercalate (by decide) (Command.not_mem_words Word.newline_not_mem)
  have hyeet : (yeet X.text).text = X.text := congrArg Line.text (yeet_text ⟨_, hnewline⟩)
  rw [hyeet, Sstring.split_eq_splitOn, Command.text]
  exact List.splitOn_intercalate 32 (Command.not_mem_words Word.space_not_mem) X.words_ne_nil

/-- A command without an operator stays as it is. -/
theorem getArgs_command (mem : Memory) (X : Command) :
    getArgs mem X.text = (Statement.single X).parsed := by
  rw [getArgs, split_command]
  refine Parsed.rounds_words rfl (Nat.zero_le _) fun j _ hj => ?_
  exact exists_word (by simpa [Command.words] using hj)

namespace Statement

theorem getArgs_text (mem : Memory) (st : Statement) : getArgs mem st.text = st.parsed := by
  cases st with
  | single X => exact getArgs_command mem X
  | pair X c Y => exact getArgs_commandLine mem X c Y

theorem not_mem_text (hb : ∀ w : Word, b ∉ w.text) (hchars : b ∉ [32, 38, 124, 59]) :
    b ∉ st.text := by
  have hspace : b ≠ 32 := List.ne_of_not_mem_cons hchars
  have hops : b ∉ [38, 124, 59] := List.not_mem_of_not_mem_cons hchars
  cases st with
  | single X => exact not_mem_intercalate hspace (Command.not_mem_words hb)
  | pair X c Y =>
    rw [text, commandLine_eq]
    exact not_mem_intercalate hspace (not_mem_arguments hb hops)

def line (st : Statement) : Line where
  text := st.text
  newline_not_mem := not_mem_text Word.newline_not_mem (by decide)

theorem words_ne_nil : ∀ text ∈ st.words, text ≠ [] := by
  have hwords (X : Command) : ∀ text ∈ X.words, text ≠ [] := by
    intro text htext
    obtain ⟨w, -, rfl⟩ := List.mem_map.mp htext
    exact w.ne_nil
  cases st with
  | single X => exact hwords X
  | pair X c Y =>
    have hop {op : Text} (hne : op ≠ []) : ∀ text ∈ X.words ++ op :: Y.words, text ≠ [] :=
      List.forall_mem_append.mpr ⟨hwords X, List.forall_mem_cons.mpr ⟨hne, hwords Y⟩⟩
    cases c with
    | and => exact hop (by decide)
    | or => exact hop (by decide)
    | seq => exact List.forall_mem_append.mpr ⟨hwords X, hwords Y⟩

theorem text_ne_nil : st.text ≠ [] := by
  intro hnil
  have hwords : st.words = [[]] := by
    have hparsed := getArgs_text ⟨fun _ => 0, 0⟩ st
    rw [hnil] at hparsed
    exact (congrArg Parsed.args hparsed).symm
  have hnot := @words_ne_nil st [] (by simp [hwords])
  exact hnot rfl

end Statement

end Texts

/-! ## What statements mean -/

/-- The statements in the history, and what was done. -/
structure Session where
  history : List Statement
  log : List Event

namespace Session

variable (mem : Memory) (world : World)

def push (s : Session) (st : Statement) : Session := { s with history := s.history ++ [st] }

def did (s : Session) (event : Event) : Session := { s with log := s.log ++ [event] }

/-- A command starts one program, or changes the directory, which also adds the statement that was
typed to the history. -/
def perform (s : Session) (typed : Statement) : List Text → Option (Session × Bool)
  | [] => none
  | name :: arguments =>
    if name = cdWord then
      let s := s.push typed
      match arguments with
      | [] => some (s, false)
      | dir :: _ => some (if world.chdir s.log dir then (s.did (.directory dir), true) else (s, false))
    else
      match world.fork s.log (name :: arguments) with
      | none => some (s.did .noFork, false)
      | some ok => some (s.did (.program (name :: arguments)), ok)

/-- The operator decides whether the command on the right is run. -/
def execute (s : Session) (typed : Statement) (p : Parsed) : Option Session :=
  if p.op = .none then (s.perform world typed p.args).map Prod.fst
  else (s.perform world typed p.args1).bind fun r =>
    if p.op.second r.2 then (r.1.perform world typed p.args2).map Prod.fst else some r.1

/-- The entry with the number behind `#`, the last one for `!`, or the last one that starts with
what stands behind `!`. -/
def selected (s : Session) (st : Statement) : Option Statement :=
  if st.name.head? = some 35 then
    s.history[((scanNumber (st.name.drop 1)).map toSize).getD mem.num]?
  else if st.name.length = 1 then s.history.getLast?
  else s.history.reverse.find? fun entry => (st.text.drop 1).isPrefixOf entry.text

/-- What typing a statement means, and whether the shell goes on. -/
def type (s : Session) (st : Statement) : Option (Session × Bool) :=
  if st.name = exitWord then some (s, false)
  else if st.name = historyWord then some (s, true)
  else if st.name.head? = some 35 ∨ st.name.head? = some 33 then
    match s.selected mem st with
    | some entry => ((s.push entry).perform world st entry.words).map fun r => (r.1, true)
    | none => some (s, true)
  else ((s.push st).execute world st st.parsed).map fun s => (s, true)

/-- What a script means, in which `none` is an empty line. -/
def run (s : Session) : List (Option Statement) → Option Session
  | [] => some s
  | none :: script => s.run script
  | some st :: script => (s.type mem world st).bind fun r => if r.2 then r.1.run script else some r.1

/-- The variables of the shell in a session. -/
def state (s : Session) (line : Line) : State :=
  { history := s.history.map Statement.line, line := line, log := s.log }

end Session

/-! ## One statement -/

section Rounds

variable {mem : Memory} {world : World} {s : Session} {st typed : Statement} {p : Parsed}
  {words : List Text}

theorem Session.state_push (line : Line) :
    (s.push st).state line = (s.state line).push st.line := by
  simp [Session.state, Session.push, State.push]

theorem spoon_state (world : World) (s : Session) (typed : Statement) (words : List Text) :
    spoon world (s.state typed.line) words =
      (s.perform world typed words).map fun r => (r.1.state typed.line, r.2) := by
  cases words with
  | nil => rfl
  | cons name arguments =>
    rw [spoon, Session.perform]
    split_ifs with hcd
    · have hpush : (s.state typed.line).push (s.state typed.line).line =
          (s.push typed).state typed.line := (Session.state_push typed.line).symm
      rw [hpush]
      cases arguments with
      | nil => rfl
      | cons dir arguments =>
        show some (if world.chdir s.log dir then _ else _) =
          Option.map _ (some (if world.chdir s.log dir then _ else _))
        cases world.chdir s.log dir <;> rfl
    · show (match world.fork s.log (name :: arguments) with | none => _ | some ok => _) = _
      cases world.fork s.log (name :: arguments) <;> rfl

theorem ordinary_state (world : World) (s : Session) (typed : Statement) (p : Parsed) :
    (ordinary world (s.state typed.line) p).map Prod.fst =
      (s.execute world typed p).map fun s => s.state typed.line := by
  rw [Session.execute]
  split_ifs with hop
  · rw [ordinary, hop]
    show (spoon world (s.state typed.line) p.args).map Prod.fst = _
    rw [spoon_state, Option.map_map, Option.map_map]
    rfl
  · rw [ordinary_op hop, spoon_state]
    cases s.perform world typed p.args1 with
    | none => rfl
    | some r =>
      show (if p.op.second r.2 then _ else _ : Option (State × Bool)).map Prod.fst = _
      rw [Option.bind_some]
      split_ifs
      · rw [spoon_state, Option.map_map, Option.map_map]
        rfl
      · rfl

theorem nthCmd_state (mem : Memory) (s : Session) (line : Line) (word : Text) :
    nthCmd mem (s.state line) word =
      s.history[((scanNumber (word.drop 1)).map toSize).getD mem.num]?.map Statement.line := by
  rw [nthCmd]
  cases scanNumber (word.drop 1) <;> exact List.getElem?_map ..

theorem prefixCmd_state (hlength : s.history.length < 2 ^ 31) (word : Text) :
    prefixCmd (s.state st.line) word =
      (if word.length = 1 then s.history.getLast? else s.history.reverse.find? fun entry =>
        (st.text.drop 1).isPrefixOf entry.text).map Statement.line := by
  rw [prefixCmd]
  split_ifs
  · exact List.getLast?_map ..
  · have hsize : (toInt (s.state st.line).history.length).toNat = s.history.length := by
      rw [Session.state, List.length_map, toInt_of_lt (Int.natCast_nonneg _) (by exact_mod_cast hlength),
        Int.toNat_natCast]
    have hall : (s.state st.line).history.take s.history.length = s.history.map Statement.line :=
      List.take_of_length_le (List.length_map _).le
    dsimp only
    rw [hsize, hall, ← List.map_reverse, List.find?_map]
    refine congrArg (Option.map Statement.line) (congrArg (fun P => List.find? P _) ?_)
    funext entry
    rw [Function.comp_apply, Bool.eq_iff_iff, decide_eq_true_eq, List.isPrefixOf_iff_prefix,
      List.prefix_iff_eq_take]
    exact eq_comm

theorem replay_state (mem : Memory) (world : World) (s : Session) (entry typed : Statement) :
    replay mem world (s.state typed.line) entry.line =
      ((s.push entry).perform world typed entry.words).map fun r =>
        (r.1.state typed.line, r.2) := by
  have hwords : (getArgs mem entry.line.text).args = entry.words :=
    congrArg Parsed.args (Statement.getArgs_text mem entry)
  rw [replay, hwords, ← Session.state_push, spoon_state]

/-- Typing the text of a statement does what the statement means. -/
theorem round_state (mem : Memory) (world : World) (line : Line)
    (hlength : s.history.length < 2 ^ 31) :
    round mem world (s.state line) (st.text ++ [10]) =
      (s.type mem world st).map fun r => (r.1.state st.line, r.2) := by
  have hraw : st.text ++ [10] ≠ [10] := by simpa using Statement.text_ne_nil
  have hyeet : yeet (st.text ++ [10]) = st.line := yeet_newline st.line
  have hparsed : getArgs mem (st.text ++ [10]) = st.parsed :=
    (@getArgs_newline mem st.line).trans (Statement.getArgs_text mem st)
  have hstate : { s.state line with line := st.line } = s.state st.line := rfl
  have hname : st.parsed.args.headD [] = st.name := rfl
  unfold round
  dsimp only
  rw [if_neg hraw, hyeet, hparsed, hstate, hname, Session.type]
  by_cases hexit : st.name = exitWord
  · rw [if_pos hexit, if_pos hexit]
    rfl
  by_cases hhistory : st.name = historyWord
  · rw [if_neg hexit, if_pos hhistory, if_neg hexit, if_pos hhistory]
    rfl
  rw [if_neg hexit, if_neg hhistory, if_neg hexit, if_neg hhistory]
  by_cases hnth : st.name.head? = some 35
  · rw [if_pos hnth, if_pos (.inl hnth), nthCmd_state, Session.selected, if_pos hnth]
    cases s.history[((scanNumber (st.name.drop 1)).map toSize).getD mem.num]? with
    | none => rfl
    | some entry =>
      dsimp only [Option.map_some]
      rw [replay_state, Option.map_map, Option.map_map]
      rfl
  by_cases hprefix : st.name.head? = some 33
  · rw [if_neg hnth, if_pos hprefix, if_pos (.inr hprefix), prefixCmd_state hlength,
      Session.selected, if_neg hnth]
    cases (if st.name.length = 1 then s.history.getLast? else
        s.history.reverse.find? fun entry => (st.text.drop 1).isPrefixOf entry.text) with
    | none => rfl
    | some entry =>
      dsimp only [Option.map_some]
      rw [replay_state, Option.map_map, Option.map_map]
      rfl
  rw [if_neg hnth, if_neg hprefix, if_neg (not_or.mpr ⟨hnth, hprefix⟩)]
  have hordinary := ordinary_state world (s.push st) st st.parsed
  rw [Session.state_push] at hordinary
  rw [Option.map_map]
  calc ((ordinary world ((s.state st.line).push st.line) st.parsed).map fun r => (r.1, true))
      = ((ordinary world ((s.state st.line).push st.line) st.parsed).map Prod.fst).map
          fun s => (s, true) := by
        rw [Option.map_map]
        rfl
    _ = ((s.push st).execute world st st.parsed).map fun s => (s.state st.line, true) := by
        rw [hordinary, Option.map_map]
        rfl

/-! ## Whole scripts -/

theorem Session.perform_length {r : Session × Bool} (h : s.perform world typed words = some r) :
    r.1.history.length ≤ s.history.length + 1 := by
  have hpush : (s.push typed).history.length = s.history.length + 1 := List.length_append
  cases words with
  | nil => cases h
  | cons name arguments =>
    rw [Session.perform] at h
    split_ifs at h
    · cases arguments with
      | nil =>
        obtain rfl := Option.some.inj h
        exact hpush.le
      | cons dir arguments =>
        obtain rfl := Option.some.inj h
        split_ifs
        · exact hpush.le
        · exact hpush.le
    · split at h
      · obtain rfl := Option.some.inj h
        exact Nat.le_succ _
      · obtain rfl := Option.some.inj h
        exact Nat.le_succ _

theorem Session.execute_length {s' : Session} (h : s.execute world typed p = some s') :
    s'.history.length ≤ s.history.length + 2 := by
  rw [Session.execute] at h
  split_ifs at h
  · obtain ⟨r, hr, rfl⟩ := Option.map_eq_some_iff.mp h
    have hleft := Session.perform_length hr
    omega
  · obtain ⟨r, hr, hrest⟩ := Option.bind_eq_some_iff.mp h
    have hleft := Session.perform_length hr
    split_ifs at hrest
    · obtain ⟨r', hr', rfl⟩ := Option.map_eq_some_iff.mp hrest
      have hright := Session.perform_length hr'
      omega
    · obtain rfl := Option.some.inj hrest
      omega

theorem Session.type_length {r : Session × Bool} (h : s.type mem world st = some r) :
    r.1.history.length ≤ s.history.length + 3 := by
  have hpush (entry : Statement) : (s.push entry).history.length = s.history.length + 1 :=
    List.length_append
  rw [Session.type] at h
  split_ifs at h
  · obtain rfl := Option.some.inj h
    exact Nat.le_add_right _ _
  · obtain rfl := Option.some.inj h
    exact Nat.le_add_right _ _
  · split at h
    · next entry _ =>
      obtain ⟨r', hr', rfl⟩ := Option.map_eq_some_iff.mp h
      have hlength := Session.perform_length hr'
      rw [hpush entry] at hlength
      exact hlength.trans (by omega)
    · obtain rfl := Option.some.inj h
      exact Nat.le_add_right _ _
  · obtain ⟨s', hs', rfl⟩ := Option.map_eq_some_iff.mp h
    have hlength := Session.execute_length hs'
    rw [hpush st] at hlength
    exact hlength.trans (by omega)

end Rounds

/-- The text of a script, in which each line ends with a newline. -/
def scriptText (script : List (Option Statement)) : Text :=
  script.flatMap fun st => (st.elim [] Statement.text) ++ [10]

/-- The history and what was done. -/
def State.view (s : State) : List Line × List Event := (s.history, s.log)

/-- The word `#0`. -/
def firstEntry : Word where
  text := [35, 48]
  ne_nil := by decide
  space_not_mem := by decide
  newline_not_mem := by decide
  zero_not_mem := by decide
  ne_and := by decide
  ne_or := by decide
  no_semicolon := by decide

/-- The line `a && b`. -/
def bothLetters : Statement := .pair ⟨[], letter 97 (by decide)⟩ .and ⟨[], letter 98 (by decide)⟩

end Cs241.Shell
