import Mathlib.Data.List.TakeWhile
import Cs241.Foundation.Ctype
import Cs241.Foundation.Integers
import Cs241.Sstring.Model

/-!
# The loop of `shell/shell.c`

One round of `loop()` for each line that is read. What the shell does to the outside is
recorded: the programs it starts, with their arguments, and the directories it changes
to. How these end depends on everything that happened before. Messages are left out.

A function answers `none` where an assertion of the vector fails, which is where the
first word of a command without words is looked up.
-/
namespace Cs241.Shell

open Ctype Foundation

/-- A string of C, without its terminator. -/
abbrev Text := List UInt8

/-- A text without a newline. -/
structure Line where
  text : Text
  newline_not_mem : 10 ∉ text
deriving DecidableEq

/-- `yeet(target)` cuts the text off at its first newline. -/
def yeet (target : Text) : Line where
  text := target.takeWhile fun c => c ≠ 10
  newline_not_mem h := by simpa using List.mem_takeWhile_imp h

/-- `skeet(target)`; of an empty text it overwrites the byte before. -/
def skeet (target : Text) : Text := target.dropLast

/-! ## Words -/

def cdWord : Text := [99, 100]
def exitWord : Text := [101, 120, 105, 116]
def historyWord : Text := [33, 104, 105, 115, 116, 111, 114, 121]
def andWord : Text := [38, 38]
def orWord : Text := [124, 124]

/-- The value of `op`. -/
inductive Op
  | none
  | and
  | or
  | seq
deriving DecidableEq

/-- `args`, `args1`, `args2` and `op`. -/
structure Parsed where
  args : List Text
  args1 : List Text
  args2 : List Text
  op : Op

/-- What is read without having been written: the byte before an empty argument, and the number
that `nth_cmd` goes on with if it finds none. -/
structure Memory where
  before : ℕ → UInt8
  num : ℕ

section Parsing

variable (mem : Memory)

/-- One round of the loop of `get_args`. -/
def Parsed.round (p : Parsed) (i : ℕ) : Parsed :=
  let args := p.args.modify i fun arg => (yeet arg).text
  let arg := args.getD i []
  if arg = andWord then
    { args := args, args1 := p.args1 ++ args.take i, args2 := p.args2 ++ args.drop (i + 1)
      op := .and }
  else if arg = orWord then
    { args := args, args1 := p.args1 ++ args.take i, args2 := p.args2 ++ args.drop (i + 1)
      op := .or }
  else if arg.getLastD (mem.before i) = 59 then
    -- The argument that ends with a semicolon goes to the right.
    let args := args.modify i skeet
    { args := args, args1 := p.args1 ++ args.take i, args2 := p.args2 ++ args.drop i
      op := .seq }
  else { p with args := args }

/-- After the first rounds. -/
def Parsed.rounds (p : Parsed) : ℕ → Parsed
  | 0 => p
  | n + 1 => (p.rounds n).round mem n

/-- `get_args(line)` -/
def getArgs (line : Text) : Parsed :=
  let args := Sstring.split (yeet line).text 32
  Parsed.rounds mem { args := args, args1 := [], args2 := [], op := .none } args.length

end Parsing

/-! ## Commands -/

inductive Event
  | program (args : List Text)
  | noFork
  | directory (dir : Text)
deriving DecidableEq

/-- What the outside decides: whether a process can be forked, and if so whether its program
succeeds, and whether a directory can be changed to. -/
structure World where
  fork : List Event → List Text → Option Bool
  chdir : List Event → Text → Bool

/-- The variables of the shell, and what it did. -/
structure State where
  history : List Line
  line : Line
  log : List Event

section Commands

variable (mem : Memory) (world : World)

def State.push (s : State) (line : Line) : State := { s with history := s.history ++ [line] }

def State.did (s : State) (event : Event) : State := { s with log := s.log ++ [event] }

/-- `change_directory(args)` -/
def changeDirectory (s : State) : List Text → State × Bool
  | _ :: dir :: _ => if world.chdir s.log dir then (s.did (.directory dir), true) else (s, false)
  | _ => (s, false)

/-- `spoon(args)` -/
def spoon (s : State) (args : List Text) : Option (State × Bool) :=
  match args with
  | [] => none
  | command :: _ =>
    if command = cdWord then some (changeDirectory world (s.push s.line) args)
    else match world.fork s.log args with
      | none => some (s.did .noFork, false)
      | some ok => some (s.did (.program args), ok)

/-- The number that `sscanf` finds with `%zd`; one that does not fit becomes the closest one. -/
def scanNumber (text : Text) : Option ℤ :=
  let text := text.dropWhile isSpace
  let digits := (if text.head? = some 43 ∨ text.head? = some 45 then text.tail else text).takeWhile
    isDigit
  let value : ℤ := digits.foldl (fun n c => 10 * n + (c.toNat - 48)) 0
  if digits = [] then none
  else some (max (-2 ^ 63) (min (2 ^ 63 - 1) (if text.head? = some 45 then -value else value)))

/-- The entry that `nth_cmd()` takes. -/
def nthCmd (s : State) (word : Text) : Option Line :=
  let num := match scanNumber (word.drop 1) with
    | some n => toSize n
    | none => mem.num
  s.history[num]?

/-- The entry that `prefix()` takes: the last one, or the last one that starts with the text after
the exclamation mark. -/
def prefixCmd (s : State) (word : Text) : Option Line :=
  if word.length = 1 then s.history.getLast?
  else
    let size := toInt s.history.length
    let query := s.line.text.drop 1
    (s.history.take size.toNat).reverse.find? fun entry => entry.text.take query.length = query

/-- An entry is parsed, added to the history again and run. -/
def replay (s : State) (past : Line) : Option (State × Bool) :=
  spoon world (s.push past) (getArgs mem past.text).args

/-- The branch of `loop()` for a line of its own. -/
def ordinary (s : State) (p : Parsed) : Option (State × Bool) :=
  match p.op with
  | .and => do
    let (s, ok) ← spoon world s p.args1
    if ok then spoon world s p.args2 else some (s, ok)
  | .or => do
    let (s, ok) ← spoon world s p.args1
    if !ok then spoon world s p.args2 else some (s, ok)
  | .seq => do
    let (s, _) ← spoon world s p.args1
    spoon world s p.args2
  | .none => spoon world s p.args

/-- One round of `loop()` for the line that was read, and whether there is another one. -/
def round (s : State) (raw : Text) : Option (State × Bool) :=
  if raw = [10] then some (s, true)
  else
    let s := { s with line := yeet raw }
    let p := getArgs mem raw
    let word := p.args.headD []
    if word = exitWord then some (s, false)
    else if word = historyWord then some (s, true)
    else if word.head? = some 35 then
      match nthCmd mem s word with
      | some past => (replay mem world s past).map fun r => (r.1, true)
      | none => some (s, true)
    else if word.head? = some 33 then
      match prefixCmd s word with
      | some past => (replay mem world s past).map fun r => (r.1, true)
      | none => some (s, true)
    else (ordinary world (s.push s.line) p).map fun r => (r.1, true)

end Commands

end Cs241.Shell
