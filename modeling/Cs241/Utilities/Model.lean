import Mathlib.Data.List.TakeWhile
import Mathlib.Logic.Function.Basic

/-!
# The `env` utility of `utilities_unleashed/env.c`

The arguments are those behind `argv[0]`. What is modelled is the child, where `fork`
succeeds. The messages of `format.h` end the program. The changes of the environment
are recorded in order.
-/
namespace Cs241.Utilities

/-- A string of C, without its terminator. -/
abbrev Text := List UInt8

/-- What can be the name of a variable. -/
def IsName (name : Text) : Prop := name ≠ [] ∧ 61 ∉ name

instance (name : Text) : Decidable (IsName name) := inferInstanceAs (Decidable (_ ∧ _))

structure Environment where
  getenv : Text → Option Text
  isName : ∀ {name}, getenv name ≠ none → IsName name

def Environment.set (env : Environment) (name value : Text) (h : IsName name) : Environment where
  getenv := Function.update env.getenv name (some value)
  isName := by
    intro other hother
    by_cases hname : other = name
    · exact hname ▸ h
    · exact env.isName (by rwa [Function.update_of_ne hname] at hother)

/-- `setenv(name, value, 1)`; `none` where it returns -1. -/
def Environment.setenv (env : Environment) (name value : Text) : Option Environment :=
  if h : IsName name then some (env.set name value h) else none

/-- The ways in which the child ends without running a program. -/
inductive Stop
  | usage
  | environmentChangeFailed
  | crash
deriving DecidableEq

inductive Outcome
  | stopped (stop : Stop)
  | executed (execInputs : List Text) (env : Environment) (changes : List (Text × Text))

/-- The argument `--`. -/
def dashes : Text := [45, 45]

structure Counts where
  envCount : ℕ
  execCount : ℕ
  execArgs : Bool
deriving DecidableEq

/-- One round of the loop that counts. -/
def Counts.next (c : Counts) (arg : Text) : Counts :=
  if arg = dashes then { c with execArgs := true }
  else if c.execArgs then { c with execCount := c.execCount + 1 }
  else { c with envCount := c.envCount + 1 }

def counts (argv : List Text) : Counts := argv.foldl Counts.next ⟨0, 0, false⟩

/-- `strtok(str, "=")`: the token, and where the search for another one starts. -/
def strtok (str : Text) : Option (Text × Text) :=
  let str := str.dropWhile fun c => c = 61
  if str = [] then none
  else some (str.takeWhile fun c => c ≠ 61, (str.dropWhile fun c => c ≠ 61).tail)

/-- A value, or the reason to stop. -/
def orStop {α : Type} (stop : Stop) (x : Option α) : Except Stop α := x.elim (.error stop) .ok

/-- The second token of an assignment, or the value of the variable that it names. -/
def currVal (env : Environment) (str : Text) : Except Stop Text := do
  let token ← orStop .crash (strtok str)
  if token.1.head? = some 37 then orStop .environmentChangeFailed (env.getenv token.1.tail)
  else .ok token.1

/-- One round of the loop over the assignments, with the change that it makes. -/
def setPair (env : Environment) (currPair : Text) : Except Stop (Environment × Text × Text) :=
  if 61 ∈ currPair then do
    let currKey ← orStop .crash (strtok currPair)
    let value ← currVal env currKey.2
    let env ← orStop .environmentChangeFailed (env.setenv currKey.1 value)
    return (env, currKey.1, value)
  else .error .usage

def setPairs (env : Environment) : List Text → Except Stop (Environment × List (Text × Text))
  | [] => return (env, [])
  | currPair :: pairs => do
    let first ← setPair env currPair
    let rest ← setPairs first.1 pairs
    return (rest.1, first.2 :: rest.2)

/-- `execvp(exec_inputs[0], exec_inputs)`, if the loop gets so far. -/
def execute (execInputs : List Text) : Except Stop (Environment × List (Text × Text)) → Outcome
  | .error stop => .stopped stop
  | .ok r => .executed execInputs r.1 r.2

def main (env : Environment) (argv : List Text) : Outcome :=
  if argv.length ≤ 1 then .stopped .usage
  else
    let c := counts argv
    if (c.envCount = 0 ∧ c.execCount = 0) ∨ c.execArgs = false then .stopped .usage
    else
      execute ((argv.drop (c.envCount + 1)).take c.execCount)
        (setPairs env (argv.take c.envCount))

end Cs241.Utilities
