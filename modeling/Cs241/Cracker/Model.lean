import Mathlib.Data.Int.Notation
import Mathlib.Data.List.Basic
import Mathlib.Logic.Function.Basic

/-!
# The password cracker of `cracker1.c`

The main thread pushes all tasks and one `NULL`, and the workers share the queue.
The functions of `utils.h` and `crypt_r` are not in the repository and are
parameters. The queue is first-in first-out, and its calls are atomic.
-/
namespace Cs241.Cracker

/-- A C string, without its terminator. -/
abbrev CString := List UInt8

structure Utils where
  getPrefixLength : CString → ℕ
  /-- The string after the call. -/
  setStringPosition : CString → ℕ → CString
  /-- The return value, and the string after the call. -/
  incrementString : CString → ℤ × CString
  cryptR : CString → CString → CString

structure Job where
  name : CString
  hash : CString
  password : CString
deriving DecidableEq

/-- A job in memory; the number stands for its address. -/
abbrev Task := Job × ℕ

/-- What a worker does next, with its variables for the task at hand. -/
inductive Point
  | pull
  | loop (task : Task) (key : CString) (hashCount : ℕ)
  | result (task : Task) (key : CString) (hashCount : ℕ) (found : Bool)
  | push
  | returned (count : ℕ)
deriving DecidableEq

structure Worker where
  numFound : ℕ
  point : Point
deriving DecidableEq

/-- What is printed by a worker, and the keys that it hashes. -/
inductive Event (n : ℕ)
  | threadStart (id : Fin n) (task : Task)
  | hashed (id : Fin n) (task : Task) (key : CString)
  | threadResult (id : Fin n) (task : Task) (key : CString) (hashCount : ℕ) (found : Bool)

/-- The workers of `start`; the log has the newest event at its end. -/
structure Pool (n : ℕ) where
  jobs : List (Option Task)
  workers : Fin n → Worker
  log : List (Event n)

variable (u : Utils) {n : ℕ}

/-- A function of `utils.h` applied to the unknown part of a key. -/
def Utils.key (password : CString) (key unknown : CString) : CString :=
  key.take (u.getPrefixLength password) ++ unknown

/-- One step of `crack`: a call of the queue, a round of the loop, or what is printed in the end. -/
def crackStep (id : Fin n) (jobs : List (Option Task)) (w : Worker) :
    Option (Worker × List (Option Task) × List (Event n)) :=
  match w.point with
  | .pull =>
    match jobs with
    | [] => none
    | none :: jobs => some ({ w with point := .push }, jobs, [])
    | some task :: jobs =>
      let password := task.1.password
      let unknown := password.drop (u.getPrefixLength password)
      let key := u.key password password (u.setStringPosition unknown 0)
      some ({ w with point := .loop task key 1 }, jobs, [.threadStart id task])
  | .loop task key hashCount =>
    let password := task.1.password
    let next := u.incrementString (key.drop (u.getPrefixLength password))
    let key := u.key password key next.2
    if next.1 ≠ 0 then
      -- `"xx"` is the salt.
      let point := if u.cryptR key [120, 120] = task.1.hash
        then Point.result task key (hashCount + 1) true else .loop task key (hashCount + 1)
      some ({ w with point := point }, jobs, [.hashed id task key])
    else some ({ w with point := .result task key hashCount false }, jobs, [])
  | .result task key hashCount found =>
    some ({ numFound := if found then w.numFound + 1 else w.numFound, point := .pull }, jobs,
      [.threadResult id task key hashCount found])
  | .push => some ({ w with point := .returned w.numFound }, jobs ++ [none], [])
  | .returned _ => none

/-- The tasks are in the queue, with the `NULL` behind them, and the workers are created. -/
def start (n : ℕ) (jobs : List Job) : Pool n where
  jobs := jobs.zipIdx.map some ++ [none]
  workers := fun _ => { numFound := 0, point := .pull }
  log := []

def Pool.next (s : Pool n) (id : Fin n) : Option (Pool n) :=
  (crackStep u id s.jobs (s.workers id)).map fun (w, jobs, events) =>
    { jobs := jobs, workers := Function.update s.workers id w, log := s.log ++ events }

/-- A step of one of the workers. -/
def Step (s : Pool n) (id : Fin n) (s' : Pool n) : Prop := s.next u id = some s'

end Cs241.Cracker
