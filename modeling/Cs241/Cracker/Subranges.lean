import Cs241.Cracker.Model

/-!
# The password cracker of `cracker2.c`

For each user the main thread gives every thread a task of its own with a part of the candidates,
and waits for all threads. The threads share `found` and `solution`. The pointer `solution` is that
of the password in the task of a thread, and each thread frees its task before it returns.
-/
namespace Cs241.Cracker.Subranges

/-- Where a thread is: not created yet, before the loop, at the head of the loop or at `crypt_r`
with the variable `i`, before the two assignments to what is shared, before `murk`, or at the end. -/
inductive Point
  | absent
  | starting
  | head (i : ℕ)
  | crypt (i : ℕ)
  | solving
  | announcing
  | murk
  | returned
deriving DecidableEq

/-- A thread, with the string `task->password` and whether it is allocated. -/
structure Thread where
  point : Point
  password : CString
  allocated : Bool

/-- Where `start` is: in the loop that creates threads, in the loop that joins them, or before the
summary is printed. -/
inductive Main
  | creating (i : ℕ)
  | joining (i : ℕ)
  | summary
deriving DecidableEq

/-- The work for one user. A pointer to a password is the number of the thread that has it. -/
structure State (n : ℕ) where
  main : Main
  threads : Fin n → Thread
  found : Bool
  solution : Option (Fin n)
  hashcount : ℕ

/-- A user line, and the functions of `utils.h` that `cracker1.c` does not use. `getSubrange`
answers with the offset and the count. -/
structure Line (u : Utils) (n : ℕ) where
  job : Job
  getSubrange : ℕ → ℕ → ℕ → ℕ × ℕ

variable {u : Utils} {n : ℕ} (line : Line u n)

namespace Line

/-- Each thread gets it from its copy of the password, before it writes to that. -/
def prefixLength : ℕ := u.getPrefixLength line.job.password

/-- The offset and the count of a thread, whose `id` is one more than its number. -/
def subrange (i : Fin n) : ℕ × ℕ :=
  line.getSubrange (line.job.password.length - line.prefixLength) n (i + 1)

/-- The password with another unknown part. -/
def key (password unknown : CString) : CString := password.take line.prefixLength ++ unknown

end Line

def start : State n where
  main := .creating 0
  threads := fun _ => { point := .absent, password := [], allocated := false }
  found := false
  solution := none
  hashcount := 0

/-- The thread gets its task, with a copy of the password. -/
def create (i : Fin n) (s : State n) : State n :=
  { s with threads := Function.update s.threads i ⟨.starting, line.job.password, true⟩ }

def nextMain (s : State n) : Option (State n) :=
  match s.main with
  | .creating i =>
    if h : i < n then some { create line ⟨i, h⟩ s with main := .creating (i + 1) }
    else some { s with main := .joining 0 }
  | .joining i =>
    if h : i < n then
      if (s.threads ⟨i, h⟩).point = .returned then some { s with main := .joining (i + 1) } else none
    else some { s with main := .summary }
  | .summary => none

/-- A step of a thread on its own variables, given `found`. -/
def nextThread (i : Fin n) (found : Bool) (t : Thread) : Option Thread :=
  match t.point with
  | .absent | .returned => none
  | .starting =>
    let unknown := u.setStringPosition (t.password.drop line.prefixLength) (line.subrange i).1
    some { t with point := .head 0, password := line.key t.password unknown }
  | .head k =>
    some { t with point :=
      if k < (line.subrange i).2 then if found then .murk else .crypt k else .murk }
  | .crypt k =>
    if u.cryptR t.password [120, 120] = line.job.hash then some { t with point := .solving }
    else
      let unknown := (u.incrementString (t.password.drop line.prefixLength)).2
      some { t with point := .head (k + 1), password := line.key t.password unknown }
  | .solving => some { t with point := .announcing }
  | .announcing => some { t with point := .murk }
  | .murk => some { t with point := .returned, allocated := false }

/-- A step of thread `i`, with what it does to the shared variables. -/
def stepThread (i : Fin n) (s : State n) : Option (State n) :=
  let t := s.threads i
  (nextThread line i s.found t).map fun t' =>
    { s with
      threads := Function.update s.threads i t'
      found := if t.point = .announcing then true else s.found
      solution := if t.point = .solving then some i else s.solution
      hashcount := match t.point, t'.point with
        | .crypt _, .head _ => s.hashcount + 1
        | _, _ => s.hashcount }

inductive Action (n : ℕ)
  | main
  | thread (i : Fin n)

def State.next (s : State n) : Action n → Option (State n)
  | .main => nextMain line s
  | .thread i => stepThread line i s

def Step (s : State n) (a : Action n) (s' : State n) : Prop := s.next line a = some s'

end Cs241.Cracker.Subranges
