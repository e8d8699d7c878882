import Cs241.Foundation.Integers

/-!
# The parallel fold of `teaching_threads/par_reduce.c`

`par_reduce` cuts the list into one range for each thread. The main thread creates the threads one
after the other, and then joins them in the same order and folds what they have computed. Indices
are of type `int`.
-/
namespace Cs241.Threads

open Foundation

/-- `thread_data`, with the variable of the loop of the thread. -/
structure ThreadData (α : Type*) where
  start : ℤ
  endIndex : ℤ
  reducedOutput : α
  i : ℤ

/-- Where `par_reduce` is: in the loop that creates threads, in the loop that joins them, or
behind. -/
inductive Main (α : Type*)
  | creating (i : ℕ) (start : ℤ)
  | joining (i : ℕ) (sum : α)
  | returned (sum : α)

structure Program (α : Type*) where
  threads : List (ThreadData α)
  main : Main α

/-- The arguments of `par_reduce`, for a list that is not `NULL`. -/
structure Call (α : Type*) where
  list : List α
  reduceFunc : α → α → α
  baseCase : α
  numThreads : ℕ

variable {α : Type*} (c : Call α)

namespace Call

/-- `num_threads` after the test against the length of the list. -/
def threadCount : ℕ :=
  if c.numThreads > c.list.length then c.list.length / 2 else c.numThreads

def offset : ℤ := toInt (c.list.length / c.threadCount : ℕ)

end Call

/-- Where the loops begin; `none` where the length is divided by zero. -/
def parReduce [Zero α] (list : Option (List α)) (reduceFunc : α → α → α) (baseCase : α)
    (numThreads : ℕ) : Option (Program α) :=
  match list with
  | none => some ⟨[], .returned 0⟩
  | some list =>
    if Call.threadCount ⟨list, reduceFunc, baseCase, numThreads⟩ = 0 then none
    else some ⟨[], .creating 0 0⟩

/-- A round of the loop that creates threads. -/
def createThread (s : Program α) (i : ℕ) (start : ℤ) : Program α :=
  let endIndex := if i = c.threadCount - 1 then toInt c.list.length else toInt (start + c.offset)
  { threads := s.threads ++ [⟨start, endIndex, c.baseCase, start⟩]
    main := .creating (i + 1) endIndex }

/-- `list[i]`, if there is such an element. -/
def element (list : List α) (i : ℤ) : Option α := if 0 ≤ i then list[i.toNat]? else none

/-- A round of `par_reduce_start_routine`. -/
def reduceRound (t : ThreadData α) : Option (ThreadData α) :=
  if t.i < t.endIndex then
    (element c.list t.i).map fun x =>
      { t with reducedOutput := c.reduceFunc t.reducedOutput x, i := t.i + 1 }
  else none

inductive Action
  | main
  | thread (k : ℕ)
deriving DecidableEq

/-- `pthread_join` waits until the loop of the thread has ended. -/
def Program.next (s : Program α) : Action → Option (Program α)
  | .main =>
    match s.main with
    | .creating i start =>
      if i < c.threadCount then some (createThread c s i start)
      else some { s with main := .joining 0 c.baseCase }
    | .joining i sum =>
      if i < c.threadCount then
        s.threads[i]?.bind fun t =>
          if t.i < t.endIndex then none
          else some { s with main := .joining (i + 1) (c.reduceFunc sum t.reducedOutput) }
      else some { s with main := .returned sum }
    | .returned _ => none
  | .thread k =>
    s.threads[k]?.bind fun t =>
      (reduceRound c t).map fun t => { s with threads := s.threads.set k t }

def Step (s : Program α) (a : Action) (s' : Program α) : Prop := s.next c a = some s'

end Cs241.Threads
