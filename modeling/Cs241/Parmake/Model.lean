import Mathlib.Data.Int.Order.Basic
import Mathlib.Logic.Function.Basic
import Cs241.Foundation.FinDigraph

/-!
# The scheduler of `parallel_make/parmake.c`

Rules are known by their targets, of an arbitrary type `T`. A makefile is the
graph that the parser returns, whose vertices are the keys of a dictionary, with
the commands of each rule; the edges of the sentinel lead to the goals. The outside world
answers `system` with an exit status and a change of the files, and `stat` with a
modification time.

One worker runs `rope` alone, so that an iteration of its loop is one function.
Commands run, rules finished and reported cycles are recorded, newest first.
-/
namespace Cs241.Parmake

open Foundation

inductive RuleState
  | default
  | unprocessed
  | failed
  | succeeded
  | ignored
  | processing
deriving DecidableEq

structure Makefile (T C : Type*) where
  graph : FinDigraph T
  nodup : graph.vertices.Nodup
  commands : T → List C
  sentinel : T
  sentinel_mem : sentinel ∈ graph.vertices
  sentinel_commands : commands sentinel = []

/-- The outside world: `F` is the state of the file system. -/
structure Env (T C F : Type*) where
  status : C → ℤ
  effect : C → F → F
  mtime : F → T → Option ℤ

inductive Event (T C : Type*)
  | cycleFailure (goal : T)
  | ran (rule : T) (command : C)
  | finished (rule : T) (state : RuleState)
deriving DecidableEq

/-- The globals of the program. A `NULL` task is `none`. -/
structure World (T C F : Type*) where
  state : T → RuleState
  tasks : List (Option T)
  visited : List T
  validGoals : List T
  goalTotal : ℕ
  goalCount : ℕ
  files : F
  log : List (Event T C)

variable {T C F : Type*} [DecidableEq T]

namespace World

variable (w : World T C F)

def setState (rule : T) (state : RuleState) : World T C F :=
  { w with state := Function.update w.state rule state }

def push (task : Option T) : World T C F := { w with tasks := w.tasks ++ [task] }

end World

/-! ## Loading -/

/-- The loop over the neighbors of `node`, with the recursive call as an argument. A found cycle
leaves the path in `visited`, and the state of the vertex that closes it as it is. -/
def anyIgnored (call : T → World T C F → Option (RuleState × World T C F)) (node : T) :
    List T → World T C F → Option (RuleState × World T C F)
  | [], w => some (.unprocessed, w)
  | neighbor :: neighbors, w =>
    if neighbor ∈ w.visited then some (.ignored, w)
    else
      (call neighbor { w with visited := neighbor :: w.visited }).bind fun (status, w) =>
        if status = .ignored then some (.ignored, w.setState node .ignored)
        else anyIgnored call node neighbors
          { w with visited := w.visited.filter fun v => v ≠ neighbor }

/-- `cycles(node)`; `none` if the recursion is deeper than `fuel`. -/
def cycles (neighbors : T → List T) : ℕ → T → World T C F → Option (RuleState × World T C F)
  | 0, _, _ => none
  | fuel + 1, node, w =>
    if w.state node = .ignored then some (.ignored, w)
    else anyIgnored (cycles neighbors fuel) node (neighbors node) (w.setState node .unprocessed)

variable (mk : Makefile T C) (env : Env T C F)

/-- The search for a cycle from one goal, whose path has no more edges than there are vertices. -/
def loadGoal (goal : T) (w : World T C F) : Option (World T C F) :=
  (cycles mk.graph.neighbors (mk.graph.vertices.length + 2) goal w).map fun (status, w) =>
    if status = .ignored then
      { w with goalTotal := w.goalTotal - 1, log := .cycleFailure goal :: w.log }
    else { w with validGoals := goal :: w.validGoals }

def loadGoals : List T → World T C F → Option (World T C F)
  | [], w => some w
  | goal :: goals, w => (loadGoal mk goal w).bind (loadGoals goals)

/-- Push the rules without dependencies that some goal has reached. -/
def seed (w : World T C F) : World T C F :=
  { w with tasks := w.tasks ++ (mk.graph.vertices.filter fun target =>
      (mk.graph.neighbors target).isEmpty ∧ w.state target = .unprocessed).map some }

def World.init (files : F) : World T C F :=
  { state := fun _ => .default, tasks := [], visited := [], validGoals := [],
    goalTotal := (mk.graph.neighbors mk.sentinel).length, goalCount := 0, files := files
    log := [] }

def loadRules (files : F) : Option (World T C F) :=
  (loadGoals mk (mk.graph.neighbors mk.sentinel) (World.init mk files)).map fun w =>
    seed mk (if w.goalTotal = 0 then w.push none else w)

/-! ## One iteration of `rope` -/

def checkFailedDependencies (rule : T) (w : World T C F) : World T C F :=
  if ∃ dep ∈ mk.graph.neighbors rule, w.state dep = .failed then w.setState rule .failed else w

/-- Whether no dependency is a file that is as old as the target or older. -/
def changed (rule : T) (files : F) : Bool :=
  match env.mtime files rule with
  | none => true
  | some old => (mk.graph.neighbors rule).all fun dep =>
      match env.mtime files dep with
      | none => true
      | some new => ¬ new ≤ old

/-- Run commands up to the first that fails, which is reported. -/
def runCommands (rule : T) : List C → World T C F → Bool × World T C F
  | [], w => (false, w)
  | command :: commands, w =>
    let w := { w with files := env.effect command w.files, log := .ran rule command :: w.log }
    if env.status command ≠ 0 then (true, w) else runCommands rule commands w

def execute (rule : T) (w : World T C F) : World T C F :=
  let (failed, w) := runCommands env rule (mk.commands rule) w
  let w := if failed then w.setState rule .failed else w
  if w.state rule ≠ .failed then w.setState rule .succeeded else w

def pushFailedAntineighbors (rule : T) (w : World T C F) : World T C F :=
  { w with tasks := w.tasks ++ (mk.graph.antineighbors rule).map some }

def pushSuccessfulAntineighbors (rule : T) (w : World T C F) : World T C F :=
  { w with tasks := w.tasks ++ ((mk.graph.antineighbors rule).filter fun anti =>
      w.state anti ≠ .default ∧
        ∀ antidep ∈ mk.graph.neighbors anti, w.state antidep = .succeeded).map some }

/-- Execute a rule or skip it. The mark that `check_failed_dependencies` leaves is not read
before. -/
def process (rule : T) (w : World T C F) : World T C F :=
  let w := checkFailedDependencies mk rule (w.setState rule .processing)
  let w :=
    if changed mk env rule w.files then execute mk env rule w
    else { w.setState rule .succeeded with goalCount := w.goalCount + 1 }
  { w with log := .finished rule (w.state rule) :: w.log }

def pushAntineighbors (rule : T) (w : World T C F) : World T C F :=
  if w.state rule = .failed then pushFailedAntineighbors mk rule w
  else if w.state rule = .succeeded then pushSuccessfulAntineighbors mk rule w
  else w

def countGoal (rule : T) (w : World T C F) : World T C F :=
  let w := if rule ∈ w.validGoals then { w with goalCount := w.goalCount + 1 } else w
  if w.goalCount = w.goalTotal then w.push none else w

/-- The body of the loop of `rope` for a task it has pulled. -/
def ropeBody (rule : T) (w : World T C F) : World T C F :=
  if w.state rule = .processing then w
  else countGoal rule (pushAntineighbors mk rule (process mk env rule w))

/-- The worker pulls a task that is not `NULL`. -/
inductive Step : World T C F → T → World T C F → Prop
  | pull {w rule rest} (h : w.tasks = some rule :: rest) :
      Step w rule (ropeBody mk env rule { w with tasks := rest })

/-! ## The whole program with one worker -/

/-- Whether `ropeBody` calls `execute`. -/
def Executes (rule : T) (w : World T C F) : Prop :=
  w.state rule ≠ .processing ∧ changed mk env rule w.files = true

instance {rule : T} {w : World T C F} : Decidable (Executes mk env rule w) :=
  inferInstanceAs (Decidable (_ ∧ _))

/-- `rope` with the rules for which it calls `execute`, in order; `none` where it waits for a task
for ever, or has pulled `fuel` tasks and goes on. -/
def rope : ℕ → World T C F → Option (List T × World T C F)
  | 0, _ => none
  | fuel + 1, w =>
    match w.tasks with
    | [] => none
    | none :: rest => some ([], { w with tasks := rest ++ [none] })
    | some rule :: rest =>
      let w := { w with tasks := rest }
      (rope fuel (ropeBody mk env rule w)).map fun (executed, w') =>
        (if Executes mk env rule w then rule :: executed else executed, w')

def parmake (fuel : ℕ) (files : F) : Option (List T × World T C F) :=
  (loadRules mk files).bind (rope mk env fuel)

end Cs241.Parmake
