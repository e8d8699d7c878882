import Mathlib.Algebra.Order.Group.Defs
import Mathlib.Logic.Function.Basic
import Cs241.Foundation.PriorityQueue
import Cs241.Foundation.Runs

/-!
# The scheduler of `savvy_scheduler/libscheduler.c`

Jobs wait in a priority queue that is ordered by the comparison function of the
scheme. The metadata of a job holds what the comparison functions read; times are
elements of an ordered group. A simulator adds jobs, reports the end of quanta
and of jobs, and its calls so far are the history of a run.
-/
namespace Cs241.Scheduler

open Foundation

inductive Scheme
  | fcfs
  | pri
  | ppri
  | psrtf
  | rr
  | sjf
deriving DecidableEq

/-- What the simulator says about a new job. -/
structure SchedulerInfo (R : Type*) where
  runningTime : R
  priority : ℤ

structure JobInfo (R : Type*) where
  id : ℤ
  priority : ℤ
  rt : R
  rrTime : R
  xxtime : R
  et : R
  ut : R
  st : R

variable {J R : Type*} [LinearOrder R] [AddCommGroup R]

/-! ## Comparison functions -/

def comparerFcfs : JobInfo R → JobInfo R → ℤ := compareBy JobInfo.xxtime fun _ _ => 0

def breakTie : JobInfo R → JobInfo R → ℤ := comparerFcfs

def comparerPri : JobInfo R → JobInfo R → ℤ := compareBy JobInfo.priority breakTie

def comparerPpri : JobInfo R → JobInfo R → ℤ := comparerPri

def comparerPsrtf : JobInfo R → JobInfo R → ℤ := compareBy (fun a => a.rt - a.ut) breakTie

def comparerRr : JobInfo R → JobInfo R → ℤ := compareBy JobInfo.rrTime fun _ _ => 0

def comparerSjf : JobInfo R → JobInfo R → ℤ := compareBy JobInfo.rt breakTie

/-- The comparison function that `scheduler_start_up` sets for a scheme. -/
def comparisionFunc : Scheme → JobInfo R → JobInfo R → ℤ
  | .fcfs => comparerFcfs
  | .pri => comparerPri
  | .ppri => comparerPpri
  | .psrtf => comparerPsrtf
  | .rr => comparerRr
  | .sjf => comparerSjf

/-! ## Calls -/

/-- The globals of the file, and the metadata of each job that has some. -/
structure Globals (J R : Type*) where
  pqueue : List J
  pqueueScheme : Scheme
  metadata : J → Option (JobInfo R)
  jobCount : ℤ
  twt : R
  ttat : R
  trt : R

def schedulerStartUp (s : Scheme) : Globals J R :=
  { pqueue := [], pqueueScheme := s, metadata := fun _ => none, jobCount := 0, twt := 0, ttat := 0,
    trt := 0 }

/-- The metadata that a comparison reads. Jobs in the queue and jobs that are offered have some. -/
def Globals.info (g : Globals J R) (job : J) : JobInfo R :=
  (g.metadata job).getD
    { id := 0, priority := 0, rt := 0, rrTime := 0, xxtime := 0, et := 0, ut := 0, st := 0 }

def Globals.compare (g : Globals J R) (a b : J) : ℤ :=
  comparisionFunc g.pqueueScheme (g.info a) (g.info b)

def priqueueOffer (P : Priqueue J) (g : Globals J R) (job : J) : Globals J R :=
  { g with pqueue := P.offer g.compare g.pqueue job }

variable [DecidableEq J]

def Globals.setMetadata (g : Globals J R) (job : J) (info : JobInfo R) : Globals J R :=
  { g with metadata := Function.update g.metadata job (some info) }

def schedulerNewJob (P : Priqueue J) (g : Globals J R) (newjob : J) (jobNumber : ℤ) (time : R)
    (schedData : SchedulerInfo R) : Globals J R :=
  priqueueOffer P
    (g.setMetadata newjob
      { xxtime := time, priority := schedData.priority, id := jobNumber,
        rt := schedData.runningTime, st := 0, rrTime := 0, ut := 0, et := 0 }) newjob

/-- Take the front of the queue and note its dispatch; `none` if it has no metadata. -/
def dispatch (P : Priqueue J) (g : Globals J R) (time : R) : Option (Option J × Globals J R) :=
  match P.poll g.pqueue with
  | none => some (none, g)
  | some (next, pqueue) =>
    (g.metadata next).map fun info =>
      let info := { info with rrTime := time, st := if info.ut = 0 then time else info.st }
      (some next, { g with pqueue := pqueue }.setMetadata next info)

/-- An evicted job goes back to the queue, with the time it had the CPU. -/
def evict (P : Priqueue J) (g : Globals J R) (time : R) : Option J → Option (Globals J R)
  | none => some g
  | some job =>
    (g.metadata job).map fun info =>
      priqueueOffer P (g.setMetadata job { info with ut := info.ut + (time - info.rrTime) }) job

/-- The schemes in which an evicted job is offered to the queue again. -/
def Scheme.preemptive : Scheme → Bool
  | .psrtf | .ppri | .rr => true
  | _ => false

/-- `scheduler_quantum_expired(job_evicted, time)`; `none` if a job has no metadata. -/
def schedulerQuantumExpired (P : Priqueue J) (g : Globals J R) (jobEvicted : Option J) (time : R) :
    Option (Option J × Globals J R) :=
  if g.pqueueScheme.preemptive then
    (evict P g time jobEvicted).bind fun g => dispatch P g time
  else
    match jobEvicted with
    | none => dispatch P g time
    | some job => some (some job, g)

/-- `scheduler_job_finished(job_done, time)`, which frees the metadata. -/
def schedulerJobFinished (g : Globals J R) (jobDone : J) (time : R) : Option (Globals J R) :=
  (g.metadata jobDone).map fun x =>
    { g with
      ttat := g.ttat + (time - x.xxtime)
      twt := g.twt + (time - x.xxtime - x.rt)
      trt := g.trt + (x.st - x.xxtime)
      jobCount := g.jobCount + 1
      metadata := Function.update g.metadata jobDone none }

/-! ## History -/

/-- A call of the simulator with its answer. -/
inductive Event (J R : Type*)
  | arrived (job : J) (time : R) (schedData : SchedulerInfo R)
  | quantum (time : R) (returned : Option J)
  | finished (job : J) (time : R)

def Event.time : Event J R → R
  | .arrived _ time _ => time
  | .quantum time _ => time
  | .finished _ time => time

/-- The job that has the CPU after the calls so far, the last one first. -/
def running : List (Event J R) → Option J
  | [] => none
  | .arrived _ _ _ :: history => running history
  | .quantum _ returned :: _ => returned
  | .finished _ _ :: _ => none

/-- When a job came and what was said about it. -/
def arrival (history : List (Event J R)) (job : J) : Option (R × SchedulerInfo R) :=
  history.findSome? fun
    | .arrived other time schedData => if other = job then some (time, schedData) else none
    | _ => none

/-- The CPU time that a job has received until `now`: between two calls it receives all the time if
it has the CPU. -/
def cpuTime : List (Event J R) → J → R → R
  | [], _, _ => 0
  | e :: history, job, now =>
    cpuTime history job e.time + if running (e :: history) = some job then now - e.time else 0

section CpuTime

omit [LinearOrder R]

variable (history : List (Event J R)) (job other : J) (time now : R)

theorem cpuTime_arrived (schedData : SchedulerInfo R) :
    cpuTime (.arrived other time schedData :: history) job now =
      cpuTime history job time + if running history = some job then now - time else 0 := rfl

theorem cpuTime_quantum (returned : Option J) :
    cpuTime (.quantum time returned :: history) job now =
      cpuTime history job time + if returned = some job then now - time else 0 := rfl

theorem cpuTime_finished :
    cpuTime (.finished other time :: history) job now = cpuTime history job time := by
  simp [cpuTime, running, Event.time]

end CpuTime

/-- When a job was last returned by `scheduler_quantum_expired`; zero if never. -/
def lastDispatch : List (Event J R) → J → R
  | [], _ => 0
  | .quantum time returned :: history, job =>
    if returned = some job then time else lastDispatch history job
  | _ :: history, job => lastDispatch history job

/-- A job that was added and has not finished. -/
def Unfinished (history : List (Event J R)) (job : J) : Prop :=
  (arrival history job).isSome ∧ ∀ time, .finished job time ∉ history

/-- The calls of a run and the state they have led to. -/
structure World (J R : Type*) where
  globals : Globals J R
  history : List (Event J R)

def World.init (s : Scheme) : World J R := { globals := schedulerStartUp s, history := [] }

inductive Action (J R : Type*)
  | newJob (job : J) (jobNumber : ℤ) (time : R) (schedData : SchedulerInfo R)
  | quantumExpired (time : R)
  | jobFinished (time : R)

/-- Calls of the simulator: each job is new, and the job that is evicted or has finished is the one
that has the CPU. -/
inductive Step (P : Priqueue J) : World J R → Action J R → World J R → Prop
  | newJob {w job jobNumber time schedData} (hnew : arrival w.history job = none)
      (htime : ∀ e ∈ w.history, e.time ≤ time) :
      Step P w (.newJob job jobNumber time schedData)
        { globals := schedulerNewJob P w.globals job jobNumber time schedData
          history := .arrived job time schedData :: w.history }
  | quantumExpired {w time returned globals} (htime : ∀ e ∈ w.history, e.time ≤ time)
      (h : schedulerQuantumExpired P w.globals (running w.history) time =
        some (returned, globals)) :
      Step P w (.quantumExpired time)
        { globals := globals, history := .quantum time returned :: w.history }
  | jobFinished {w job time globals} (htime : ∀ e ∈ w.history, e.time ≤ time)
      (hrunning : running w.history = some job)
      (h : schedulerJobFinished w.globals job time = some globals) :
      Step P w (.jobFinished time)
        { globals := globals, history := .finished job time :: w.history }

/-! ## The order of a scheme -/

/-- What the history up to `now` says about a job: its arrival, what was declared, the CPU time it
has received and its last dispatch. -/
structure Standing (R : Type*) where
  arrived : R
  declared : SchedulerInfo R
  received : R
  dispatched : R

/-- The standing of a job that was added. -/
def standing (history : List (Event J R)) (now : R) (job : J) : Option (Standing R) :=
  (arrival history job).map fun (time, schedData) =>
    { arrived := time, declared := schedData, received := cpuTime history job now,
      dispatched := lastDispatch history job }

/-- `a` comes strictly before `b` in the order of the scheme. -/
def Precedes (s : Scheme) (a b : Standing R) : Prop :=
  match s with
  | .fcfs => a.arrived < b.arrived
  | .pri | .ppri => a.declared.priority < b.declared.priority ∨
      a.declared.priority = b.declared.priority ∧ a.arrived < b.arrived
  | .psrtf => a.declared.runningTime - a.received < b.declared.runningTime - b.received ∨
      a.declared.runningTime - a.received = b.declared.runningTime - b.received ∧
        a.arrived < b.arrived
  | .rr => a.dispatched < b.dispatched
  | .sjf => a.declared.runningTime < b.declared.runningTime ∨
      a.declared.runningTime = b.declared.runningTime ∧ a.arrived < b.arrived

/-- `job` is among the jobs with the property `among`, and none of them comes before it. -/
def Least (s : Scheme) (history : List (Event J R)) (now : R) (among : J → Prop) (job : J) : Prop :=
  among job ∧ ∀ other, among other → ∀ a ∈ standing history now other,
    ∀ b ∈ standing history now job, ¬ Precedes s a b

/-- A least unfinished job, and none only if all have finished. -/
def LeastUnfinished (s : Scheme) (history : List (Event J R)) (now : R) : Option J → Prop
  | some job => Least s history now (Unfinished history) job
  | none => ∀ job, ¬ Unfinished history job

/-- What the end of a quantum at `now` is to answer: a least unfinished job, but the running one
if there is one and the scheme evicts no job. -/
def Chosen (s : Scheme) (history : List (Event J R)) (now : R) (returned : Option J) : Prop :=
  if s.preemptive ∨ running history = none then LeastUnfinished s history now returned
  else returned = running history

end Cs241.Scheduler
