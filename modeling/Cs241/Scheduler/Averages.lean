import Cs241.Scheduler.Order
import Mathlib.Algebra.BigOperators.Group.List.Basic
import Mathlib.Algebra.Order.BigOperators.Group.List
import Mathlib.Algebra.Order.Field.Basic
import Mathlib.Tactic.Linarith

/-!
# Average times

The metadata of a job holds its arrival and what was declared, so that the average
turnaround and waiting times are right. The response time is taken from the last
dispatch at which the job had received no CPU time: this is the first dispatch
unless the job was evicted at once and dispatched again later.
-/
namespace Cs241.Scheduler

open Foundation

/-! ## Dispatches in a history -/

section History

variable {J R : Type*} [LinearOrder R] [AddCommGroup R] [DecidableEq J]
  {history : List (Event J R)} {job other : J} {time now a b : R} {e : Event J R}

/-- When `scheduler_quantum_expired` returned a job for the first time. -/
def firstDispatch : List (Event J R) → J → Option R
  | [], _ => none
  | .quantum time returned :: history, job =>
    (firstDispatch history job).or (if returned = some job then some time else none)
  | _ :: history, job => firstDispatch history job

/-- When it returned a job for the last time that had received no CPU time. -/
def started : List (Event J R) → J → Option R
  | [], _ => none
  | .quantum time returned :: history, job =>
    if returned = some job ∧ cpuTime history job time = 0 then some time else started history job
  | _ :: history, job => started history job

/-- A job that had received no CPU time was dispatched again, later than for the first time. -/
def Restarted (history : List (Event J R)) (job : J) : Prop :=
  ∃ newer time older, history = newer ++ .quantum time (some job) :: older ∧
    cpuTime older job time = 0 ∧ ∃ first ∈ firstDispatch older job, first < time

/-- The last event comes first, and no event is later than it. -/
def Sorted (history : List (Event J R)) : Prop :=
  history.Pairwise fun e e' => e'.time ≤ e.time

omit [AddCommGroup R] [DecidableEq J] in
theorem Sorted.cons (h : Sorted history) (htime : ∀ e' ∈ history, e'.time ≤ e.time) :
    Sorted (e :: history) :=
  List.pairwise_cons.mpr ⟨htime, h⟩

theorem restarted_cons : Restarted (e :: history) job ↔ Restarted history job ∨
    ∃ time, e = .quantum time (some job) ∧ cpuTime history job time = 0 ∧
      ∃ first ∈ firstDispatch history job, first < time := by
  constructor
  · rintro ⟨newer, time, older, heq, hcpu, hfirst⟩
    cases newer with
    | nil =>
      obtain ⟨rfl, rfl⟩ := List.cons.inj heq
      exact .inr ⟨time, rfl, hcpu, hfirst⟩
    | cons e' newer =>
      obtain ⟨-, rfl⟩ := List.cons.inj heq
      exact .inl ⟨newer, time, older, rfl, hcpu, hfirst⟩
  · rintro (⟨newer, time, older, rfl, hcpu, hfirst⟩ | ⟨time, rfl, hcpu, hfirst⟩)
    · exact ⟨e :: newer, time, older, rfl, hcpu, hfirst⟩
    · exact ⟨[], time, history, rfl, hcpu, hfirst⟩

/-- A job that was never dispatched does not have the CPU and has never had it. -/
theorem never_dispatched (h : firstDispatch history job = none) :
    running history ≠ some job ∧ (∀ now, cpuTime history job now = 0) ∧
      started history job = none ∧ ¬ Restarted history job := by
  induction history with
  | nil => exact ⟨by simp [running], fun _ => rfl, rfl, by simp [Restarted]⟩
  | cons e history ih =>
    cases e with
    | arrived other time schedData =>
      obtain ⟨hrunning, hcpu, hstarted, hnot⟩ := ih h
      refine ⟨hrunning, fun now => ?_, hstarted, by simpa [restarted_cons] using hnot⟩
      rw [cpuTime_arrived, hcpu, if_neg hrunning, add_zero]
    | quantum time returned =>
      obtain ⟨hfirst, hreturned⟩ := Option.or_eq_none_iff.mp h
      obtain ⟨-, hcpu, hstarted, hnot⟩ := ih hfirst
      have hne : returned ≠ some job := by
        intro heq
        simp [heq] at hreturned
      refine ⟨hne, fun now => ?_, ?_, by simpa [restarted_cons, hfirst] using hnot⟩
      · rw [cpuTime_quantum, hcpu, if_neg hne, add_zero]
      · rw [started, if_neg fun h => hne h.1, hstarted]
    | finished other time =>
      obtain ⟨hrunning, hcpu, hstarted, hnot⟩ := ih h
      exact ⟨by simp [running], fun now => (cpuTime_finished ..).trans (hcpu _), hstarted,
        by simpa [restarted_cons] using hnot⟩

theorem exists_of_started (h : started history job = some a) :
    ∃ returned, .quantum a returned ∈ history := by
  induction history with
  | nil => cases h
  | cons e history ih =>
    cases e with
    | arrived other time schedData =>
      obtain ⟨returned, hmem⟩ := ih h
      exact ⟨returned, List.mem_cons_of_mem _ hmem⟩
    | quantum time returned =>
      rw [started] at h
      split_ifs at h
      · obtain rfl := Option.some.inj h
        exact ⟨returned, List.mem_cons_self⟩
      · obtain ⟨returned, hmem⟩ := ih h
        exact ⟨returned, List.mem_cons_of_mem _ hmem⟩
    | finished other time =>
      obtain ⟨returned, hmem⟩ := ih h
      exact ⟨returned, List.mem_cons_of_mem _ hmem⟩

/-- The two times are the same if and only if the job was not restarted. -/
theorem firstDispatch_started (hsorted : Sorted history) (h : firstDispatch history job = some a) :
    ∃ b, started history job = some b ∧ a ≤ b ∧ (a < b ↔ Restarted history job) := by
  induction history generalizing a with
  | nil => cases h
  | cons e history ih =>
    obtain ⟨hlast, hrest⟩ := List.pairwise_cons.mp hsorted
    cases e with
    | arrived other time schedData =>
      obtain ⟨b, hb, hab, hiff⟩ := ih hrest h
      exact ⟨b, hb, hab, by simpa [restarted_cons] using hiff⟩
    | quantum time returned =>
      cases hfirst : firstDispatch history job with
      | none =>
        rw [firstDispatch, hfirst, Option.none_or] at h
        split_ifs at h with hreturned
        obtain rfl := Option.some.inj h
        obtain ⟨-, hcpu, -, hnot⟩ := never_dispatched hfirst
        refine ⟨time, by rw [started, if_pos ⟨hreturned, hcpu time⟩], le_rfl, ?_⟩
        simp [restarted_cons, hfirst, hnot]
      | some first =>
        obtain rfl : first = a := by simpa [firstDispatch, hfirst] using h
        obtain ⟨b, hb, hab, hiff⟩ := ih hrest hfirst
        obtain ⟨_, hmem⟩ := exists_of_started hb
        have hbt : b ≤ time := hlast _ hmem
        by_cases hagain : returned = some job ∧ cpuTime history job time = 0
        · obtain ⟨rfl, hcpu⟩ := hagain
          refine ⟨time, by rw [started, if_pos ⟨rfl, hcpu⟩], hab.trans hbt, ?_⟩
          rw [restarted_cons, ← hiff]
          constructor
          · intro hlt
            exact .inr ⟨time, rfl, hcpu, first, hfirst, hlt⟩
          · rintro (hlt | ⟨t, heq, -, f, hf, hlt⟩)
            · exact hlt.trans_le hbt
            · obtain rfl : f = first := Option.some.inj (hf.symm.trans hfirst)
              obtain ⟨rfl, -⟩ := Event.quantum.inj heq
              exact hlt
        · refine ⟨b, by rw [started, if_neg hagain, hb], hab, ?_⟩
          rw [hiff, restarted_cons, or_iff_left]
          rintro ⟨t, heq, hcpu, -⟩
          obtain ⟨rfl, rfl⟩ := Event.quantum.inj heq
          exact hagain ⟨rfl, hcpu⟩
    | finished other time =>
      obtain ⟨b, hb, hab, hiff⟩ := ih hrest h
      exact ⟨b, hb, hab, by simpa [restarted_cons] using hiff⟩

end History

/-! ## The averages -/

variable {J R : Type*} [Field R] [LinearOrder R]

def schedulerAverageWaitingTime (g : Globals J R) : R := g.twt / g.jobCount

def schedulerAverageTurnaroundTime (g : Globals J R) : R := g.ttat / g.jobCount

def schedulerAverageResponseTime (g : Globals J R) : R := g.trt / g.jobCount

variable [DecidableEq J]

/-- The jobs that have finished, with the times. -/
def finishedJobs (history : List (Event J R)) : List (J × R) :=
  history.filterMap fun
    | .finished job time => some (job, time)
    | _ => none

def arrivalTime (history : List (Event J R)) (job : J) : R :=
  ((arrival history job).map fun x => x.1).getD 0

def declaredTime (history : List (Event J R)) (job : J) : R :=
  ((arrival history job).map fun x => x.2.runningTime).getD 0

def turnaround (history : List (Event J R)) (job : J) (finish : R) : R :=
  finish - arrivalTime history job

def waiting (history : List (Event J R)) (job : J) (finish : R) : R :=
  finish - arrivalTime history job - declaredTime history job

def response (history : List (Event J R)) (job : J) (_ : R) : R :=
  (firstDispatch history job).getD 0 - arrivalTime history job

/-- The sum over the finished jobs. -/
def total (history : List (Event J R)) (f : J → R → R) : R :=
  ((finishedJobs history).map fun x => f x.1 x.2).sum

def mean (history : List (Event J R)) (f : J → R → R) : R :=
  total history f / (finishedJobs history).length

/-- The averages are the means over the jobs that have finished. -/
structure AveragesRight (w : World J R) : Prop where
  turnaround : schedulerAverageTurnaroundTime w.globals = mean w.history (turnaround w.history)
  waiting : schedulerAverageWaitingTime w.globals = mean w.history (waiting w.history)
  response : schedulerAverageResponseTime w.globals = mean w.history (response w.history)

/-- Calls of the simulator, which passes the running job or none at the end of a quantum. -/
inductive LooseStep (P : Priqueue J) : World J R → Action J R → World J R → Prop
  | newJob {w job jobNumber time schedData} (hnew : arrival w.history job = none)
      (htime : ∀ e ∈ w.history, e.time ≤ time) :
      LooseStep P w (.newJob job jobNumber time schedData)
        { globals := schedulerNewJob P w.globals job jobNumber time schedData
          history := .arrived job time schedData :: w.history }
  | quantumExpired {w evicted time returned globals} (htime : ∀ e ∈ w.history, e.time ≤ time)
      (hevicted : evicted = none ∨ evicted = running w.history)
      (h : schedulerQuantumExpired P w.globals evicted time = some (returned, globals)) :
      LooseStep P w (.quantumExpired time)
        { globals := globals, history := .quantum time returned :: w.history }
  | jobFinished {w job time globals} (htime : ∀ e ∈ w.history, e.time ≤ time)
      (hrunning : running w.history = some job)
      (h : schedulerJobFinished w.globals job time = some globals) :
      LooseStep P w (.jobFinished time)
        { globals := globals, history := .finished job time :: w.history }

/-! ## What the metadata says -/

variable {s : Scheme} {history history' : List (Event J R)} {g g' : Globals J R} {job other : J}
  {info : JobInfo R} {time now : R}

/-- The metadata of a job in the queue. -/
structure Waits (s : Scheme) (history : List (Event J R)) (now : R) (job : J)
    (info : JobInfo R) : Prop where
  arrival : arrival history job =
    some (info.xxtime, { runningTime := info.rt, priority := info.priority })
  received : cpuTime history job now = info.ut
  untouched : ¬ s.preemptive → info.ut = 0
  started : started history job = some info.st ∨ started history job = none ∧ info.ut = 0

/-- The metadata of the job that has the CPU. -/
structure HasCpu (s : Scheme) (history : List (Event J R)) (job : J) (info : JobInfo R) : Prop where
  arrival : arrival history job =
    some (info.xxtime, { runningTime := info.rt, priority := info.priority })
  started : started history job = some info.st
  received : s.preemptive → ∀ now, cpuTime history job now = info.ut + (now - info.rrTime)
  kept : ¬ s.preemptive → ∀ now, cpuTime history job now = now - info.st

structure Queued (s : Scheme) (history : List (Event J R)) (now : R) (g : Globals J R) : Prop where
  scheme : g.pqueueScheme = s
  nodup : g.pqueue.Nodup
  order : InOrder g.compare g.pqueue
  waits : ∀ job ∈ g.pqueue, ∃ info, g.metadata job = some info ∧ Waits s history now job info

/-- The sums over the jobs that have finished; nothing happens to these any more. -/
structure Ledger (history : List (Event J R)) (g : Globals J R) : Prop where
  turnaround : g.ttat = total history (turnaround history)
  waiting : g.twt = total history (waiting history)
  response : g.trt = total history fun job _ =>
    (started history job).getD 0 - arrivalTime history job
  count : g.jobCount = (finishedJobs history).length
  past : ∀ x ∈ finishedJobs history, (arrival history x.1).isSome ∧
    (started history x.1).isSome ∧ x.1 ∉ g.pqueue
  fresh : ∀ job, arrival history job = none → firstDispatch history job = none

/-- The state between two calls. -/
structure Kept (s : Scheme) (w : World J R) : Prop where
  queued : ∀ now, Queued s w.history now w.globals
  idle : ∀ job ∈ w.globals.pqueue, running w.history ≠ some job
  onCpu : ∀ job, running w.history = some job → (∀ time, (job, time) ∉ finishedJobs w.history) ∧
    ∃ info, w.globals.metadata job = some info ∧ HasCpu s w.history job info
  ledger : Ledger w.history w.globals
  sorted : Sorted w.history

omit [LinearOrder R] [DecidableEq J] in
theorem total_congr {f f' : J → R → R} (hfinished : finishedJobs history' = finishedJobs history)
    (h : ∀ x ∈ finishedJobs history, f' x.1 x.2 = f x.1 x.2) :
    total history' f' = total history f := by
  rw [total, hfinished]
  exact congrArg List.sum (List.map_congr_left h)

/-- A step in which no job finishes. -/
theorem Ledger.next (h : Ledger history g)
    (hfinished : finishedJobs history' = finishedJobs history)
    (hsame : ∀ x ∈ finishedJobs history, arrival history' x.1 = arrival history x.1 ∧
      started history' x.1 = started history x.1 ∧ x.1 ∉ g'.pqueue)
    (hg : g'.ttat = g.ttat ∧ g'.twt = g.twt ∧ g'.trt = g.trt ∧ g'.jobCount = g.jobCount)
    (hfresh : ∀ job, arrival history' job = none → firstDispatch history' job = none) :
    Ledger history' g' where
  turnaround := by
    rw [hg.1, h.turnaround]
    refine (total_congr hfinished fun x hx => ?_).symm
    rw [Scheduler.turnaround, arrivalTime, (hsame x hx).1]
    rfl
  waiting := by
    rw [hg.2.1, h.waiting]
    refine (total_congr hfinished fun x hx => ?_).symm
    rw [Scheduler.waiting, arrivalTime, declaredTime, (hsame x hx).1]
    rfl
  response := by
    rw [hg.2.2.1, h.response]
    refine (total_congr hfinished fun x hx => ?_).symm
    rw [(hsame x hx).2.1, arrivalTime, (hsame x hx).1]
    rfl
  count := by rw [hg.2.2.2, h.count, hfinished]
  past x hx := by
    rw [hfinished] at hx
    obtain ⟨harrival, hstarted, hqueue⟩ := hsame x hx
    rw [harrival, hstarted]
    exact ⟨(h.past x hx).1, (h.past x hx).2.1, hqueue⟩
  fresh := hfresh

/-! ## The end of a quantum -/

theorem Waits.quantum {returned : Option J} (h : Waits s history time job info)
    (hne : returned ≠ some job) (now : R) :
    Waits s (.quantum time returned :: history) now job info where
  arrival := h.arrival
  received := by rw [cpuTime_quantum, h.received, if_neg hne, add_zero]
  untouched := h.untouched
  started := by
    rw [Scheduler.started, if_neg fun h => hne h.1]
    exact h.started

/-- A dispatch notes the time in the metadata if the job had received no CPU time. -/
theorem Waits.dispatch (h : Waits s history time job info) :
    HasCpu s (.quantum time (some job) :: history) job
      { info with rrTime := time, st := if info.ut = 0 then time else info.st } where
  arrival := h.arrival
  started := by
    rw [Scheduler.started, h.received]
    by_cases hut : info.ut = 0
    · rw [if_pos ⟨rfl, hut⟩, if_pos hut]
    · rw [if_neg fun h => hut h.2, if_neg hut]
      exact h.started.resolve_right fun h => hut h.2
  received _ now := by
    rw [cpuTime_quantum, if_pos rfl, h.received]
  kept hs now := by
    rw [cpuTime_quantum, if_pos rfl, h.received, h.untouched hs, if_pos rfl, zero_add]

theorem Ledger.quantum {returned : Option J} (h : Ledger history g)
    (hreturned : ∀ job, returned = some job → (arrival history job).isSome ∧
      ∀ time, (job, time) ∉ finishedJobs history)
    (hqueue : ∀ x ∈ finishedJobs history, x.1 ∉ g'.pqueue)
    (hg : g'.ttat = g.ttat ∧ g'.twt = g.twt ∧ g'.trt = g.trt ∧ g'.jobCount = g.jobCount) :
    Ledger (.quantum time returned :: history) g' := by
  refine h.next rfl (fun x hx => ⟨rfl, ?_, hqueue x hx⟩) hg ?_
  · rw [started, if_neg]
    rintro ⟨heq, -⟩
    exact (hreturned x.1 heq).2 x.2 hx
  · intro job hjob
    have hne : returned ≠ some job := by
      intro heq
      have hsome := (hreturned job heq).1
      rw [show arrival history job = none from hjob] at hsome
      cases hsome
    rw [firstDispatch, h.fresh job hjob, if_neg hne, Option.none_or]

theorem dispatch_kept (P : Priqueue J) {returned : Option J} (h : Queued s history time g)
    (hledger : Ledger history g) (hsorted : Sorted history) (htime : ∀ e ∈ history, e.time ≤ time)
    (hdispatch : dispatch P g time = some (returned, g')) :
    Kept s { globals := g', history := .quantum time returned :: history } := by
  cases hq : g.pqueue with
  | nil =>
    obtain ⟨rfl, rfl⟩ : none = returned ∧ g = g' := by
      simpa [dispatch, hq, P.poll_nil] using hdispatch
    exact
      { queued := fun now => ⟨h.scheme, h.nodup, h.order, fun job hjob => by simp [hq] at hjob⟩
        idle := fun job hjob => by simp [hq] at hjob
        onCpu := fun job hjob => by cases hjob
        ledger := hledger.quantum (by simp) (by simp [hq]) ⟨rfl, rfl, rfl, rfl⟩
        sorted := hsorted.cons htime }
  | cons job q =>
    obtain ⟨info, hinfo, hwaits⟩ := h.waits job (hq ▸ List.mem_cons_self)
    obtain ⟨hnotin, hnd⟩ := List.nodup_cons.mp (hq ▸ h.nodup)
    obtain ⟨rfl, rfl⟩ : some job = returned ∧ { g with pqueue := q }.setMetadata job
        { info with rrTime := time, st := if info.ut = 0 then time else info.st } = g' := by
      simpa [dispatch, hq, P.poll_cons, hinfo] using hdispatch
    have hnew : ∀ time, (job, time) ∉ finishedJobs history := fun time hmem =>
      (hledger.past _ hmem).2.2 (hq ▸ List.mem_cons_self)
    have hother : ∀ other ∈ q, other ≠ job := fun other ho => ne_of_mem_of_not_mem ho hnotin
    have horder : InOrder { g with pqueue := q }.compare q := by
      have hall := h.order
      rw [hq] at hall
      exact (List.pairwise_cons.mp hall).2
    exact
      { queued := fun now => by
          refine ⟨h.scheme, hnd, InOrder.metadata horder rfl fun other ho =>
            Function.update_of_ne (hother other ho) .., fun other ho => ?_⟩
          obtain ⟨info', hinfo', hwaits'⟩ := h.waits other (hq ▸ List.mem_cons_of_mem _ ho)
          refine ⟨info', ?_, hwaits'.quantum (by simpa using (hother other ho).symm) now⟩
          exact (Function.update_of_ne (hother other ho) ..).trans hinfo'
        idle := fun other ho => by
          simpa [running] using (hother other ho).symm
        onCpu := fun other ho => by
          obtain rfl : job = other := Option.some.inj ho
          exact ⟨hnew, _, Function.update_self .., hwaits.dispatch⟩
        ledger := by
          refine hledger.quantum ?_ ?_ ⟨rfl, rfl, rfl, rfl⟩
          · rintro other heq
            obtain rfl : job = other := Option.some.inj heq
            exact ⟨by simp [hwaits.arrival], hnew⟩
          · intro x hx hmem
            exact (hledger.past x hx).2.2 (hq ▸ List.mem_cons_of_mem _ hmem)
        sorted := hsorted.cons htime }

/-- The evicted job waits with the others. -/
theorem Kept.evict (P : Priqueue J) {w : World J R} (h : Kept s w) (hs : s.preemptive)
    (hjob : running w.history = some job) (time : R) :
    ∃ g, evict P w.globals time (some job) = some g ∧ Queued s w.history time g ∧
      Ledger w.history g := by
  obtain ⟨hnew, info, hinfo, hcpu⟩ := h.onCpu job hjob
  have hq := h.queued time
  have hnotin : job ∉ w.globals.pqueue := fun hmem => h.idle job hmem hjob
  obtain ⟨horder, hnd, hmem⟩ := priqueueOffer_spec P hq.order hq.nodup hnotin
    { info with ut := info.ut + (time - info.rrTime) }
  refine ⟨_, evict_eq P hinfo time, ⟨hq.scheme, hnd, horder, ?_⟩, ?_⟩
  · intro other ho
    rcases (hmem other).mp ho with rfl | ho
    · exact ⟨_, Function.update_self .., hcpu.arrival, hcpu.received hs time, absurd hs,
        .inl hcpu.started⟩
    · obtain ⟨info', hinfo', hwaits⟩ := hq.waits other ho
      exact ⟨info', (Function.update_of_ne (ne_of_mem_of_not_mem ho hnotin) ..).trans hinfo',
        hwaits⟩
  · refine h.ledger.next rfl (fun x hx => ⟨rfl, rfl, ?_⟩) ⟨rfl, rfl, rfl, rfl⟩ h.ledger.fresh
    rw [hmem]
    rintro (heq | hin)
    · exact hnew x.2 (heq ▸ hx)
    · exact (h.ledger.past x hx).2.2 hin

/-- A job that is not evicted keeps the CPU. -/
theorem Kept.keep {w : World J R} (h : Kept s w) (hs : ¬ s.preemptive)
    (hjob : running w.history = some job) (htime : ∀ e ∈ w.history, e.time ≤ time) :
    Kept s { w with history := .quantum time (some job) :: w.history } := by
  obtain ⟨hnew, info, hinfo, hcpu⟩ := h.onCpu job hjob
  exact
    { queued := fun now => by
        refine ⟨(h.queued now).scheme, (h.queued now).nodup, (h.queued now).order, ?_⟩
        intro other ho
        obtain ⟨info', hinfo', hwaits⟩ := (h.queued time).waits other ho
        exact ⟨info', hinfo', hwaits.quantum (hjob ▸ h.idle other ho) now⟩
      idle := fun other ho => hjob ▸ h.idle other ho
      onCpu := fun other ho => by
        obtain rfl : job = other := Option.some.inj ho
        refine ⟨hnew, info, hinfo, hcpu.arrival, ?_, fun h => absurd h hs, fun _ now => ?_⟩
        · rw [started, hcpu.kept hs]
          split_ifs with hzero
          · rw [sub_eq_zero.mp hzero.2]
          · exact hcpu.started
        · rw [cpuTime_quantum, if_pos rfl, hcpu.kept hs, sub_add_sub_cancel']
      ledger := by
        refine h.ledger.quantum ?_ (fun x hx => (h.ledger.past x hx).2.2) ⟨rfl, rfl, rfl, rfl⟩
        rintro other heq
        obtain rfl : job = other := Option.some.inj heq
        exact ⟨by simp [hcpu.arrival], hnew⟩
      sorted := h.sorted.cons htime }

theorem Kept.quantumExpired (P : Priqueue J) {w : World J R} (h : Kept s w)
    {evicted returned : Option J} (hevicted : evicted = none ∨ evicted = running w.history)
    (htime : ∀ e ∈ w.history, e.time ≤ time)
    (hcall : schedulerQuantumExpired P w.globals evicted time = some (returned, g')) :
    Kept s { globals := g', history := .quantum time returned :: w.history } := by
  have hq := h.queued time
  rw [schedulerQuantumExpired.eq_def, hq.scheme] at hcall
  cases evicted with
  | none =>
    have hdispatch : dispatch P w.globals time = some (returned, g') := by
      split_ifs at hcall
      · exact hcall
      · exact hcall
    exact dispatch_kept P hq h.ledger h.sorted htime hdispatch
  | some job =>
    have hjob : running w.history = some job := (hevicted.resolve_left (by simp)).symm
    split_ifs at hcall with hs
    · obtain ⟨g, hg, hqueued, hledger⟩ := h.evict P hs hjob time
      rw [hg, Option.bind_some] at hcall
      exact dispatch_kept P hqueued hledger h.sorted htime hcall
    · obtain ⟨rfl, rfl⟩ : some job = returned ∧ w.globals = g' := by simpa using hcall
      exact h.keep hs hjob htime

/-! ## The other calls -/

theorem Kept.newJob (P : Priqueue J) {w : World J R} (h : Kept s w)
    (hnew : arrival w.history job = none) (htime : ∀ e ∈ w.history, e.time ≤ time)
    (jobNumber : ℤ) (schedData : SchedulerInfo R) :
    Kept s { globals := schedulerNewJob P w.globals job jobNumber time schedData
             history := .arrived job time schedData :: w.history } := by
  obtain ⟨hidle, hnever, hstarted, -⟩ := never_dispatched (h.ledger.fresh job hnew)
  have hknown : ∀ {other}, (arrival w.history other).isSome → job ≠ other := by
    rintro other hsome rfl
    simp [hnew] at hsome
  have hwaits : ∀ other ∈ w.globals.pqueue, job ≠ other := by
    intro other ho
    obtain ⟨info, -, hwaits⟩ := (h.queued time).waits other ho
    exact hknown (by simp [hwaits.arrival])
  have hpast : ∀ x ∈ finishedJobs w.history, job ≠ x.1 := fun x hx => hknown (h.ledger.past x hx).1
  obtain ⟨horder, hnd, hmem⟩ := priqueueOffer_spec P (h.queued time).order (h.queued time).nodup
    (fun hin => hwaits job hin rfl)
    { xxtime := time, priority := schedData.priority, id := jobNumber,
      rt := schedData.runningTime, st := 0, rrTime := 0, ut := 0, et := 0 }
  exact
    { queued := fun now => by
        refine ⟨(h.queued time).scheme, hnd, horder, fun other ho => ?_⟩
        rcases (hmem other).mp ho with rfl | ho
        · refine ⟨_, Function.update_self .., ?_, ?_, fun _ => rfl, .inr ⟨hstarted, rfl⟩⟩
          · rw [arrival_arrived, if_pos rfl]
          · rw [cpuTime_arrived, hnever, if_neg hidle, add_zero]
        · obtain ⟨info, hinfo, hwait⟩ := (h.queued time).waits other ho
          have hne := hwaits other ho
          refine ⟨info, (Function.update_of_ne hne.symm ..).trans hinfo, ?_, ?_, hwait.untouched,
            hwait.started⟩
          · rw [arrival_arrived, if_neg hne, hwait.arrival]
          · rw [cpuTime_arrived, hwait.received, if_neg (h.idle other ho), add_zero]
      idle := fun other ho => by
        rcases (hmem other).mp ho with rfl | ho
        · exact hidle
        · exact h.idle other ho
      onCpu := fun other ho => by
        obtain ⟨hnew, info, hinfo, hcpu⟩ := h.onCpu other ho
        have hne : job ≠ other := hknown (by simp [hcpu.arrival])
        have ho' : running w.history = some other := ho
        refine ⟨hnew, info, (Function.update_of_ne hne.symm ..).trans hinfo, ?_, hcpu.started,
          fun hs now => ?_, fun hs now => ?_⟩
        · rw [arrival_arrived, if_neg hne, hcpu.arrival]
        · rw [cpuTime_arrived, hcpu.received hs, if_pos ho', add_assoc, sub_add_sub_cancel']
        · rw [cpuTime_arrived, hcpu.kept hs, if_pos ho', sub_add_sub_cancel']
      ledger := by
        refine h.ledger.next rfl (fun x hx => ⟨?_, rfl, ?_⟩) ⟨rfl, rfl, rfl, rfl⟩ ?_
        · rw [arrival_arrived, if_neg (hpast x hx)]
        · intro hin
          rcases (hmem x.1).mp hin with heq | hin
          · exact hpast x hx heq.symm
          · exact (h.ledger.past x hx).2.2 hin
        · intro other ho
          rw [arrival_arrived] at ho
          split_ifs at ho
          exact h.ledger.fresh other ho
      sorted := h.sorted.cons htime }

/-- The sums take up the job that has the CPU. -/
theorem Ledger.finished (h : Ledger history g) (hcpu : HasCpu s history job info)
    (hnotin : job ∉ g.pqueue) :
    Ledger (.finished job time :: history)
      { g with
        ttat := g.ttat + (time - info.xxtime)
        twt := g.twt + (time - info.xxtime - info.rt)
        trt := g.trt + (info.st - info.xxtime)
        jobCount := g.jobCount + 1
        metadata := Function.update g.metadata job none } := by
  have harrival : arrivalTime history job = info.xxtime := by simp [arrivalTime, hcpu.arrival]
  have hdeclared : declaredTime history job = info.rt := by simp [declaredTime, hcpu.arrival]
  have hstarted : (started history job).getD 0 = info.st := by simp [hcpu.started]
  exact
    { turnaround := by
        show g.ttat + (time - info.xxtime) =
          Scheduler.turnaround history job time + total history (Scheduler.turnaround history)
        rw [h.turnaround, Scheduler.turnaround, harrival, add_comm]
      waiting := by
        show g.twt + (time - info.xxtime - info.rt) =
          Scheduler.waiting history job time + total history (Scheduler.waiting history)
        rw [h.waiting, Scheduler.waiting, harrival, hdeclared, add_comm]
      response := by
        show g.trt + (info.st - info.xxtime) =
          (started history job).getD 0 - arrivalTime history job + total history fun job _ =>
            (started history job).getD 0 - arrivalTime history job
        rw [h.response, hstarted, harrival, add_comm]
      count := by simp [h.count, finishedJobs]
      past := fun x hx => by
        rcases List.mem_cons.mp hx with rfl | hx
        · refine ⟨?_, ?_, hnotin⟩
          · show (arrival history job).isSome
            simp [hcpu.arrival]
          · show (started history job).isSome
            simp [hcpu.started]
        · exact h.past x hx
      fresh := h.fresh }

theorem Kept.jobFinished {w : World J R} (h : Kept s w) (hjob : running w.history = some job)
    (htime : ∀ e ∈ w.history, e.time ≤ time)
    (hcall : schedulerJobFinished w.globals job time = some g') :
    Kept s { globals := g', history := .finished job time :: w.history } := by
  obtain ⟨hnew, info, hinfo, hcpu⟩ := h.onCpu job hjob
  rw [schedulerJobFinished, hinfo, Option.map_some] at hcall
  obtain rfl := Option.some.inj hcall
  have hne : ∀ other ∈ w.globals.pqueue, other ≠ job := fun other ho heq =>
    h.idle other ho (heq ▸ hjob)
  exact
    { queued := fun now => by
        refine ⟨(h.queued now).scheme, (h.queued now).nodup, InOrder.metadata (h.queued now).order
          rfl fun other ho => Function.update_of_ne (hne other ho) .., fun other ho => ?_⟩
        obtain ⟨info', hinfo', hwaits⟩ := (h.queued time).waits other ho
        exact ⟨info', (Function.update_of_ne (hne other ho) ..).trans hinfo', hwaits.arrival,
          (cpuTime_finished ..).trans hwaits.received, hwaits.untouched, hwaits.started⟩
      idle := fun other ho => by simp [running]
      onCpu := fun other ho => by cases ho
      ledger := h.ledger.finished hcpu fun hmem => hne job hmem rfl
      sorted := h.sorted.cons htime }

/-! ## Every run -/

theorem LooseStep.kept (P : Priqueue J) {w w' : World J R} {a : Action J R} (h : Kept s w)
    (hstep : LooseStep P w a w') : Kept s w' := by
  cases hstep with
  | newJob hnew htime => exact h.newJob P hnew htime _ _
  | quantumExpired htime hevicted hcall => exact h.quantumExpired P hevicted htime hcall
  | jobFinished htime hrunning hcall => exact h.jobFinished hrunning htime hcall

theorem init_kept (s : Scheme) : Kept s (.init s : World J R) where
  queued _ := ⟨rfl, List.nodup_nil, List.Pairwise.nil, fun job hjob => by
    simp [World.init, schedulerStartUp] at hjob⟩
  idle job hjob := by simp [World.init, schedulerStartUp] at hjob
  onCpu job hjob := by cases hjob
  ledger := ⟨rfl, rfl, rfl, rfl, fun x hx => (List.not_mem_nil hx).elim, fun _ _ => rfl⟩
  sorted := List.Pairwise.nil

omit [Field R] [LinearOrder R] [DecidableEq J] in
theorem mem_finishedJobs : (job, time) ∈ finishedJobs history ↔ .finished job time ∈ history := by
  simp only [finishedJobs, List.mem_filterMap]
  constructor
  · rintro ⟨e, he, heq⟩
    cases e with
    | arrived => simp at heq
    | quantum => simp at heq
    | finished other t =>
      obtain ⟨rfl, rfl⟩ : other = job ∧ t = time := by simpa using heq
      exact he
  · intro hmem
    exact ⟨_, hmem, rfl⟩

variable [IsStrictOrderedRing R]

theorem sum_map_eq_iff {α : Type*} {f f' : α → R} {xs : List α} (h : ∀ x ∈ xs, f x ≤ f' x) :
    (xs.map f').sum = (xs.map f).sum ↔ ∀ x ∈ xs, f' x = f x := by
  induction xs with
  | nil => simp
  | cons x xs ih =>
    obtain ⟨hx, hxs⟩ := List.forall_mem_cons.mp h
    have hsum : (xs.map f).sum ≤ (xs.map f').sum := List.sum_le_sum hxs
    rw [List.forall_mem_cons, ← ih hxs, List.map_cons, List.map_cons, List.sum_cons, List.sum_cons]
    constructor
    · intro heq
      constructor <;> linarith
    · rintro ⟨heq, heq'⟩
      rw [heq, heq']

/-- The error of the sum of response times. -/
theorem sum_started_eq_iff (hsorted : Sorted history)
    (hpast : ∀ x ∈ finishedJobs history, (started history x.1).isSome) :
    total history (fun job _ => (started history job).getD 0 - arrivalTime history job) =
      total history (response history) ↔
        ∀ x ∈ finishedJobs history, ¬ Restarted history x.1 := by
  have hfirst : ∀ x ∈ finishedJobs history, ∃ a b, firstDispatch history x.1 = some a ∧
      started history x.1 = some b ∧ a ≤ b ∧ (a < b ↔ Restarted history x.1) := by
    intro x hx
    cases hfirst : firstDispatch history x.1 with
    | none =>
      have hsome := hpast x hx
      rw [(never_dispatched hfirst).2.2.1] at hsome
      cases hsome
    | some a =>
      obtain ⟨b, hb⟩ := firstDispatch_started hsorted hfirst
      exact ⟨a, b, rfl, hb⟩
  have hle : ∀ x ∈ finishedJobs history, response history x.1 x.2 ≤
      (started history x.1).getD 0 - arrivalTime history x.1 := by
    intro x hx
    obtain ⟨a, b, ha, hb, hab, -⟩ := hfirst x hx
    simpa [response, ha, hb] using hab
  refine (sum_map_eq_iff hle).trans (forall₂_congr fun x hx => ?_)
  obtain ⟨a, b, ha, hb, hab, hiff⟩ := hfirst x hx
  rw [← hiff, not_lt, response, ha, hb, Option.getD_some, Option.getD_some, sub_left_inj]
  exact ⟨fun heq => heq.le, fun hba => le_antisymm hba hab⟩

/-- After every run in which a job has finished the averages are right if and only if no finished
job was restarted. -/
theorem run_averages (P : Priqueue J) {as : List (Action J R)} {w : World J R}
    (hrun : Run (LooseStep P) (.init s) as w) (hdone : ∃ job time, .finished job time ∈ w.history) :
    AveragesRight w ↔ ∀ job time, .finished job time ∈ w.history → ¬ Restarted w.history job := by
  have hkept : Kept s w := hrun.invariant (init_kept s) (LooseStep.kept P)
  have hledger := hkept.ledger
  obtain ⟨job, time, hmem⟩ := hdone
  have hpos : ((finishedJobs w.history).length : R) ≠ 0 := by
    have hlen := List.length_pos_of_mem (mem_finishedJobs.mpr hmem)
    exact_mod_cast hlen.ne'
  have hiff := sum_started_eq_iff hkept.sorted fun x hx => (hledger.past x hx).2.1
  constructor
  · intro hright job time hfinished
    have hresponse := hright.response
    rw [schedulerAverageResponseTime, mean, hledger.response, hledger.count, Int.cast_natCast,
      div_left_inj' hpos] at hresponse
    exact hiff.mp hresponse _ (mem_finishedJobs.mpr hfinished)
  · intro hnot
    refine ⟨?_, ?_, ?_⟩
    · rw [schedulerAverageTurnaroundTime, hledger.turnaround, hledger.count, Int.cast_natCast, mean]
    · rw [schedulerAverageWaitingTime, hledger.waiting, hledger.count, Int.cast_natCast, mean]
    · rw [schedulerAverageResponseTime, hledger.response, hledger.count, Int.cast_natCast, mean,
        hiff.mpr fun x hx => hnot x.1 x.2 (mem_finishedJobs.mp hx)]

/-! ## Two runs -/

omit [IsStrictOrderedRing R]

/-- The world after a call that passes the running job, if the call is possible. -/
def World.call (P : Priqueue J) (w : World J R) (a : Action J R) : Option (World J R) :=
  match a with
  | .newJob job jobNumber time schedData =>
    if arrival w.history job = none ∧ ∀ e ∈ w.history, e.time ≤ time then
      some { globals := schedulerNewJob P w.globals job jobNumber time schedData
             history := .arrived job time schedData :: w.history }
    else none
  | .quantumExpired time =>
    if ∀ e ∈ w.history, e.time ≤ time then
      (schedulerQuantumExpired P w.globals (running w.history) time).map fun x =>
        { globals := x.2, history := .quantum time x.1 :: w.history }
    else none
  | .jobFinished time =>
    if ∀ e ∈ w.history, e.time ≤ time then
      (running w.history).bind fun job => (schedulerJobFinished w.globals job time).map fun g =>
        { globals := g, history := .finished job time :: w.history }
    else none

theorem World.call_step {P : Priqueue J} {w w' : World J R} {a : Action J R}
    (h : w.call P a = some w') : LooseStep P w a w' := by
  cases a with
  | newJob job jobNumber time schedData =>
    obtain ⟨hguard, hcall⟩ := Option.ite_none_right_eq_some.mp h
    obtain rfl := Option.some.inj hcall
    exact .newJob hguard.1 hguard.2
  | quantumExpired time =>
    obtain ⟨htime, hcall⟩ := Option.ite_none_right_eq_some.mp h
    obtain ⟨x, hx, rfl⟩ := Option.map_eq_some_iff.mp hcall
    exact .quantumExpired htime (.inr rfl) hx
  | jobFinished time =>
    obtain ⟨htime, hcall⟩ := Option.ite_none_right_eq_some.mp h
    obtain ⟨job, hjob, hcall⟩ := Option.bind_eq_some_iff.mp hcall
    obtain ⟨g, hg, rfl⟩ := Option.map_eq_some_iff.mp hcall
    exact .jobFinished htime hjob hg

omit [Field R] [LinearOrder R] [DecidableEq J]

deriving instance DecidableEq for SchedulerInfo

deriving instance DecidableEq for Event

/-- Job 2 comes at time `t` while job 1 runs, which is longer and was dispatched at time 1. -/
def twoJobs (t : ℚ) : Option (World ℕ ℚ) :=
  [.newJob 1 0 0 ⟨10, 0⟩, .quantumExpired 1, .newJob 2 1 t ⟨5, 0⟩, .quantumExpired t,
    .jobFinished 6, .quantumExpired 6, .jobFinished 16].foldlM (World.call .insertion)
      (.init .psrtf)

theorem twoJobs_run {t : ℚ} {w : World ℕ ℚ} (h : twoJobs t = some w) :
    ∃ as, Run (LooseStep .insertion) (.init .psrtf) as w :=
  ⟨_, (Run.of_fold h).mono World.call_step⟩

/-- Job 1 is evicted after it has received CPU time. -/
theorem run_averages_later : ∃ w, twoJobs 2 = some w ∧ AveragesRight w := by
  have hend : ((twoJobs 2).map fun w => w.history) = some [.finished 1 16, .quantum 6 (some 1),
      .finished 2 6, .quantum 2 (some 2), .arrived 2 2 ⟨5, 0⟩, .quantum 1 (some 1),
      .arrived 1 0 ⟨10, 0⟩] := by
    decide +kernel
  obtain ⟨w, hw, hhistory⟩ := Option.map_eq_some_iff.mp hend
  obtain ⟨as, hrun⟩ := twoJobs_run hw
  have hdone : .finished 1 16 ∈ w.history := by
    rw [hhistory]
    exact List.mem_cons_self
  refine ⟨w, hw, (run_averages .insertion hrun ⟨1, 16, hdone⟩).mpr fun job time hmem => ?_⟩
  have hsorted : Sorted w.history := by
    rw [hhistory, Sorted]
    decide +kernel
  have hsame : ∃ a, firstDispatch w.history job = some a ∧ started w.history job = some a := by
    rw [hhistory] at hmem ⊢
    obtain rfl | rfl : job = 1 ∨ job = 2 := by
      simp at hmem
      omega
    · exact ⟨1, by decide +kernel, by decide +kernel⟩
    · exact ⟨2, by decide +kernel, by decide +kernel⟩
  obtain ⟨a, hfirst, hstarted⟩ := hsame
  obtain ⟨b, hb, -, hiff⟩ := firstDispatch_started hsorted hfirst
  obtain rfl := Option.some.inj (hstarted.symm.trans hb)
  exact fun h => lt_irrefl _ (hiff.mpr h)

/-- Job 1 is evicted as soon as it is dispatched. -/
theorem run_averages_evicted : ¬ ∀ (s : Scheme) (as : List (Action ℕ ℚ)) (w : World ℕ ℚ),
    Run (LooseStep .insertion) (.init s) as w → (∃ job time, .finished job time ∈ w.history) →
      AveragesRight w := by
  intro hall
  have hend : ((twoJobs 1).map fun w => (w.history.head?, schedulerAverageResponseTime w.globals,
      mean w.history (response w.history))) = some (some (.finished 1 16), 3, 1 / 2) := by
    decide +kernel
  obtain ⟨w, hw, hvalues⟩ := Option.map_eq_some_iff.mp hend
  obtain ⟨hlast, haverage, hmean⟩ : _ ∧ _ ∧ _ := by simpa only [Prod.mk.injEq] using hvalues
  obtain ⟨as, hrun⟩ := twoJobs_run hw
  have hresponse := (hall .psrtf as w hrun ⟨1, 16, List.mem_of_head? hlast⟩).response
  rw [haverage, hmean] at hresponse
  exact absurd hresponse (by decide +kernel)

end Cs241.Scheduler
