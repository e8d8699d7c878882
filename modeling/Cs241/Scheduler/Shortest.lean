import Mathlib.Algebra.BigOperators.Ring.Finset
import Mathlib.Algebra.Order.BigOperators.Group.Finset
import Mathlib.Tactic.NormNum
import Cs241.Foundation.ShortestFirst
import Cs241.Scheduler.Turns

/-!
# Shortest jobs first

Jobs that come together wait least on average when the shortest runs first. Under any
scheme they share one CPU, so that those that have finished cannot have received more
time than has passed; where the CPU is never idle, they have received all of it.
-/
namespace Cs241.Scheduler

open Foundation

variable {J R : Type*} [Field R] [LinearOrder R] [DecidableEq J] {s : Scheme}
  {history : List (Event J R)} {job other : J} {time now a : R} {w w' : World J R} {e : Event J R}
  {d : J → R}

/-! ## One CPU -/

omit [Field R] [LinearOrder R] in
theorem exists_of_firstDispatch (h : firstDispatch history job = some time) :
    ∃ e ∈ history, e.dispatched = some job := by
  induction history generalizing time with
  | nil => cases h
  | cons e history ih =>
    have hrest : ∀ {time}, firstDispatch history job = some time →
        ∃ e' ∈ e :: history, e'.dispatched = some job := fun hfirst =>
      (ih hfirst).imp fun _ he => ⟨List.mem_cons_of_mem _ he.1, he.2⟩
    cases e with
    | arrived => exact hrest h
    | finished => exact hrest h
    | quantum t returned =>
      cases hfirst : firstDispatch history job with
      | some first => exact hrest hfirst
      | none =>
        rw [firstDispatch, hfirst, Option.none_or] at h
        split_ifs at h with hreturned
        exact ⟨_, List.mem_cons_self, hreturned⟩

theorem exists_of_running (h : running history = some job) :
    ∃ e ∈ history, e.dispatched = some job := by
  cases hfirst : firstDispatch history job with
  | none => exact absurd h (never_dispatched hfirst).1
  | some first => exact exists_of_firstDispatch hfirst

omit [LinearOrder R] in
/-- One job at most receives the time `c`. -/
theorem sum_given (S : Finset J) (running : Option J) (c : R) :
    ∑ job ∈ S, (if running = some job then c else 0) =
      if ∃ job ∈ S, running = some job then c else 0 := by
  cases running with
  | none => simp
  | some job => simp

/-- The jobs together receive no more time than passes from the first dispatch on. -/
theorem sum_cpuTime_le [IsStrictOrderedRing R] (S : Finset J) (hsorted : Sorted history)
    (hafter : ∀ e ∈ history, ∀ job, e.dispatched = some job → a ≤ e.time) (hnow : a ≤ now)
    (htime : ∀ e ∈ history, e.time ≤ now) : ∑ job ∈ S, cpuTime history job now ≤ now - a := by
  induction history generalizing now with
  | nil => simpa [cpuTime] using hnow
  | cons e history ih =>
    obtain ⟨hlast, hrest⟩ := List.pairwise_cons.mp hsorted
    rcases le_or_gt a e.time with hle | hlt
    · have hearlier : ∑ job ∈ S, cpuTime history job e.time ≤ e.time - a :=
        ih hrest (fun e he => hafter e (List.mem_cons_of_mem _ he)) hle hlast
      have hgiven : ∑ job ∈ S, (if running (e :: history) = some job then now - e.time else 0) ≤
          now - e.time := by
        have hpos : 0 ≤ now - e.time := sub_nonneg.mpr (htime e List.mem_cons_self)
        rw [sum_given]
        split_ifs
        · exact le_rfl
        · exact hpos
      calc ∑ job ∈ S, cpuTime (e :: history) job now
          = ∑ job ∈ S, cpuTime history job e.time +
              ∑ job ∈ S, (if running (e :: history) = some job then now - e.time else 0) :=
            Finset.sum_add_distrib
        _ ≤ (e.time - a) + (now - e.time) := add_le_add hearlier hgiven
        _ = now - a := sub_add_sub_cancel' ..
    · -- No job has been dispatched yet.
      have hnever : ∀ job, cpuTime (e :: history) job now = 0 := by
        intro job
        cases hfirst : firstDispatch (e :: history) job with
        | none => exact (never_dispatched hfirst).2.1 now
        | some first =>
          obtain ⟨e', he', hdispatched⟩ := exists_of_firstDispatch hfirst
          have hbefore : e'.time ≤ e.time := by
            rcases List.mem_cons.mp he' with rfl | hin
            · exact le_rfl
            · exact hlast e' hin
          exact absurd (hafter e' he' job hdispatched) (not_le.mpr (hbefore.trans_lt hlt))
      rw [Finset.sum_eq_zero fun job _ => hnever job]
      exact sub_nonneg.mpr hnow

/-! ## Any scheme -/

/-- When a job finished, it had received its time `d` at least. -/
def Enough (d : J → R) : List (Event J R) → Prop
  | [] => True
  | .finished job time :: history => d job ≤ cpuTime history job time ∧ Enough d history
  | _ :: history => Enough d history

theorem Enough.tail (h : Enough d (e :: history)) : Enough d history := by
  cases e with
  | arrived => exact h
  | quantum => exact h
  | finished => exact h.2

theorem Enough.le_cpuTime [IsStrictOrderedRing R] (h : Enough d history) (hsorted : Sorted history)
    (htime : ∀ e ∈ history, e.time ≤ now) {x : J × R} (hx : x ∈ finishedJobs history) :
    d x.1 ≤ cpuTime history x.1 now := by
  induction history generalizing now with
  | nil => cases hx
  | cons e history ih =>
    obtain ⟨hlast, hrest⟩ := List.pairwise_cons.mp hsorted
    have hbefore : d x.1 ≤ cpuTime history x.1 e.time := by
      rcases List.mem_cons.mp (mem_finishedJobs.mp hx) with rfl | hin
      · exact h.1
      · exact ih h.tail hrest hlast (mem_finishedJobs.mpr hin)
    refine hbefore.trans ?_
    rw [cpuTime]
    split_ifs
    · exact le_add_of_nonneg_right (sub_nonneg.mpr (htime e List.mem_cons_self))
    · exact (add_zero _).ge

/-- Jobs that get the CPU from `a` on are no better off than if they had run one after the other. -/
theorem Enough.completions_le [IsStrictOrderedRing R] (h : Enough d history)
    (hsorted : Sorted history) (hnodup : ((finishedJobs history).map Prod.fst).Nodup)
    (hafter : ∀ e ∈ history, ∀ job, e.dispatched = some job ∨ e.leaver = some job → a ≤ e.time) :
    completions ((finishedJobs history).map fun x => d x.1) ≤
      ((finishedJobs history).map fun x => x.2 - a).sum := by
  induction history with
  | nil => exact le_rfl
  | cons e history ih =>
    have hall := hsorted
    obtain ⟨hlast, hrest⟩ := List.pairwise_cons.mp hsorted
    have hafter' := fun e' he' => hafter e' (List.mem_cons_of_mem e he')
    cases e with
    | arrived => exact ih h.tail hrest hnodup hafter'
    | quantum => exact ih h.tail hrest hnodup hafter'
    | finished job time =>
      have hearlier := ih h.tail hrest (List.nodup_cons.mp hnodup).2 hafter'
      have htime : ∀ e ∈ Event.finished job time :: history, e.time ≤ time :=
        List.forall_mem_cons.mpr ⟨le_rfl, hlast⟩
      have hnow : a ≤ time := hafter _ List.mem_cons_self job (.inr rfl)
      have hshare : d job + ((finishedJobs history).map fun x => d x.1).sum ≤ time - a := by
        calc d job + ((finishedJobs history).map fun x => d x.1).sum
            = (((finishedJobs (.finished job time :: history)).map Prod.fst).map d).sum := by
              rw [List.map_map]
              rfl
          _ = ∑ job' ∈ ((finishedJobs (.finished job time :: history)).map Prod.fst).toFinset,
                d job' := (List.sum_toFinset d hnodup).symm
          _ ≤ ∑ job' ∈ ((finishedJobs (.finished job time :: history)).map Prod.fst).toFinset,
                cpuTime (.finished job time :: history) job' time := by
              refine Finset.sum_le_sum fun job' hjob' => ?_
              obtain ⟨x, hx, rfl⟩ := List.mem_map.mp (List.mem_toFinset.mp hjob')
              exact h.le_cpuTime hall htime hx
          _ ≤ time - a :=
              sum_cpuTime_le _ hall (fun e he job hjob => hafter e he job (.inl hjob)) hnow htime
      exact (add_le_add hearlier hshare).trans_eq (add_comm _ _)

/-! ## No idle time -/

/-- The time of the last event, `a` before the first. -/
def lastTime (a : R) (history : List (Event J R)) : R := (history.head?.map Event.time).getD a

/-- All jobs come at `a`, before any of them gets the CPU; from then on no time passes while the CPU
is idle, and a job that finishes has received its time `d` exactly. -/
def Batch (d : J → R) (a : R) : List (Event J R) → Prop
  | [] => True
  | e :: history => Batch d a history ∧ (running history = none → e.time = lastTime a history) ∧
    match e with
    | .arrived _ time _ => time = a ∧ ∀ e' ∈ history, e'.dispatched = none
    | .quantum _ _ => True
    | .finished job time => cpuTime history job time = d job

omit [LinearOrder R] in
theorem Batch.arrived {schedData : SchedulerInfo R} (h : Batch d a history)
    (hmem : .arrived job time schedData ∈ history) : time = a := by
  induction history with
  | nil => cases hmem
  | cons e history ih =>
    rcases List.mem_cons.mp hmem with rfl | hin
    · exact h.2.2.1
    · exact ih h.1 hin

/-- The jobs that have had the CPU have together received all time since `a`. -/
theorem Batch.sum_cpuTime (h : Batch d a history) {S : Finset J}
    (hgiven : ∀ e ∈ history, ∀ job, e.dispatched = some job → job ∈ S) (now : R) :
    ∑ job ∈ S, cpuTime history job now =
      (if running history = none then lastTime a history else now) - a := by
  induction history generalizing now with
  | nil => simp [cpuTime, running, lastTime]
  | cons e history ih =>
    have hearlier : ∑ job ∈ S, cpuTime history job e.time = e.time - a := by
      rw [ih h.1 fun e he => hgiven e (List.mem_cons_of_mem _ he)]
      split_ifs with hidle
      · rw [h.2.1 hidle]
      · rfl
    have hadd : ∑ job ∈ S, cpuTime (e :: history) job now = e.time - a +
        if ∃ job ∈ S, running (e :: history) = some job then now - e.time else 0 := by
      rw [← sum_given, ← hearlier]
      exact Finset.sum_add_distrib
    rw [hadd]
    cases hrunning : running (e :: history) with
    | none =>
      rw [if_neg (by simp), if_pos rfl, add_zero]
      rfl
    | some job =>
      obtain ⟨e', he', hdispatched⟩ := exists_of_running hrunning
      rw [if_pos ⟨job, hgiven e' he' job hdispatched, rfl⟩, if_neg (by simp)]
      exact sub_add_sub_cancel' ..

/-! ## What has happened -/

/-- In every run jobs get the CPU after they have come, and finish once, after that. -/
structure Past (w : World J R) : Prop where
  after : ∀ e ∈ w.history, ∀ job, e.dispatched = some job ∨ e.leaver = some job →
    ∃ x ∈ arrival w.history job, x.1 ≤ e.time
  dispatched : ∀ job ∈ (finishedJobs w.history).map Prod.fst,
    ∃ e ∈ w.history, e.dispatched = some job
  nodup : ((finishedJobs w.history).map Prod.fst).Nodup

omit [Field R] [LinearOrder R] in
theorem not_mem_finished (h : Unfinished history job) :
    job ∉ (finishedJobs history).map Prod.fst := by
  intro hmem
  obtain ⟨x, hx, rfl⟩ := List.mem_map.mp hmem
  exact h.2 x.2 (mem_finishedJobs.mp hx)

omit [Field R] in
theorem Unfinished.came (h : Unfinished history job) (htime : ∀ e ∈ history, e.time ≤ time) :
    ∃ x ∈ arrival history job, x.1 ≤ time := by
  obtain ⟨x, hx⟩ := Option.isSome_iff_exists.mp h.1
  exact ⟨x, hx, htime _ (arrived_of_arrival hx)⟩

theorem step_past {P : Priqueue J} {act : Action J R} (hinv : Inv s w) (h : Past w)
    (hstep : Step P w act w') : Past w' := by
  have hinv' := step_inv P hinv hstep
  cases hstep with
  | @newJob job jobNumber time schedData hnew htime =>
    refine ⟨?_, fun job hjob => ?_, h.nodup⟩
    · intro e he other hother
      rcases List.mem_cons.mp he with rfl | he
      · rcases hother with hother | hother <;> cases hother
      · obtain ⟨x, hx, hle⟩ := h.after e he other hother
        have hne : job ≠ other := by
          rintro rfl
          rw [hnew] at hx
          cases hx
        refine ⟨x, ?_, hle⟩
        rw [arrival_arrived, if_neg hne]
        exact hx
    · obtain ⟨e, he, hdispatched⟩ := h.dispatched job hjob
      exact ⟨e, List.mem_cons_of_mem _ he, hdispatched⟩
  | @quantumExpired time returned g htime hcall =>
    refine ⟨?_, fun job hjob => ?_, h.nodup⟩
    · intro e he job hjob
      rcases List.mem_cons.mp he with rfl | he
      · have hreturned : returned = some job := hjob.resolve_right fun h => by cases h
        exact (unfinished_quantum.mp (hinv'.running job hreturned)).came htime
      · exact h.after e he job hjob
    · obtain ⟨e, he, hdispatched⟩ := h.dispatched job hjob
      exact ⟨e, List.mem_cons_of_mem _ he, hdispatched⟩
  | @jobFinished job time g htime hrunning hcall =>
    have hun := hinv.running job hrunning
    refine ⟨?_, ?_, List.nodup_cons.mpr ⟨not_mem_finished hun, h.nodup⟩⟩
    · intro e he other hother
      rcases List.mem_cons.mp he with rfl | he
      · obtain rfl : job = other := Option.some.inj (hother.resolve_left fun h => by cases h)
        exact hun.came htime
      · exact h.after e he other hother
    · intro other hother
      obtain ⟨e, he, hdispatched⟩ : ∃ e ∈ w.history, e.dispatched = some other := by
        rcases List.mem_cons.mp hother with rfl | hother
        · exact exists_of_running hrunning
        · exact h.dispatched other hother
      exact ⟨e, List.mem_cons_of_mem _ he, hdispatched⟩

/-! ## Shortest jobs first -/

/-- With a batch of jobs: each that has had the CPU has finished, in its time, or has it now; none
of these takes longer than one that is left, and they have finished in the best order. -/
structure Shortest (d : J → R) (a : R) (w : World J R) : Prop where
  given : ∀ e ∈ w.history, ∀ job, e.dispatched = some job →
    running w.history = some job ∨ job ∈ (finishedJobs w.history).map Prod.fst
  received : ∀ job ∈ (finishedJobs w.history).map Prod.fst, ∀ now,
    cpuTime w.history job now = d job
  first : ∀ job, running w.history = some job ∨ job ∈ (finishedJobs w.history).map Prod.fst →
    ∀ other, Unfinished w.history other → d job ≤ d other
  order : ((finishedJobs w.history).map fun x => d x.1).Pairwise fun p q => q ≤ p
  sum : ((finishedJobs w.history).map fun x => x.2 - a).sum =
    completions ((finishedJobs w.history).map fun x => d x.1)

/-- What finishes at `time` and what has finished before have used all time since `a`. -/
theorem Shortest.elapsed (h : Shortest d a w) (hpast : Past w) (hinv : Inv .sjf w)
    (hrunning : running w.history = some job)
    (hbatch : Batch d a (.finished job time :: w.history)) :
    time - a = d job + ((finishedJobs w.history).map fun x => d x.1).sum := by
  have hnodup : (job :: (finishedJobs w.history).map Prod.fst).Nodup :=
    List.nodup_cons.mpr ⟨not_mem_finished (hinv.running job hrunning), hpast.nodup⟩
  have hgiven : ∀ e ∈ w.history, ∀ other, e.dispatched = some other →
      other ∈ (job :: (finishedJobs w.history).map Prod.fst).toFinset := by
    intro e he other hother
    rw [List.mem_toFinset, List.mem_cons]
    refine (h.given e he other hother).imp_left fun hother => ?_
    exact Option.some.inj (hother.symm.trans hrunning)
  have hreceived : ∀ other ∈ (job :: (finishedJobs w.history).map Prod.fst).toFinset,
      cpuTime w.history other time = d other := by
    intro other hother
    rcases List.mem_cons.mp (List.mem_toFinset.mp hother) with rfl | hother
    · exact hbatch.2.2
    · exact h.received other hother time
  calc time - a
      = ∑ other ∈ (job :: (finishedJobs w.history).map Prod.fst).toFinset,
          cpuTime w.history other time := by
        rw [hbatch.1.sum_cpuTime hgiven, if_neg (by simp [hrunning])]
    _ = ∑ other ∈ (job :: (finishedJobs w.history).map Prod.fst).toFinset, d other :=
        Finset.sum_congr rfl hreceived
    _ = d job + ((finishedJobs w.history).map fun x => d x.1).sum := by
        rw [List.sum_toFinset d hnodup, List.map_cons, List.sum_cons, List.map_map]
        rfl

theorem step_shortest {P : Priqueue J} {act : Action J R} (hinv : Inv .sjf w) (hpast : Past w)
    (h : Shortest d a w) (hstep : Step P w act w') (hbatch : Batch d a w'.history)
    (hdeclared : ∀ job, ∀ x ∈ arrival w'.history job, x.2.runningTime = d job) :
    Shortest d a w' := by
  have hinv' := step_inv P hinv hstep
  cases hstep with
  | newJob hnew htime =>
    obtain ⟨-, -, -, hnone⟩ := hbatch
    have hfinished : ∀ job, job ∉ (finishedJobs w.history).map Prod.fst := by
      intro job hjob
      obtain ⟨e, he, hdispatched⟩ := hpast.dispatched job hjob
      rw [hnone e he] at hdispatched
      cases hdispatched
    have hidle : ∀ job, running w.history ≠ some job := by
      intro job hjob
      obtain ⟨e, he, hdispatched⟩ := exists_of_running hjob
      rw [hnone e he] at hdispatched
      cases hdispatched
    refine ⟨fun e he job hjob => ?_, fun job hjob => absurd hjob (hfinished job),
      fun job hjob => absurd hjob (not_or.mpr ⟨hidle job, hfinished job⟩), h.order, h.sum⟩
    rcases List.mem_cons.mp he with rfl | he
    · cases hjob
    · exact h.given e he job hjob
  | @quantumExpired time returned g htime hcall =>
    obtain ⟨returned', g', hcall', hchosen, -⟩ := schedulerQuantumExpired_spec P hinv time
    obtain ⟨rfl, rfl⟩ := Prod.mk.inj (Option.some.inj (hcall'.symm.trans hcall))
    have hkeeps : ∀ job, running w.history = some job → returned' = some job := by
      intro job hjob
      rw [Chosen, if_neg (by simp [Scheme.preemptive, hjob]), hjob] at hchosen
      exact hchosen
    refine ⟨fun e he job hjob => ?_, fun job hjob now => ?_, fun job hjob other hother => ?_,
      h.order, h.sum⟩
    · rcases List.mem_cons.mp he with rfl | he
      · exact .inl hjob
      · exact (h.given e he job hjob).imp_left (hkeeps job)
    · have hne : returned' ≠ some job := fun heq =>
        not_mem_finished (unfinished_quantum.mp (hinv'.running job heq)) hjob
      rw [cpuTime_quantum, h.received job hjob, if_neg hne, add_zero]
    · have hother' := unfinished_quantum.mp hother
      rcases hjob with hjob | hjob
      · cases hr : running w.history with
        | some job' =>
          obtain rfl : job' = job := Option.some.inj ((hkeeps job' hr).symm.trans hjob)
          exact h.first job' (.inl hr) other hother'
        | none =>
          obtain rfl : returned' = some job := hjob
          rw [Chosen, if_pos (.inr hr)] at hchosen
          obtain ⟨hun, hleast⟩ := hchosen
          obtain ⟨x, hx⟩ := Option.isSome_iff_exists.mp hun.1
          obtain ⟨y, hy⟩ := Option.isSome_iff_exists.mp hother'.1
          have hnot := hleast other hother' _ (by rw [standing, hy]; rfl) _ (by rw [standing, hx]; rfl)
          have hle := not_lt.mp fun hlt => hnot (.inl hlt)
          rw [← hdeclared job x hx, ← hdeclared other y hy]
          exact hle
      · exact h.first job (.inr hjob) other hother'
  | @jobFinished job time g htime hrunning hcall =>
    have hun := hinv.running job hrunning
    refine ⟨fun e he other hother => ?_, fun other hother now => ?_, fun other hother other' hun' => ?_,
      ?_, ?_⟩
    · rcases List.mem_cons.mp he with rfl | he
      · cases hother
      · refine .inr ((h.given e he other hother).elim (fun hother => ?_) (List.mem_cons_of_mem _))
        obtain rfl : job = other := Option.some.inj (hrunning.symm.trans hother)
        exact List.mem_cons_self
    · rw [cpuTime_finished]
      rcases List.mem_cons.mp hother with rfl | hother
      · exact hbatch.2.2
      · exact h.received other hother time
    · have hleft := (unfinished_finished.mp hun').1
      rcases List.mem_cons.mp (hother.resolve_left fun h => by cases h) with rfl | hother
      · exact h.first other (.inl hrunning) other' hleft
      · exact h.first other (.inr hother) other' hleft
    · refine List.pairwise_cons.mpr ⟨fun p hp => ?_, h.order⟩
      obtain ⟨x, hx, rfl⟩ := List.mem_map.mp hp
      exact h.first x.1 (.inr (List.mem_map_of_mem hx)) job hun
    · show time - a + ((finishedJobs w.history).map fun x => x.2 - a).sum =
        completions ((finishedJobs w.history).map fun x => d x.1) +
          (d job + ((finishedJobs w.history).map fun x => d x.1).sum)
      rw [h.sum, h.elapsed hpast hinv hrunning hbatch, add_comm]

/-! ## Every run -/

theorem Step.loose {P : Priqueue J} {act : Action J R} (h : Step P w act w') :
    LooseStep P w act w' := by
  cases h with
  | newJob hnew htime => exact .newJob hnew htime
  | quantumExpired htime hcall => exact .quantumExpired htime (.inr rfl) hcall
  | jobFinished htime hrunning hcall => exact .jobFinished htime hrunning hcall

theorem Step.exists_cons {P : Priqueue J} {act : Action J R} (h : Step P w act w') :
    ∃ e, w'.history = e :: w.history := by
  cases h <;> exact ⟨_, rfl⟩

theorem Step.arrival {P : Priqueue J} {act : Action J R} (h : Step P w act w')
    {x : R × SchedulerInfo R} (hx : arrival w.history job = some x) :
    Scheduler.arrival w'.history job = some x := by
  cases h with
  | quantumExpired => exact hx
  | jobFinished => exact hx
  | @newJob other jobNumber time schedData hnew htime =>
    have hne : other ≠ job := by
      rintro rfl
      rw [hnew] at hx
      cases hx
    rw [arrival_arrived, if_neg hne, hx]

theorem run_past {P : Priqueue J} {as : List (Action J R)} (h : Run (Step P) (.init s) as w) :
    Inv s w ∧ Kept s w ∧ Past w := by
  have hinit : Past (.init s : World J R) :=
    ⟨fun e he => absurd he List.not_mem_nil, fun job hjob => absurd hjob List.not_mem_nil,
      List.nodup_nil⟩
  refine h.invariant (P := fun w => Inv s w ∧ Kept s w ∧ Past w)
    ⟨init_inv s, init_kept s, hinit⟩ fun hw hstep => ?_
  obtain ⟨hinv, hkept, hpast⟩ := hw
  exact ⟨step_inv P hinv hstep, hstep.loose.kept P hkept, step_past hinv hpast hstep⟩

theorem run_batch {P : Priqueue J} {as : List (Action J R)} (h : Run (Step P) (.init .sjf) as w)
    (hbatch : Batch d a w.history)
    (hdeclared : ∀ job, ∀ x ∈ arrival w.history job, x.2.runningTime = d job) :
    Shortest d a w := by
  induction h with
  | refl =>
    exact ⟨fun e he => absurd he List.not_mem_nil, fun job hjob => absurd hjob List.not_mem_nil,
      fun job hjob => absurd (hjob.resolve_left fun h => by cases h) List.not_mem_nil,
      List.Pairwise.nil, rfl⟩
  | tail hrun hstep ih =>
    obtain ⟨e, he⟩ := hstep.exists_cons
    obtain ⟨hinv, -, hpast⟩ := run_past hrun
    have hbefore := hbatch
    rw [he] at hbefore
    have hearlier := ih hbefore.1 fun job x hx => hdeclared job x (hstep.arrival hx)
    exact step_shortest hinv hpast hearlier hstep hbatch hdeclared

/-- The sums of jobs that all came at `a`. -/
theorem Ledger.sums {g : Globals J R} (h : Ledger history g)
    (hcame : ∀ x ∈ finishedJobs history, arrivalTime history x.1 = a)
    (hdeclared : ∀ x ∈ finishedJobs history, declaredTime history x.1 = d x.1) :
    g.ttat = ((finishedJobs history).map fun x => x.2 - a).sum ∧
      g.twt + ((finishedJobs history).map fun x => d x.1).sum = g.ttat := by
  have hturnaround : g.ttat = total history fun _ finish => finish - a := by
    rw [h.turnaround]
    refine total_congr rfl fun x hx => ?_
    rw [Scheduler.turnaround, hcame x hx]
  have hwaiting : g.twt = total history fun job finish => finish - a - d job := by
    rw [h.waiting]
    refine total_congr rfl fun x hx => ?_
    rw [Scheduler.waiting, hcame x hx, hdeclared x hx]
  refine ⟨hturnaround, ?_⟩
  rw [hwaiting, hturnaround, total, total, ← List.sum_map_add]
  exact congrArg List.sum (List.map_congr_left fun x _ => sub_add_cancel ..)

omit [Field R] in
theorem finished_iff (hpast : Past w) (hdone : ∀ job, ¬ Unfinished w.history job) :
    job ∈ (finishedJobs w.history).map Prod.fst ↔ (arrival w.history job).isSome := by
  constructor
  · intro hjob
    obtain ⟨e, he, hdispatched⟩ := hpast.dispatched job hjob
    obtain ⟨x, hx, -⟩ := hpast.after e he job (.inl hdispatched)
    rw [hx]
    rfl
  · intro harrived
    have hfinished : ∃ time, .finished job time ∈ w.history := by
      by_contra hnot
      exact hdone job ⟨harrived, fun time hmem => hnot ⟨time, hmem⟩⟩
    obtain ⟨time, hmem⟩ := hfinished
    exact List.mem_map_of_mem (mem_finishedJobs.mpr hmem)

theorem World.call_passes {P : Priqueue J} {act : Action J R} (h : w.call P act = some w') :
    Step P w act w' := by
  cases act with
  | newJob job jobNumber time schedData =>
    obtain ⟨hguard, hcall⟩ := Option.ite_none_right_eq_some.mp h
    obtain rfl := Option.some.inj hcall
    exact .newJob hguard.1 hguard.2
  | quantumExpired time =>
    obtain ⟨htime, hcall⟩ := Option.ite_none_right_eq_some.mp h
    obtain ⟨x, hx, rfl⟩ := Option.map_eq_some_iff.mp hcall
    exact .quantumExpired htime hx
  | jobFinished time =>
    obtain ⟨htime, hcall⟩ := Option.ite_none_right_eq_some.mp h
    obtain ⟨job, hjob, hcall⟩ := Option.bind_eq_some_iff.mp hcall
    obtain ⟨g, hg, rfl⟩ := Option.map_eq_some_iff.mp hcall
    exact .jobFinished htime hjob hg

/-- Job 1 takes twice as long as job 2, which comes at the same time. -/
def longAndShort (s : Scheme) (calls : List (Action ℕ ℚ)) : Option (World ℕ ℚ) :=
  (.newJob 1 0 0 ⟨10, 0⟩ :: .newJob 2 1 0 ⟨5, 0⟩ :: calls).foldlM (World.call .insertion) (.init s)

end Cs241.Scheduler
