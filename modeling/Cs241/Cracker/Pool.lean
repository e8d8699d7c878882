import Cs241.Cracker.Model
import Cs241.Foundation.Runs
import Mathlib.Algebra.BigOperators.Fin
import Mathlib.Data.List.Nodup

/-!
# The tasks and the `NULL` in the queue

The `NULL` comes behind all tasks, and whoever pulls it puts it back. So a worker
stops only when no task is left, and every task is pulled by one worker, which
works on it to the end.
-/
namespace Cs241.Cracker

open Foundation

variable {u : Utils} {n : ℕ} {s s' : Pool n} {i : Fin n} {jobs : List Job}

/-! ## What the log tells -/

def Event.started : Event n → Option (Fin n × Task)
  | .threadStart id task => some (id, task)
  | _ => none

def Event.finished : Event n → Option (Fin n × Task)
  | .threadResult id task _ _ _ => some (id, task)
  | _ => none

def Event.found : Event n → Option (Fin n × Task)
  | .threadResult id task _ _ true => some (id, task)
  | _ => none

/-- The tasks that were started, each with its worker. -/
def Pool.started (s : Pool n) : List (Fin n × Task) := s.log.filterMap Event.started

/-- The tasks for which a result was printed, each with its worker. -/
def Pool.finished (s : Pool n) : List (Fin n × Task) := s.log.filterMap Event.finished

/-- The tasks whose result is a password, each with its worker. -/
def Pool.found (s : Pool n) : List (Fin n × Task) := s.log.filterMap Event.found

section

variable {queue : List (Option Task)} {workers : Fin n → Worker} {events : List (Event n)}

theorem started_append : Pool.started ⟨queue, workers, s.log ++ events⟩ =
    s.started ++ events.filterMap Event.started := List.filterMap_append

theorem finished_append : Pool.finished ⟨queue, workers, s.log ++ events⟩ =
    s.finished ++ events.filterMap Event.finished := List.filterMap_append

theorem found_append : Pool.found ⟨queue, workers, s.log ++ events⟩ =
    s.found ++ events.filterMap Event.found := List.filterMap_append

end

/-- The task that a worker has started and not finished. -/
def Point.atWork : Point → Option Task
  | .loop task _ _ | .result task _ _ _ => some task
  | .pull | .push | .returned _ => none

@[simp] theorem atWork_pull : Point.pull.atWork = none := rfl

@[simp] theorem atWork_push : Point.push.atWork = none := rfl

@[simp] theorem atWork_returned (count : ℕ) : (Point.returned count).atWork = none := rfl

@[simp] theorem atWork_result (task : Task) (key : CString) (hashCount : ℕ) (found : Bool) :
    (Point.result task key hashCount found).atWork = some task := rfl

/-- The worker has pulled the `NULL`. -/
def Point.Stopped : Point → Prop
  | .push | .returned _ => True
  | .pull | .loop _ _ _ | .result _ _ _ _ => False

/-! ## What a step can do -/

/-- The effect of a step on the queue, the workers and the log. -/
inductive Move (s : Pool n) (id : Fin n) : Pool n → Prop
  | pulled {task : Task} {rest : List (Option Task)} {w : Worker}
      (hjobs : s.jobs = some task :: rest)
      (hpoint : (s.workers id).point = .pull) (hwork : w.point.atWork = some task)
      (hgo : ¬ w.point.Stopped) (hnum : w.numFound = (s.workers id).numFound) :
      Move s id ⟨rest, Function.update s.workers id w, s.log ++ [.threadStart id task]⟩
  | stopped {rest : List (Option Task)} (hjobs : s.jobs = none :: rest)
      (hpoint : (s.workers id).point = .pull) :
      Move s id ⟨rest, Function.update s.workers id { s.workers id with point := .push }, s.log⟩
  | worked {w : Worker} {events : List (Event n)}
      (hwork : w.point.atWork = (s.workers id).point.atWork)
      (hgo : ¬ (s.workers id).point.Stopped) (hgo' : ¬ w.point.Stopped)
      (hnum : w.numFound = (s.workers id).numFound)
      (hsilent : ∀ e ∈ events, e.started = none ∧ e.finished = none ∧ e.found = none) :
      Move s id ⟨s.jobs, Function.update s.workers id w, s.log ++ events⟩
  | printed {task : Task} {key : CString} {hashCount : ℕ} {found : Bool}
      (hpoint : (s.workers id).point = .result task key hashCount found) :
      Move s id ⟨s.jobs, Function.update s.workers id
        ⟨if found then (s.workers id).numFound + 1 else (s.workers id).numFound, .pull⟩,
        s.log ++ [.threadResult id task key hashCount found]⟩
  | putBack (hpoint : (s.workers id).point = .push) :
      Move s id ⟨s.jobs ++ [none], Function.update s.workers id
        { s.workers id with point := .returned (s.workers id).numFound }, s.log⟩

theorem next_move (h : s.next u i = some s') : Move s i s' := by
  unfold Pool.next crackStep at h
  cases hpoint : (s.workers i).point with
  | pull =>
    cases hjobs : s.jobs with
    | nil => simp [hpoint, hjobs] at h
    | cons head rest =>
      cases head with
      | none =>
        simp only [hpoint, hjobs, Option.map_some, Option.some.injEq, List.append_nil] at h
        subst h
        exact .stopped hjobs hpoint
      | some task =>
        simp only [hpoint, hjobs, Option.map_some, Option.some.injEq] at h
        subst h
        exact .pulled hjobs hpoint rfl not_false rfl
  | loop task key hashCount =>
    have hgo : ¬ (s.workers i).point.Stopped := by simp [hpoint, Point.Stopped]
    have hwork : (s.workers i).point.atWork = some task := by simp [hpoint, Point.atWork]
    have hsilent : ∀ {key}, ∀ e ∈ [Event.hashed i task key],
        e.started = none ∧ e.finished = none ∧ e.found = none := by
      simp [Event.started, Event.finished, Event.found]
    simp only [hpoint] at h
    split_ifs at h
    · obtain rfl := Option.some.inj h
      exact .worked hwork.symm hgo not_false rfl hsilent
    · obtain rfl := Option.some.inj h
      exact .worked hwork.symm hgo not_false rfl hsilent
    · obtain rfl := Option.some.inj h
      exact .worked hwork.symm hgo not_false rfl (by simp)
  | result task key hashCount found =>
    simp only [hpoint, Option.map_some, Option.some.injEq] at h
    subst h
    exact .printed hpoint
  | push =>
    simp only [hpoint, Option.map_some, Option.some.injEq, List.append_nil] at h
    subst h
    exact .putBack hpoint
  | returned count => simp [hpoint] at h

/-! ## The invariant -/

/-- The tasks that are still in the queue are `rest`, with the `NULL` behind them unless a worker is
about to put it back; only then has a worker stopped, or later. -/
structure Queued (s : Pool n) (rest : List Task) : Prop where
  null : (s.jobs = rest.map some ++ [none] ∧ ∀ i, (s.workers i).point ≠ .push) ∨
    (s.jobs = [] ∧ ∃ i, ∀ j, (s.workers j).point = .push ↔ j = i)
  stopped : (∃ i, (s.workers i).point.Stopped) → rest = []

structure Inv (jobs : List Job) (s : Pool n) : Prop where
  queued : ∃ rest, Queued s rest ∧ s.started.map Prod.snd ++ rest = jobs.zipIdx
  /-- A task that was started is finished, or its worker is at work on it. -/
  once : ∀ i task, s.started.count (i, task) =
    s.finished.count (i, task) + if (s.workers i).point.atWork = some task then 1 else 0
  found : ∀ i, (s.workers i).numFound = s.found.countP fun x => x.1 = i
  count : ∀ i count, (s.workers i).point = .returned count → count = (s.workers i).numFound

theorem Queued.of_push {rest : List Task} (h : Queued s rest)
    (hpoint : (s.workers i).point = .push) :
    rest = [] ∧ s.jobs = [] ∧ ∀ j, (s.workers j).point = .push → j = i := by
  have hrest := h.stopped ⟨i, by simp [hpoint, Point.Stopped]⟩
  rcases h.null with ⟨-, hno⟩ | ⟨hjobs, k, hk⟩
  · exact absurd hpoint (hno i)
  · obtain rfl := (hk i).mp hpoint
    exact ⟨hrest, hjobs, fun j => (hk j).mp⟩

theorem Queued.of_none {rest : List Task} {jobs : List (Option Task)} (h : Queued s rest)
    (hjobs : s.jobs = none :: jobs) :
    rest = [] ∧ jobs = [] ∧ ∀ i, (s.workers i).point ≠ .push := by
  rcases h.null with ⟨heq, hno⟩ | ⟨heq, -⟩
  · cases rest with
    | nil => exact ⟨rfl, by simpa [hjobs] using heq, hno⟩
    | cons task rest => simp [hjobs] at heq
  · simp [hjobs] at heq

theorem Queued.of_some {rest : List Task} {jobs : List (Option Task)} (h : Queued s rest)
    (hjobs : s.jobs = some task :: jobs) :
    ∃ rest', rest = task :: rest' ∧ jobs = rest'.map some ++ [none] ∧
      ∀ i, (s.workers i).point ≠ .push := by
  rcases h.null with ⟨heq, hno⟩ | ⟨heq, -⟩
  · cases rest with
    | nil => simp [hjobs] at heq
    | cons task' rest =>
      obtain ⟨rfl, hrest⟩ : task = task' ∧ jobs = rest.map some ++ [none] := by
        simpa [hjobs] using heq
      exact ⟨rest, rfl, hrest, hno⟩
  · simp [hjobs] at heq

/-- Workers that go on, and a queue that stays: only the worker that moves is looked at. -/
theorem Queued.update {rest : List Task} {w : Worker} {log : List (Event n)} (h : Queued s rest)
    (hgo : ¬ (s.workers i).point.Stopped) (hgo' : ¬ w.point.Stopped) :
    Queued ⟨s.jobs, Function.update s.workers i w, log⟩ rest := by
  have hpush : ∀ j, (Function.update s.workers i w j).point = .push ↔
      (s.workers j).point = .push := by
    intro j
    by_cases hj : j = i
    · subst hj
      rw [Function.update_self]
      constructor
      · intro h
        simp [h, Point.Stopped] at hgo'
      · intro h
        simp [h, Point.Stopped] at hgo
    · rw [Function.update_of_ne hj]
  refine ⟨?_, ?_⟩
  · simpa only [ne_eq, hpush] using h.null
  · rintro ⟨j, hj⟩
    apply h.stopped
    by_cases hji : j = i
    · subst hji
      exact absurd (by simpa using hj) hgo'
    · exact ⟨j, by simpa [Function.update_of_ne hji] using hj⟩

theorem Move.queued {rest : List Task} (h : Move s i s') (hq : Queued s rest) :
    ∃ rest', Queued s' rest' ∧
      s.started.map Prod.snd ++ rest = s'.started.map Prod.snd ++ rest' := by
  cases h with
  | @pulled task tail w hjobs hpoint hwork hgo hnum =>
    obtain ⟨rest', rfl, rfl, hno⟩ := hq.of_some hjobs
    have hopen : ∀ j, ¬ (s.workers j).point.Stopped := by
      intro j hj
      exact absurd (hq.stopped ⟨j, hj⟩) (by simp)
    have hopen' : ∀ j, ¬ (Function.update s.workers i w j).point.Stopped := by
      intro j
      rcases eq_or_ne j i with rfl | hj
      · simpa using hgo
      · rw [Function.update_of_ne hj]
        exact hopen j
    refine ⟨rest', ⟨.inl ⟨rfl, ?_⟩, ?_⟩, ?_⟩
    · intro j hpush
      have hpush' : (Function.update s.workers i w j).point = .push := hpush
      exact hopen' j (by simp [hpush', Point.Stopped])
    · rintro ⟨j, hj⟩
      exact absurd hj (hopen' j)
    · simp [Pool.started, Event.started]
  | stopped hjobs hpoint =>
    obtain ⟨rfl, rfl, hno⟩ := hq.of_none hjobs
    refine ⟨[], ⟨.inr ⟨rfl, i, ?_⟩, fun _ => rfl⟩, rfl⟩
    intro j
    rcases eq_or_ne j i with rfl | hj
    · simp
    · simp [hj, hno j]
  | @worked w events hwork hgo hgo' hnum hsilent =>
    refine ⟨rest, hq.update hgo hgo', ?_⟩
    have hnone : events.filterMap Event.started = [] :=
      List.filterMap_eq_nil_iff.mpr fun e he => (hsilent e he).1
    simp [Pool.started, hnone]
  | printed hpoint =>
    refine ⟨rest, hq.update (by simp [hpoint, Point.Stopped]) not_false, ?_⟩
    simp [Pool.started, Event.started]
  | putBack hpoint =>
    obtain ⟨rfl, hjobs, hunique⟩ := hq.of_push hpoint
    refine ⟨[], ⟨.inl ⟨by simp [hjobs], ?_⟩, fun _ => rfl⟩, rfl⟩
    intro j
    rcases eq_or_ne j i with rfl | hj
    · simp
    · have hne : (s.workers j).point ≠ .push := fun h => hj (hunique j h)
      simpa [Function.update_of_ne hj] using hne

theorem Move.once (h : Move s i s') (hs : ∀ i task, s.started.count (i, task) =
      s.finished.count (i, task) + if (s.workers i).point.atWork = some task then 1 else 0)
    (j : Fin n) (task : Task) : s'.started.count (j, task) =
      s'.finished.count (j, task) + if (s'.workers j).point.atWork = some task then 1 else 0 := by
  have hj := hs j task
  cases h with
  | @pulled task' tail w hjobs hpoint hwork hgo hnum =>
    rcases eq_or_ne j i with rfl | hji
    · rw [hpoint] at hj
      simp [started_append, finished_append, List.filterMap_cons, Event.started, Event.finished, hj,
        hwork, List.count_singleton]
    · simp [started_append, finished_append, List.filterMap_cons, Event.started, Event.finished, hj,
        Function.update_of_ne hji, Ne.symm hji]
  | stopped hjobs hpoint =>
    rcases eq_or_ne j i with rfl | hji
    · rw [hpoint] at hj
      simpa [Pool.started, Pool.finished] using hj
    · simpa [Pool.started, Pool.finished, Function.update_of_ne hji] using hj
  | @worked w events hwork hgo hgo' hnum hsilent =>
    have hstarted : events.filterMap Event.started = [] :=
      List.filterMap_eq_nil_iff.mpr fun e he => (hsilent e he).1
    have hfinished : events.filterMap Event.finished = [] :=
      List.filterMap_eq_nil_iff.mpr fun e he => (hsilent e he).2.1
    rw [started_append, finished_append, hstarted, hfinished, List.append_nil, List.append_nil]
    rcases eq_or_ne j i with rfl | hji
    · simpa [hwork] using hj
    · simpa [Function.update_of_ne hji] using hj
  | @printed task' key hashCount found hpoint =>
    rcases eq_or_ne j i with rfl | hji
    · rw [hpoint] at hj
      simp [started_append, finished_append, List.filterMap_cons, Event.started, Event.finished, hj,
        List.count_singleton]
    · simp [started_append, finished_append, List.filterMap_cons, Event.started, Event.finished, hj,
        Function.update_of_ne hji, Ne.symm hji]
  | putBack hpoint =>
    rcases eq_or_ne j i with rfl | hji
    · rw [hpoint] at hj
      simpa [Pool.started, Pool.finished] using hj
    · simpa [Pool.started, Pool.finished, Function.update_of_ne hji] using hj

theorem Move.found (h : Move s i s')
    (hs : ∀ i, (s.workers i).numFound = s.found.countP fun x => x.1 = i) (j : Fin n) :
    (s'.workers j).numFound = s'.found.countP fun x => x.1 = j := by
  have hj := hs j
  cases h with
  | pulled hjobs hpoint hwork hgo hnum =>
    rw [found_append]
    rcases eq_or_ne j i with rfl | hji
    · simpa [List.filterMap_cons, Event.found, hnum] using hj
    · simpa [List.filterMap_cons, Event.found, Function.update_of_ne hji] using hj
  | stopped hjobs hpoint =>
    rcases eq_or_ne j i with rfl | hji
    · simpa [Pool.found] using hj
    · simpa [Pool.found, Function.update_of_ne hji] using hj
  | @worked w events hwork hgo hgo' hnum hsilent =>
    have hfound : events.filterMap Event.found = [] :=
      List.filterMap_eq_nil_iff.mpr fun e he => (hsilent e he).2.2
    rw [found_append, hfound, List.append_nil]
    rcases eq_or_ne j i with rfl | hji
    · simpa [hnum] using hj
    · simpa [Function.update_of_ne hji] using hj
  | @printed task key hashCount found hpoint =>
    rw [found_append]
    rcases eq_or_ne j i with rfl | hji
    · cases found <;> simp [Event.found, hj]
    · cases found <;> simp [Event.found, hj, Function.update_of_ne hji, Ne.symm hji]
  | putBack hpoint =>
    rcases eq_or_ne j i with rfl | hji
    · simpa [Pool.found] using hj
    · simpa [Pool.found, Function.update_of_ne hji] using hj

theorem Move.count (h : Move s i s')
    (hs : ∀ i count, (s.workers i).point = .returned count → count = (s.workers i).numFound)
    (j : Fin n) (count : ℕ) (hj : (s'.workers j).point = .returned count) :
    count = (s'.workers j).numFound := by
  have hother : ∀ {w : Worker}, ¬ w.point.Stopped ∨ w.point = .push →
      (Function.update s.workers i w j).point = .returned count →
        count = (Function.update s.workers i w j).numFound := by
    intro w hw hpoint
    rcases eq_or_ne j i with rfl | hji
    · rw [Function.update_self] at hpoint
      simp [hpoint, Point.Stopped] at hw
    · rw [Function.update_of_ne hji] at hpoint ⊢
      exact hs j count hpoint
  cases h with
  | pulled hjobs hpoint hwork hgo hnum => exact hother (.inl hgo) hj
  | stopped hjobs hpoint => exact hother (.inr rfl) hj
  | worked hwork hgo hgo' hnum hsilent => exact hother (.inl hgo') hj
  | printed hpoint => exact hother (.inl not_false) hj
  | putBack hpoint =>
    rcases eq_or_ne j i with rfl | hji
    · simpa using hj.symm
    · simp only [Function.update_of_ne hji] at hj ⊢
      exact hs j count hj

theorem Inv.next (h : Inv jobs s) (hstep : Step u s i s') : Inv jobs s' := by
  have hmove := next_move hstep
  obtain ⟨rest, hq, htasks⟩ := h.queued
  obtain ⟨rest', hq', heq⟩ := hmove.queued hq
  exact ⟨⟨rest', hq', heq.symm.trans htasks⟩, hmove.once h.once, hmove.found h.found,
    hmove.count h.count⟩

theorem start_inv (n : ℕ) (jobs : List Job) : Inv jobs (start n jobs) where
  queued := by
    refine ⟨jobs.zipIdx, ⟨.inl ⟨rfl, by simp [start]⟩, ?_⟩, rfl⟩
    rintro ⟨i, hi⟩
    exact hi.elim
  once := fun _ _ => rfl
  found := fun _ => rfl
  count := by simp [start]

/-! ## The run -/

theorem sum_countP (found : List (Fin n × Task)) :
    ∑ i, found.countP (fun x => x.1 = i) = found.length := by
  induction found with
  | nil => simp
  | cons x found ih =>
    simp only [List.countP_cons, Finset.sum_add_distrib, ih, List.length_cons]
    simp

/-- No task is left in the queue when the `NULL` is pulled. When all workers have returned, every
task was started and finished once, by one worker, the `NULL` is in the queue again, and the counts
add up to the number of tasks that were found. -/
theorem run_pool {as : List (Fin n)} (hrun : Run (Step u) (start n jobs) as s) (hn : 0 < n) :
    (∀ rest, s.jobs = none :: rest → ∀ task, some task ∉ rest) ∧
      ∀ counts : Fin n → ℕ, (∀ i, (s.workers i).point = .returned (counts i)) →
        (s.finished.map Prod.snd).Perm jobs.zipIdx ∧ s.started.Perm s.finished ∧
          s.jobs = [none] ∧ ∑ i, counts i = s.found.length := by
  have hinv : Inv jobs s := hrun.invariant (start_inv n jobs) Inv.next
  obtain ⟨rest, hq, htasks⟩ := hinv.queued
  constructor
  · intro tail hjobs task
    obtain ⟨-, rfl, -⟩ := hq.of_none hjobs
    exact List.not_mem_nil
  · intro counts hreturned
    obtain rfl : rest = [] := hq.stopped ⟨⟨0, hn⟩, by simp [hreturned, Point.Stopped]⟩
    have hperm : s.started.Perm s.finished := by
      rw [List.perm_iff_count]
      rintro ⟨i, task⟩
      simpa [hreturned] using hinv.once i task
    refine ⟨?_, hperm, ?_, ?_⟩
    · rw [List.append_nil] at htasks
      exact (hperm.map Prod.snd).symm.trans (.of_eq htasks)
    · rcases hq.null with ⟨hjobs, -⟩ | ⟨-, i, hi⟩
      · simpa using hjobs
      · exact absurd ((hi i).mpr rfl) (by simp [hreturned])
    · rw [← sum_countP]
      refine Finset.sum_congr rfl fun i _ => ?_
      rw [hinv.count i _ (hreturned i), hinv.found i]

/-- One letter is unknown, and `z` is followed by no other; `crypt_r` answers with the key. -/
def plainUtils : Utils where
  getPrefixLength := fun s => s.idxOf 46
  setStringPosition := fun s i => s.map fun _ => 97 + UInt8.ofNat i
  incrementString := fun s => if s = [122] then (0, [97]) else (1, s.map (· + 1))
  cryptR := fun key _ => key

/-- The second worker stops while the first one works on the only task. -/
theorem run_pool_two : ∃ as, ∃ s : Pool 2,
    Run (Step plainUtils) (start 2 [⟨[120], [99, 99], [99, 46]⟩]) as s ∧
      s.finished.length = 1 ∧ s.jobs = [none] ∧ s.found.length = 1 := by
  let s₀ := start 2 [⟨[120], [99, 99], [99, 46]⟩]
  let as : List (Fin 2) := [0, 1, 0, 1, 0, 0, 0, 0]
  have hend : (as.foldlM (Pool.next plainUtils) s₀).map (fun s =>
      ((s.workers 0).point, (s.workers 1).point)) = some (.returned 1, .returned 0) := by
    decide
  obtain ⟨s, hs, hpoints⟩ := Option.map_eq_some_iff.mp hend
  obtain ⟨hfirst, hsecond⟩ := Prod.mk.inj hpoints
  have hrun : Run (Step plainUtils) s₀ as s := Run.of_fold hs
  have hreturned : ∀ i, (s.workers i).point = .returned (![1, 0] i) := by
    rw [Fin.forall_fin_two]
    exact ⟨hfirst, hsecond⟩
  obtain ⟨hfinished, -, hjobs, hsum⟩ := (run_pool hrun (by decide)).2 _ hreturned
  refine ⟨as, s, hrun, ?_, hjobs, ?_⟩
  · simpa using hfinished.length_eq
  · rw [← hsum]
    rfl

end Cs241.Cracker
