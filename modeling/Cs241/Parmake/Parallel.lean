import Mathlib.Data.List.ReduceOption
import Cs241.Parmake.Recipes

/-!
# Several workers build everything

Every step brings the workers closer to their end: a rule that waits is worth all
steps that it takes to make it, a task those that it takes to pull and test it, and
a worker those up to its next task. Where no worker can go on, either all have
returned, or all wait for a task; the second would leave a rule that is needed,
whose dependencies have succeeded, and that nobody sees to.
-/
namespace Cs241.Parmake

open Foundation

variable {T C F I : Type*} [DecidableEq T]

/-! ## Steps that are left -/

section Weights

variable (mk : Makefile T C)

/-- The steps of the loop over the antineighbors. -/
def pushSteps : List T → ℕ
  | [] => 0
  | anti :: antis => (mk.graph.neighbors anti).length + 6 + pushSteps antis

/-- The steps of a worker up to its next task, and one more while it can pull one. -/
def Point.steps : Point T C → ℕ
  | .pushLastNull => 1
  | .pull => 2
  | .setProcessing _ | .pushNull => 3
  | .testState _ | .testGoalCount => 4
  | .countGoal _ => 5
  | .testAntineighbor _ antis => 6 + pushSteps mk antis
  | .pushGood _ _ antis => 10 + pushSteps mk antis
  | .scan _ _ deps _ antis => 11 + pushSteps mk antis + deps.length
  | .getState r => 7 + pushSteps mk (mk.graph.antineighbors r)
  | .setSucceeded r => 8 + pushSteps mk (mk.graph.antineighbors r)
  | .testFailed r => 9 + pushSteps mk (mk.graph.antineighbors r)
  | .runCommands r commands => 10 + pushSteps mk (mk.graph.antineighbors r) + commands.length
  | .callExecute r => 11 + pushSteps mk (mk.graph.antineighbors r) + (mk.commands r).length
  | .testChanged r => 12 + pushSteps mk (mk.graph.antineighbors r) + (mk.commands r).length
  | .checkDependencies r deps =>
    13 + pushSteps mk (mk.graph.antineighbors r) + (mk.commands r).length + deps.length
  | _ => 0

/-- The steps for a rule in a state: all of them as long as no worker has marked it. -/
def ruleSteps (rule : T) (state : RuleState) : ℕ :=
  if state = .unprocessed then
    (Point.checkDependencies rule (mk.graph.neighbors rule) : Point T C).steps mk
  else 0

/-- The steps for the rules that wait and for the tasks. -/
def World.steps (w : World T C F) : ℕ :=
  ∑ r ∈ mk.graph.vertices.toFinset, ruleSteps mk r (w.state r) + 3 * w.tasks.reduceOption.length

/-- The steps that are left. -/
def Workers.steps [Fintype I] (s : Workers I T C F) : ℕ :=
  s.world.steps mk + ∑ i, (s.point i).steps mk

end Weights

variable {mk : Makefile T C} {env : Env T C F} {w w' : World T C F} {p p' : Point T C}
  {executed : List T} {rule : T}

theorem steps_setState (mk : Makefile T C) (w : World T C F) (hrule : rule ∈ mk.graph.vertices)
    (state : RuleState) :
    (w.setState rule state).steps mk + ruleSteps mk rule (w.state rule) =
      w.steps mk + ruleSteps mk rule state := by
  have hsum := sum_update (List.mem_toFinset.mpr hrule) (ruleSteps mk) w.state state
  unfold World.steps World.setState
  dsimp only
  omega

/-- Every step is one less that is left. -/
theorem Move.steps_lt (hm : Move mk env w p p' w') (h : p.Sound mk w executed) :
    w'.steps mk + p'.steps mk < w.steps mk + p.steps mk := by
  cases hm with
  | pullNull htasks | pull htasks =>
    simp only [World.steps, Point.steps, htasks, List.reduceOption_cons_of_none,
      List.reduceOption_cons_of_some, List.length_cons]
    omega
  | @mark r =>
    have hsteps := steps_setState mk w h.1.mem .processing
    rw [h.2.2] at hsteps
    simp only [ruleSteps, reduceCtorEq, if_false, if_true] at hsteps
    simp only [Point.steps] at hsteps ⊢
    omega
  | @finish r =>
    have hsteps := steps_setState mk w h.1.needed.mem .succeeded
    rw [h.1.processing] at hsteps
    simp only [ruleSteps, reduceCtorEq, if_false] at hsteps
    simp only [Point.steps]
    omega
  | push =>
    simp [World.steps, World.push, Point.steps, List.reduceOption_append]
    omega
  | pushNull | pushLastNull =>
    simp [World.steps, World.push, Point.steps, List.reduceOption_append]
  | count =>
    split_ifs <;> simp [World.steps, Point.steps]
  | pass | enter =>
    simp only [Point.steps, pushSteps]
    omega
  | last => simp [Point.steps, pushSteps]
  | command => simp [World.steps, Point.steps]
  | _ => simp [Point.steps]

/-! ## The end -/

variable [Fintype I] {s : Workers I T C F} {i : I} {r : T}

theorem ropeStep_eq_none (h : ropeStep mk env w p = none) :
    p = .returned ∨ (p = .pull ∧ w.tasks = []) := by
  cases p with
  | pull =>
    cases htasks : w.tasks with
    | nil => exact .inr ⟨rfl, rfl⟩
    | cons task rest => cases task <;> simp [ropeStep, htasks] at h
  | returned => exact .inl rfl
  | checkDependencies _ list | runCommands _ list | pushFailed _ list | testAntineighbor _ list
  | scan _ _ list _ _ => cases list <;> simp [ropeStep] at h
  | _ => simp [ropeStep] at h

namespace Shared

variable (h : Shared mk env s)
include h

/-- When no worker has a goal to count, the count is the number of goals that have succeeded. -/
theorem count_eq_iff (hnobody : ∀ i, ¬ (s.point i).Uncounted mk) :
    s.world.goalCount = s.world.goalTotal ↔
      ∀ goal ∈ mk.graph.neighbors mk.sentinel, s.world.state goal = .succeeded := by
  have hcount := h.count
  rw [Finset.filter_eq_empty_iff.mpr fun i _ => hnobody i, Finset.card_empty, add_zero] at hcount
  rw [hcount, h.total, ← List.toFinset_card_of_nodup (mk.graph.nodup_neighbors mk.sentinel),
    goalsMade, Finset.card_filter_eq_iff]
  simp

/-- When all goals are counted, every rule that is needed has succeeded. -/
theorem all_succeeded (hstop : s.world.goalCount = s.world.goalTotal) (hr : Needed mk r) :
    s.world.state r = .succeeded := by
  have hgoals := (h.count_eq_iff fun i => h.not_uncounted hstop).mp hstop
  obtain ⟨goal, hgoal, hreach⟩ := hr
  induction hreach with
  | refl => exact hgoals goal hgoal
  | tail _ hstep ih => exact (h.done ih).2 _ ((FinDigraph.mem_neighbors _).mpr hstep)

/-- As long as a rule that is needed has not succeeded, one of them is underway, or is a task or
promised. -/
theorem exists_underway (hac : NoGoalCycle mk) (hr : Needed mk r)
    (hmissing : s.world.state r ≠ .succeeded) :
    (∃ r i, (s.point i).Has r) ∨ (∃ r, some r ∈ s.world.tasks) ∨
      ∃ r i, (s.point i).Promises mk r := by
  have hcycle : ∀ v, Needed mk v ∧ s.world.state v ≠ .succeeded →
      ¬ Relation.TransGen mk.graph.Adj v v := by
    rintro v ⟨⟨goal, hgoal, hreach⟩, -⟩
    exact hac goal hgoal v hreach
  obtain ⟨x, ⟨hneed, hx⟩, hsink⟩ := FinDigraph.exists_sink (g := mk.graph)
    (s := fun v => Needed mk v ∧ s.world.state v ≠ .succeeded) (fun v hv => hv.1.mem) hcycle
    ⟨r, hr, hmissing⟩
  have hready : Ready mk s.world.state x := by
    intro dep hdep
    by_contra hnot
    exact hsink dep ((FinDigraph.mem_neighbors _).mp hdep) ⟨hneed.dep hdep, hnot⟩
  cases hstate : s.world.state x with
  | default => exact absurd hstate ((h.needed x).mpr hneed)
  | failed => exact absurd hstate (h.running x).1
  | ignored => exact absurd hstate (h.running x).2
  | succeeded => exact absurd hstate hx
  | processing =>
    obtain ⟨i, hi⟩ := h.held hstate
    exact .inl ⟨x, i, hi⟩
  | unprocessed =>
    rcases h.promised hstate hready with htask | ⟨i, hi⟩
    · exact .inr (.inl ⟨x, htask⟩)
    · exact .inr (.inr ⟨x, i, hi⟩)

/-- Workers that cannot go on have returned, and everything is made. -/
theorem all_returned [Nonempty I] (hac : NoGoalCycle mk)
    (hstuck : ∀ i, ropeStep mk env s.world (s.point i) = none) :
    (∀ i, s.point i = .returned) ∧ s.world.goalCount = s.world.goalTotal := by
  have hidle : ∀ j, s.point j = .returned ∨ s.point j = .pull :=
    fun j => (ropeStep_eq_none (hstuck j)).imp_right And.left
  have hcount : s.world.goalCount = s.world.goalTotal := by
    obtain ⟨i⟩ := ‹Nonempty I›
    have hsound := h.sound i
    rcases ropeStep_eq_none (hstuck i) with hi | ⟨-, htasks⟩
    · rw [hi] at hsound
      exact hsound
    · have hnobody : ∀ j, ¬ (s.point j).Uncounted mk := by
        intro j
        rcases hidle j with hj | hj <;> simp [hj, Point.Uncounted]
      rw [h.count_eq_iff hnobody]
      intro goal hgoal
      by_contra hmissing
      rcases h.exists_underway hac ⟨goal, hgoal, .refl⟩ hmissing with
        ⟨r, j, hj⟩ | ⟨r, hr⟩ | ⟨r, j, hj⟩
      · rcases hidle j with hp | hp <;> simp [hp, Point.Has] at hj
      · simp [htasks] at hr
      · rcases hidle j with hp | hp <;> simp [hp, Point.Promises] at hj
  refine ⟨fun i => ?_, hcount⟩
  rcases ropeStep_eq_none (hstuck i) with hi | ⟨-, htasks⟩
  · exact hi
  · rcases h.stopping hcount with hnone | ⟨j, hj⟩
    · simp [htasks] at hnone
    · rcases hidle j with hp | hp <;> simp [Point.Stops, hp] at hj

end Shared

variable [DecidableEq I] {files : F} {w₀ : World T C F} {workers : List I}

/-- What the workers share holds in every state of a run, and each step is one less. -/
theorem run_invariant (hac : NoGoalCycle mk) (hfiles : NoTargetFiles mk env files)
    (hstatus : ∀ r ∈ mk.graph.vertices, ∀ c ∈ mk.commands r, env.status c = 0)
    (hload : loadRules mk files = some w₀)
    (hr : Run (Guarded (WorkerStep mk env) TestGuard) (.start w₀) workers s) :
    (Once s ∧ Shared mk env s ∧ Recipes mk s) ∧
      workers.length + s.steps mk ≤ (Workers.start w₀ : Workers I T C F).steps mk := by
  have hlog : w₀.log = [] := by
    obtain ⟨-, -, -, hrest⟩ := loadRules_marks hac hload
    rw [hrest]
    rfl
  refine hr.length_add_le (I := fun s => Once s ∧ Shared mk env s ∧ Recipes mk s)
    (Workers.steps mk) ⟨once_start w₀, shared_start hac hfiles hload, recipes_start hlog⟩ ?_
  rintro s i s' ⟨honce, hshared, hrecipes⟩ ⟨hg, hstep⟩
  obtain ⟨⟨p', w'⟩, hrope, rfl⟩ := Option.map_eq_some_iff.mp hstep
  have hm := hshared.move honce hstatus hrope
  have hless := hm.steps_lt (hshared.sound i)
  have hsum := sum_update (Finset.mem_univ i) (fun _ (p : Point T C) => p.steps mk) s.point p'
  refine ⟨⟨honce.step hg hstep, hshared.step hfiles hg hm, hrecipes.step hshared honce hm⟩, ?_⟩
  unfold Workers.steps
  dsimp only
  omega

theorem keeps_of_run [Nonempty I] (hac : NoGoalCycle mk) (hfiles : NoTargetFiles mk env files)
    (hstatus : ∀ r ∈ mk.graph.vertices, ∀ c ∈ mk.commands r, env.status c = 0)
    (hload : loadRules mk files = some w₀)
    (hr : Run (Guarded (WorkerStep mk env) TestGuard) (.start w₀) workers s) :
    mk.plan.Kept s.world.log ∧ ((∀ i, s.next mk env i = none) →
      (∀ i, s.point i = .returned) ∧ mk.plan.Done s.world.log) := by
  obtain ⟨⟨-, hshared, hrecipes⟩, -⟩ := run_invariant hac hfiles hstatus hload hr
  refine ⟨⟨hrecipes.ordered, hrecipes.isPart, fun rule hneed => ?_⟩, fun hstuck => ?_⟩
  · exact hrecipes.fresh rule fun hmem => hneed (hshared.executed hmem)
  · obtain ⟨hreturned, hcount⟩ :=
      hshared.all_returned hac fun i => Option.map_eq_none_iff.mp (hstuck i)
    exact ⟨hreturned, fun rule hneed =>
      hrecipes.succeeded hshared (hshared.all_succeeded hcount hneed)⟩

/-- If no goal reaches a cycle, no command fails, no target is a file and no test of a rule is
disturbed, then every run of several workers ends. They keep to the plan of the makefile; and when
no worker can go on, all have returned and everything is made. -/
theorem run_finishes [Nonempty I] (hac : NoGoalCycle mk) (hfiles : NoTargetFiles mk env files)
    (hstatus : ∀ r ∈ mk.graph.vertices, ∀ c ∈ mk.commands r, env.status c = 0)
    (hload : loadRules mk files = some w₀) :
    ∃ bound, ∀ (workers : List I) (s : Workers I T C F),
      Run (Guarded (WorkerStep mk env) TestGuard) (.start w₀) workers s →
        workers.length ≤ bound ∧ mk.plan.Kept s.world.log ∧
        ((∀ i, s.next mk env i = none) →
          (∀ i, s.point i = .returned) ∧ mk.plan.Done s.world.log) := by
  refine ⟨(Workers.start w₀ : Workers I T C F).steps mk, fun workers s hr => ?_⟩
  have hlength := (run_invariant hac hfiles hstatus hload hr).2
  exact ⟨by omega, keeps_of_run hac hfiles hstatus hload hr⟩

/-- Each worker makes a dependency of the goal, one makes the goal, and both return. -/
theorem run_finishes_two : ∃ s : Workers (Fin 2) ℕ ℕ Unit, s.executed = [1, 3, 2] ∧
    (∀ i, s.point i = .returned) ∧ twoDeps.plan.Done s.world.log := by
  have hfold : ((twoWorkers [(11, 0), (8, 1), (7, 0), (11, 1), (20, 0), (2, 1)]).foldlM
      (fun s i => if TestGuard s i then s.next twoDeps (failing 0) i else none)
      (Workers.start loaded)).map (fun s => (s.executed, s.point 0, s.point 1)) =
        some ([1, 3, 2], .returned, .returned) := by
    decide +kernel
  obtain ⟨s, hs, heq⟩ := Option.map_eq_some_iff.mp hfold
  obtain ⟨hexecuted, hpoints⟩ := Prod.mk.inj heq
  obtain ⟨hzero, hone⟩ := Prod.mk.inj hpoints
  have hpoint : ∀ i, s.point i = .returned := Fin.forall_fin_two.mpr ⟨hzero, hone⟩
  obtain ⟨bound, hbound⟩ := run_finishes (I := Fin 2) noGoalCycle_twoDeps
    (⟨fun _ _ => rfl, fun _ _ _ _ _ _ _ _ _ => rfl⟩ : NoTargetFiles twoDeps (failing 0) ())
    (by decide) (Option.some_get (loadRules_returns twoDeps ())).symm
  obtain ⟨-, -, hend⟩ := hbound _ s (Run.of_foldlM hs)
  have hstuck : ∀ i, s.next twoDeps (failing 0) i = none := by
    intro i
    rw [Workers.next, hpoint i]
    rfl
  exact ⟨s, hexecuted, hend hstuck⟩

end Cs241.Parmake
