import Cs241.Parmake.Completion

/-!
# Several workers

Every worker is at a point of `rope`. A step of a worker is one queue operation,
one `get_state`, one `set_state`, one command or one access to the count of goals;
where a loop is over, a step only moves the worker. The steps of the workers are
interleaved in any order.

A worker tests the state of the rule that it has pulled and sets it in two steps,
and a rule that has succeeded passes the test again. So a rule is executed once
as long as a worker that tests a rule finds it unprocessed and alone, or finds it
being processed.
-/
namespace Cs241.Parmake

open Foundation

/-- What a worker does next, with the variables that it needs for the rest of `rope`: the rule it
has pulled and what is left of the lists it goes through. -/
inductive Point (T C : Type*)
  | pull
  | testState (rule : T)
  | setProcessing (rule : T)
  | checkDependencies (rule : T) (dependencies : List T)
  | markFailed (rule : T)
  | testChanged (rule : T)
  | callExecute (rule : T)
  | runCommands (rule : T) (commands : List C)
  | commandFailed (rule : T)
  | testFailed (rule : T)
  | setSucceeded (rule : T)
  | skip (rule : T)
  | readGoalCount (rule : T)
  | writeGoalCount (rule : T) (count : ℕ)
  | getState (rule : T)
  | pushFailed (rule : T) (antineighbors : List T)
  | testAntineighbor (rule : T) (antineighbors : List T)
  | scan (rule anti : T) (antidependencies : List T) (good : Bool) (antineighbors : List T)
  | pushGood (rule anti : T) (antineighbors : List T)
  | countGoal (rule : T)
  | testGoalCount
  | pushNull
  | pushLastNull
  | returned
deriving DecidableEq

variable {T C F I : Type*} [DecidableEq T] (mk : Makefile T C) (env : Env T C F)

/-- One step of a worker; `none` when it has returned or waits for a task. -/
def ropeStep (w : World T C F) : Point T C → Option (Point T C × World T C F)
  | .pull =>
    match w.tasks with
    | [] => none
    | none :: rest => some (.pushLastNull, { w with tasks := rest })
    | some rule :: rest => some (.testState rule, { w with tasks := rest })
  | .testState rule =>
    some (if w.state rule = .processing then .pull else .setProcessing rule, w)
  | .setProcessing rule =>
    some (.checkDependencies rule (mk.graph.neighbors rule), w.setState rule .processing)
  | .checkDependencies rule [] => some (.testChanged rule, w)
  | .checkDependencies rule (dep :: deps) =>
    some (if w.state dep = .failed then .markFailed rule else .checkDependencies rule deps, w)
  | .markFailed rule => some (.testChanged rule, w.setState rule .failed)
  | .testChanged rule =>
    some (if changed mk env rule w.files then .callExecute rule else .skip rule, w)
  | .callExecute rule => some (.runCommands rule (mk.commands rule), w)
  | .runCommands rule [] => some (.testFailed rule, w)
  | .runCommands rule (command :: commands) =>
    some (if env.status command ≠ 0 then .commandFailed rule else .runCommands rule commands,
      { w with files := env.effect command w.files, log := .ran rule command :: w.log })
  | .commandFailed rule => some (.testFailed rule, w.setState rule .failed)
  | .testFailed rule =>
    some (if w.state rule ≠ .failed then .setSucceeded rule else .getState rule, w)
  | .setSucceeded rule => some (.getState rule, w.setState rule .succeeded)
  | .skip rule => some (.readGoalCount rule, w.setState rule .succeeded)
  -- Here `goal_count++` is not under the lock.
  | .readGoalCount rule => some (.writeGoalCount rule w.goalCount, w)
  | .writeGoalCount rule count => some (.getState rule, { w with goalCount := count + 1 })
  | .getState rule =>
    some (if w.state rule = .failed then .pushFailed rule (mk.graph.antineighbors rule)
      else if w.state rule = .succeeded then .testAntineighbor rule (mk.graph.antineighbors rule)
      else .countGoal rule, w)
  | .pushFailed rule [] => some (.countGoal rule, w)
  | .pushFailed rule (anti :: antis) => some (.pushFailed rule antis, w.push (some anti))
  | .testAntineighbor rule [] => some (.countGoal rule, w)
  | .testAntineighbor rule (anti :: antis) =>
    some (if w.state anti = .default then .testAntineighbor rule antis
      else .scan rule anti (mk.graph.neighbors anti) true antis, w)
  | .scan rule anti [] good antis =>
    some (if good then .pushGood rule anti antis else .testAntineighbor rule antis, w)
  | .scan rule anti (antidep :: antideps) good antis =>
    some (.scan rule anti antideps (good && w.state antidep = .succeeded) antis, w)
  | .pushGood rule anti antis => some (.testAntineighbor rule antis, w.push (some anti))
  | .countGoal rule => some (.testGoalCount,
      if rule ∈ w.validGoals then { w with goalCount := w.goalCount + 1 } else w)
  | .testGoalCount => some (if w.goalCount = w.goalTotal then .pushNull else .pull, w)
  | .pushNull => some (.pull, w.push none)
  | .pushLastNull => some (.returned, w.push none)
  | .returned => none

/-- The rule for which a worker calls `execute`. -/
def Point.executes : Point T C → List T
  | .callExecute rule => [rule]
  | _ => []

/-- The workers of a run of `parmake`, with the rules for which `execute` was called, newest
first. -/
structure Workers (I T C F : Type*) where
  world : World T C F
  point : I → Point T C
  executed : List T

/-- The workers start when the rules are loaded. -/
def Workers.start (w : World T C F) : Workers I T C F :=
  { world := w, point := fun _ => .pull, executed := [] }

variable [DecidableEq I]

def Workers.next (s : Workers I T C F) (i : I) : Option (Workers I T C F) :=
  (ropeStep mk env s.world (s.point i)).map fun (point, world) =>
    { world := world, point := Function.update s.point i point
      executed := (s.point i).executes ++ s.executed }

def WorkerStep (s : Workers I T C F) (i : I) (s' : Workers I T C F) : Prop :=
  s.next mk env i = some s'

/-- If the worker is about to test the state of the rule that it has pulled, then `q` holds of the
rule. -/
def Point.Tests (p : Point T C) (q : T → Prop) : Prop :=
  match p with
  | .testState rule => q rule
  | _ => True

/-- A worker that tests the rule it has pulled finds it being processed, or unprocessed and with
no other worker between this test and the mark. -/
def TestGuard (s : Workers I T C F) (i : I) : Prop :=
  (s.point i).Tests fun rule => s.world.state rule = .processing ∨
    (s.world.state rule = .unprocessed ∧ ∀ j, s.point j ≠ .setProcessing rule)

/-! ## What a step can do -/

/-- The worker has passed the test for the rule and has not called `execute` yet. -/
def Point.Claims (p : Point T C) (rule : T) : Prop :=
  match p with
  | .setProcessing r | .checkDependencies r _ | .markFailed r | .testChanged r
  | .callExecute r => r = rule
  | _ => False

/-- The worker has marked the rule as well. -/
def Point.Marked (p : Point T C) (rule : T) : Prop :=
  p.Claims rule ∧ p ≠ .setProcessing rule

variable {mk env} {w w' : World T C F} {p p' : Point T C} {rule r : T}

/-- A step marks no rule, or a rule as something else than unprocessed. -/
def Leaves (w w' : World T C F) : Prop :=
  w'.state = w.state ∨ ∃ rule state, state ≠ .unprocessed ∧ w' = w.setState rule state

theorem setState_unprocessed {state : RuleState} (hs : state ≠ .unprocessed)
    (h : (w.setState rule state).state r = .unprocessed) : r ≠ rule ∧ w.state r = .unprocessed := by
  by_cases hr : r = rule
  · simp [World.setState, hr, hs] at h
  · exact ⟨hr, by simpa [World.setState, hr] using h⟩

/-- The steps that matter here are the test and the mark. Any other step claims nothing new. -/
theorem ropeStep_cases (h : ropeStep mk env w p = some (p', w')) :
    (∃ rule, p = .testState rule ∧ p' = .setProcessing rule ∧ w' = w ∧
      w.state rule ≠ .processing) ∨
    (∃ rule deps, p = .setProcessing rule ∧ p' = .checkDependencies rule deps ∧
      w' = w.setState rule .processing) ∨
    ((∀ r, p'.Claims r → p.Marked r ∧ p'.Marked r) ∧ Leaves w w') := by
  have hquiet : ∀ {q : Point T C} {v : World T C F}, some (q, v) = some (p', w') →
      (∀ r, q.Claims r → p.Marked r ∧ q.Marked r) → Leaves w v →
        (∀ r, p'.Claims r → p.Marked r ∧ p'.Marked r) ∧ Leaves w w' := by
    intro q v heq hq hv
    obtain ⟨rfl, rfl⟩ := Prod.mk.inj (Option.some.inj heq)
    exact ⟨hq, hv⟩
  cases p with
  | pull =>
    cases htasks : w.tasks with
    | nil => simp [ropeStep, htasks] at h
    | cons task rest =>
      cases task with
      | none =>
        simp only [ropeStep, htasks] at h
        exact .inr (.inr (hquiet h (by simp [Point.Claims]) (.inl rfl)))
      | some rule =>
        simp only [ropeStep, htasks] at h
        exact .inr (.inr (hquiet h (by simp [Point.Claims]) (.inl rfl)))
  | testState rule =>
    simp only [ropeStep] at h
    split_ifs at h with hp
    · exact .inr (.inr (hquiet h (by simp [Point.Claims]) (.inl rfl)))
    · obtain ⟨rfl, rfl⟩ := Prod.mk.inj (Option.some.inj h)
      exact .inl ⟨rule, rfl, rfl, rfl, hp⟩
  | setProcessing rule =>
    simp only [ropeStep] at h
    obtain ⟨rfl, rfl⟩ := Prod.mk.inj (Option.some.inj h)
    exact .inr (.inl ⟨rule, _, rfl, rfl, rfl⟩)
  | checkDependencies rule deps =>
    cases deps with
    | nil =>
      simp only [ropeStep] at h
      exact .inr (.inr (hquiet h (by simp [Point.Claims, Point.Marked]) (.inl rfl)))
    | cons dep deps =>
      simp only [ropeStep] at h
      refine .inr (.inr (hquiet h (fun r hr => ?_) (.inl rfl)))
      split_ifs at hr ⊢ <;> simpa [Point.Claims, Point.Marked] using hr
  | markFailed rule =>
    simp only [ropeStep] at h
    exact .inr (.inr (hquiet h (by simp [Point.Claims, Point.Marked])
      (.inr ⟨rule, _, by decide, rfl⟩)))
  | testChanged rule =>
    simp only [ropeStep] at h
    refine .inr (.inr (hquiet h (fun r hr => ?_) (.inl rfl)))
    split_ifs at hr ⊢
    · simpa [Point.Claims, Point.Marked] using hr
    · simp [Point.Claims] at hr
  | commandFailed rule | setSucceeded rule | skip rule =>
    simp only [ropeStep] at h
    exact .inr (.inr (hquiet h (by simp [Point.Claims]) (.inr ⟨rule, _, by decide, rfl⟩)))
  | callExecute rule | readGoalCount rule | writeGoalCount rule count | pushGood rule anti antis
  | pushNull | pushLastNull =>
    simp only [ropeStep] at h
    exact .inr (.inr (hquiet h (by simp [Point.Claims]) (.inl rfl)))
  | countGoal rule =>
    simp only [ropeStep] at h
    refine .inr (.inr (hquiet h (by simp [Point.Claims]) (.inl ?_)))
    split_ifs <;> rfl
  | testFailed rule | testGoalCount =>
    simp only [ropeStep] at h
    refine .inr (.inr (hquiet h (fun r hr => ?_) (.inl rfl)))
    split_ifs at hr <;> simp [Point.Claims] at hr
  | getState rule =>
    simp only [ropeStep] at h
    refine .inr (.inr (hquiet h (fun r hr => ?_) (.inl rfl)))
    split_ifs at hr <;> simp [Point.Claims] at hr
  | runCommands rule list | pushFailed rule list | testAntineighbor rule list
  | scan rule anti list good antis =>
    cases list
    all_goals
      simp only [ropeStep] at h
      refine .inr (.inr (hquiet h (fun r hr => ?_) (.inl rfl)))
      (try split_ifs at hr) <;> simp [Point.Claims] at hr
  | returned => simp [ropeStep] at h

theorem ropeStep_claims (h : ropeStep mk env w p = some (p', w')) (hr : p'.Claims r) :
    (p.Claims r ∧ p'.Marked r) ∨
      (p = .testState r ∧ p' = .setProcessing r ∧ w.state r ≠ .processing) := by
  rcases ropeStep_cases h with ⟨rule, hp, rfl, rfl, hne⟩ | ⟨rule, deps, rfl, rfl, -⟩ | ⟨hquiet, -⟩
  · obtain rfl : rule = r := hr
    exact .inr ⟨hp, rfl, hne⟩
  · obtain rfl : rule = r := hr
    exact .inl ⟨rfl, rfl, by simp⟩
  · exact .inl ((hquiet r hr).imp_left And.left)

/-- No step makes a rule unprocessed, and the mark is a change. -/
theorem ropeStep_unprocessed (h : ropeStep mk env w p = some (p', w'))
    (hr : w'.state r = .unprocessed) : w.state r = .unprocessed ∧ p ≠ .setProcessing r := by
  constructor
  · rcases ropeStep_cases h with ⟨-, -, -, rfl, -⟩ | ⟨rule, -, -, -, rfl⟩ | ⟨-, hleaves⟩
    · exact hr
    · exact (setState_unprocessed (by decide) hr).2
    · rcases hleaves with hsame | ⟨rule, state, hstate, rfl⟩
      · rwa [hsame] at hr
      · exact (setState_unprocessed hstate hr).2
  · rintro rfl
    obtain ⟨-, rfl⟩ := Prod.mk.inj (Option.some.inj h)
    exact (setState_unprocessed (by decide) hr).1 rfl

omit [DecidableEq T] in
theorem mem_executes (h : r ∈ p.executes) : p = .callExecute r := by
  cases p <;> simp_all [Point.executes]

/-! ## Runs -/

/-- A rule that some worker has marked is not unprocessed, and only one worker at a time is on its
way from the test of a rule to its execution. -/
structure Once (s : Workers I T C F) : Prop where
  marked : ∀ {i r}, (s.point i).Marked r → s.world.state r ≠ .unprocessed
  executed : ∀ {r}, r ∈ s.executed → s.world.state r ≠ .unprocessed
  alone : ∀ {i j r}, (s.point i).Claims r → (s.point j).Claims r → i = j
  fresh : ∀ {i r}, (s.point i).Claims r → r ∉ s.executed
  nodup : s.executed.Nodup

omit [DecidableEq T] [DecidableEq I] in
theorem once_start (w : World T C F) : Once (Workers.start w : Workers I T C F) := by
  constructor <;> simp [Workers.start, Point.Claims, Point.Marked]

variable {s s' : Workers I T C F} {i j : I}

omit [DecidableEq T] [DecidableEq I] in
/-- Under the guard no other worker is on its way with a rule that passes the test. -/
theorem Once.tested (h : Once s) (hg : TestGuard s i) (hp : s.point i = .testState r)
    (hne : s.world.state r ≠ .processing) :
    s.world.state r = .unprocessed ∧ ¬ (s.point j).Claims r := by
  rw [TestGuard, hp] at hg
  obtain ⟨hu, hmark⟩ := hg.resolve_left hne
  exact ⟨hu, fun hj => h.marked ⟨hj, hmark j⟩ hu⟩

theorem Once.step (h : Once s) (hg : TestGuard s i) (hs : WorkerStep mk env s i s') : Once s' := by
  obtain ⟨⟨p', w'⟩, hstep, rfl⟩ := Option.map_eq_some_iff.mp hs
  have hcases : ∀ {j r}, (Function.update s.point i p' j).Claims r →
      (j = i ∧ p'.Claims r) ∨ (j ≠ i ∧ (s.point j).Claims r) := by
    intro j r hj
    by_cases hji : j = i
    · subst hji
      exact .inl ⟨rfl, by simpa using hj⟩
    · exact .inr ⟨hji, by simpa [hji] using hj⟩
  -- A rule that the worker has just claimed is not claimed by another one.
  have hother : ∀ {j r}, p'.Claims r → (s.point j).Claims r → j = i := by
    intro j r hp hj
    rcases ropeStep_claims hstep hp with ⟨hold, -⟩ | ⟨htest, -, hne⟩
    · exact h.alone hj hold
    · exact absurd hj (h.tested hg htest hne).2
  constructor
  case marked =>
    intro j r hj hr
    obtain ⟨hu, hnot⟩ := ropeStep_unprocessed hstep hr
    by_cases hji : j = i
    · subst hji
      have hp : p'.Marked r := by simpa using hj
      rcases ropeStep_claims hstep hp.1 with ⟨hold, -⟩ | ⟨-, hset, -⟩
      · exact h.marked ⟨hold, hnot⟩ hu
      · exact hp.2 hset
    · exact h.marked (i := j) (by simpa [hji] using hj) hu
  case executed =>
    intro r hr hu'
    obtain ⟨hu, -⟩ := ropeStep_unprocessed hstep hu'
    rcases List.mem_append.mp hr with hr | hr
    · have hp := mem_executes hr
      exact h.marked (i := i) ⟨by rw [hp]; rfl, by simp [hp]⟩ hu
    · exact h.executed hr hu
  case alone =>
    intro j k r hj hk
    rcases hcases hj with ⟨hji, hj'⟩ | ⟨-, hj'⟩
    · rcases hcases hk with ⟨hki, -⟩ | ⟨-, hk'⟩
      · exact hji.trans hki.symm
      · exact hji.trans (hother hj' hk').symm
    · rcases hcases hk with ⟨hki, hk'⟩ | ⟨-, hk'⟩
      · exact (hother hk' hj').trans hki.symm
      · exact h.alone hj' hk'
  case fresh =>
    intro j r hj hr
    rcases List.mem_append.mp hr with hr | hr
    · have hp := mem_executes hr
      have hclaim : (s.point i).Claims r := by
        rw [hp]
        rfl
      rcases hcases hj with ⟨-, hj⟩ | ⟨hji, hj⟩
      · rw [hp] at hstep
        obtain ⟨rfl, -⟩ := Prod.mk.inj (Option.some.inj hstep)
        exact hj
      · exact hji (h.alone hj hclaim)
    · rcases hcases hj with ⟨-, hj⟩ | ⟨-, hj⟩
      · rcases ropeStep_claims hstep hj with ⟨hold, -⟩ | ⟨htest, -, hne⟩
        · exact h.fresh hold hr
        · exact h.executed hr (h.tested (j := i) hg htest hne).1
      · exact h.fresh hj hr
  case nodup =>
    cases hp : s.point i with
    | callExecute r =>
      have hnew : r ∉ s.executed := h.fresh (i := i) (by rw [hp]; rfl)
      exact List.nodup_cons.mpr ⟨hnew, h.nodup⟩
    | _ => exact h.nodup

/-- In a run whose workers find every rule that they test being processed, or unprocessed and
alone, `execute` is called at most once for each rule. -/
theorem run_once {w₀ : World T C F} {workers : List I}
    (hr : Run (Guarded (WorkerStep mk env) TestGuard) (.start w₀) workers s) (rule : T) :
    s.executed.count rule ≤ 1 := by
  have h : Once s := hr.invariant (once_start w₀) fun hi hs => hi.step hs.1 hs.2
  exact List.nodup_iff_count_le_one.mp h.nodup rule

theorem WorkerStep.at (mk : Makefile T C) (env : Env T C F) (hp : s.point i = p)
    (h : ropeStep mk env s.world p = some (p', w')) :
    WorkerStep mk env s i { world := w', point := Function.update s.point i p'
                            executed := p.executes ++ s.executed } := by
  unfold WorkerStep Workers.next
  rw [hp, h]
  rfl

/-- A worker that goes on alone gets through the check of the dependencies. -/
theorem reaches_testChanged (mk : Makefile T C) (env : Env T C F) {deps : List T}
    (hp : s.point i = .checkDependencies rule deps) :
    ∃ workers s', Run (WorkerStep mk env) s workers s' ∧ s'.point i = .testChanged rule ∧
      s'.world.files = s.world.files ∧ s'.executed = s.executed := by
  induction deps generalizing s with
  | nil => exact ⟨_, _, .single (.at mk env hp rfl), Function.update_self .., rfl, rfl⟩
  | cons dep deps ih =>
    have hstep := WorkerStep.at mk env hp rfl
    by_cases hdep : s.world.state dep = .failed
    · rw [if_pos hdep] at hstep
      exact ⟨_, _, .head hstep (.single (.at mk env (Function.update_self ..) rfl)),
        Function.update_self .., rfl, rfl⟩
    · rw [if_neg hdep] at hstep
      obtain ⟨workers, s', hrun, hend⟩ := ih
        (s := { s with point := Function.update s.point i (.checkDependencies rule deps) })
        (Function.update_self ..)
      exact ⟨i :: workers, s', .head hstep hrun, hend⟩

/-- The guard is needed: a rule that was executed and is not being processed passes the test, and
its worker may go on to execute it again. -/
theorem executes_again (hp : s.point i = .testState rule) (hne : s.world.state rule ≠ .processing)
    (hchanged : changed mk env rule s.world.files = true) (hdone : rule ∈ s.executed) :
    ∃ workers s', Run (WorkerStep mk env) s workers s' ∧ 1 < s'.executed.count rule := by
  have htest := WorkerStep.at mk env hp rfl
  rw [if_neg hne] at htest
  have hmark := WorkerStep.at mk env (s := { s with
    point := Function.update s.point i (.setProcessing rule) }) (Function.update_self ..) rfl
  obtain ⟨workers, s₁, hrun, hp₁, hfiles, hexecuted⟩ :=
    reaches_testChanged mk env (s := {
      world := s.world.setState rule .processing
      point := Function.update (Function.update s.point i (.setProcessing rule)) i
        (.checkDependencies rule (mk.graph.neighbors rule))
      executed := s.executed }) (Function.update_self ..)
  have hcall := WorkerStep.at mk env hp₁ rfl
  rw [if_pos (by rw [hfiles]; exact hchanged)] at hcall
  have hlast := WorkerStep.at mk env (s := { s₁ with
    point := Function.update s₁.point i (.callExecute rule) }) (Function.update_self ..) rfl
  refine ⟨_, _, ((Run.head htest (.head hmark hrun)).tail hcall).tail hlast, ?_⟩
  change 1 < (rule :: s₁.executed).count rule
  rw [hexecuted, List.count_cons_self]
  have hpos := List.count_pos_iff.mpr hdone
  exact Nat.succ_lt_succ hpos

/-! ## Two workers -/

instance {p : Point T C} {q : T → Prop} [DecidablePred q] : Decidable (p.Tests q) := by
  cases p <;> unfold Point.Tests <;> infer_instance

instance {s : Workers I T C F} [DecidableEq C] [Fintype I] (i : I) : Decidable (TestGuard s i) :=
  inferInstanceAs (Decidable ((s.point i).Tests _))

/-- The steps of two workers on the rules of `twoDeps`. -/
def twoWorkers (schedule : List (ℕ × Fin 2)) : List (Fin 2) :=
  schedule.flatMap fun (n, i) => List.replicate n i

/-- Worker 1 finishes the last dependency alone, and worker 0 executes the goal. -/
theorem run_once_twoDeps : ∃ s : Workers (Fin 2) ℕ ℕ Unit,
    s.executed = [1, 3, 2] ∧ s.executed.count 1 ≤ 1 := by
  have hfold : ((twoWorkers [(11, 0), (8, 1), (7, 0), (11, 1), (8, 0)]).foldlM
      (fun s i => if TestGuard s i then s.next twoDeps (failing 0) i else none)
      (Workers.start loaded)).map Workers.executed = some [1, 3, 2] := by
    decide +kernel
  obtain ⟨s, hs, hexecuted⟩ := Option.map_eq_some_iff.mp hfold
  exact ⟨s, hexecuted, run_once (Run.of_foldlM hs) 1⟩

/-- Both workers finish a dependency before either looks at the goal. Both push it, and it is
executed twice. -/
theorem run_twice :
    ¬ ∀ (mk : Makefile ℕ ℕ) (env : Env ℕ ℕ Unit) (n : ℕ) (w₀ : World ℕ ℕ Unit)
      (workers : List (Fin n)) (s : Workers (Fin n) ℕ ℕ Unit), NoGoalCycle mk →
      NoTargetFiles mk env () →
      (∀ r ∈ mk.graph.vertices, ∀ c ∈ mk.commands r, env.status c = 0) →
      loadRules mk () = some w₀ → Run (WorkerStep mk env) (.start w₀) workers s →
        ∀ rule, s.executed.count rule ≤ 1 := by
  intro hall
  have hfold : ((twoWorkers [(12, 0), (12, 1), (19, 0), (15, 1)]).foldlM
      (fun s i => if True then s.next twoDeps (failing 0) i else none)
      (Workers.start loaded)).map Workers.executed = some [1, 1, 3, 2] := by
    decide +kernel
  obtain ⟨s, hs, hexecuted⟩ := Option.map_eq_some_iff.mp hfold
  have hcount := hall twoDeps (failing 0) 2 loaded _ s noGoalCycle_twoDeps
    ⟨fun _ _ => rfl, fun _ _ _ _ _ _ _ _ _ => rfl⟩ (by decide) (Option.some_get _).symm
    ((Run.of_foldlM hs).mono fun h => h.2) 1
  rw [hexecuted] at hcount
  exact absurd hcount (by decide)

end Cs241.Parmake
