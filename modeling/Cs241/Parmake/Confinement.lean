import Cs241.Parmake.Workers

/-!
# Commands that no goal asks for

A goal is valid when it reaches no cycle, and a rule is valid when a valid goal
reaches it. Only commands of valid rules should run, with any number of workers.

The search for cycles does not take back its marks. What it has marked on the way
to a cycle may get into the queue, so the marks have to be clean. A
rule that fails pushes every rule that depends on it, whether some goal has
reached that rule or not.
-/
namespace Cs241.Parmake

open Foundation Relation

variable {T C F I : Type*} [DecidableEq T] {mk : Makefile T C} {env : Env T C F}
  {w w' w₀ : World T C F} {p p' : Point T C} {rule r : T}

section Reach

variable (mk : Makefile T C)

def ReachesCycle (rule : T) : Prop :=
  ∃ v, ReflTransGen mk.graph.Adj rule v ∧ TransGen mk.graph.Adj v v

/-- A goal that reaches no cycle reaches the rule. -/
def Valid (rule : T) : Prop :=
  ∃ goal ∈ mk.graph.neighbors mk.sentinel,
    ¬ ReachesCycle mk goal ∧ ReflTransGen mk.graph.Adj goal rule

/-- The rule is valid or, as the sentinel, has no commands and no rule depends on it. -/
def Harmless (rule : T) : Prop :=
  Valid mk rule ∨ (mk.commands rule = [] ∧ mk.graph.antineighbors rule = [])

/-- A rule that was reached on the way to a cycle, but from where no cycle is reached, was reached
on another way as well. -/
def Clean (w : World T C F) : Prop :=
  ∀ rule, w.state rule ≠ .default → Valid mk rule ∨ ReachesCycle mk rule

end Reach

/-- The antineighbor of a failed rule that a worker is about to push. -/
def Point.pushesFailed : Point T C → List T
  | .pushFailed _ (anti :: _) => [anti]
  | _ => []

/-- After a rule that has failed only harmless rules are pushed. -/
def FailureGuard (mk : Makefile T C) (s : Workers I T C F) (i : I) : Prop :=
  ∀ anti ∈ (s.point i).pushesFailed, Harmless mk anti

/-! ## Valid rules -/

omit [DecidableEq T] in
/-- A rule on the way to a cycle has a dependency on this way. -/
theorem ReachesCycle.dep (h : ReachesCycle mk rule) :
    ∃ dep, mk.graph.Adj rule dep ∧ ReachesCycle mk dep := by
  obtain ⟨v, hreach, hcycle⟩ := h
  cases hreach using ReflTransGen.head_induction_on with
  | refl =>
    obtain ⟨dep, hdep, hback⟩ := TransGen.head'_iff.mp hcycle
    exact ⟨dep, hdep, rule, hback, hcycle⟩
  | head hdep hrest _ => exact ⟨_, hdep, v, hrest, hcycle⟩

theorem Valid.not_reachesCycle (h : Valid mk rule) : ¬ ReachesCycle mk rule := by
  obtain ⟨goal, -, hgoal, hreach⟩ := h
  rintro ⟨v, hv, hcycle⟩
  exact hgoal ⟨v, hreach.trans hv, hcycle⟩

/-- A rule whose dependencies are all valid is on no way to a cycle. -/
theorem Clean.valid (h : Clean mk w) (hrule : w.state rule ≠ .default)
    (hdeps : ∀ dep ∈ mk.graph.neighbors rule, Valid mk dep) : Valid mk rule := by
  apply (h rule hrule).resolve_right
  intro hcycle
  obtain ⟨dep, hdep, hback⟩ := hcycle.dep
  exact (hdeps dep ((FinDigraph.mem_neighbors _).mpr hdep)).not_reachesCycle hback

/-- A harmless rule that another rule depends on is valid. -/
theorem Harmless.valid {anti : T} (h : Harmless mk rule) (hdep : rule ∈ mk.graph.neighbors anti) :
    Valid mk rule := by
  apply h.resolve_right
  rintro ⟨-, hnone⟩
  have hanti := (FinDigraph.mem_antineighbors _).mpr ((FinDigraph.mem_neighbors _).mp hdep)
  rw [hnone] at hanti
  exact absurd hanti List.not_mem_nil

/-! ## One step -/

/-- The rules in the queue are harmless. The others are as they were marked at first. -/
structure Confined (mk : Makefile T C) (w₀ w : World T C F) : Prop where
  queued : ∀ {r}, some r ∈ w.tasks → Harmless mk r
  kept : ∀ {r}, ¬ Harmless mk r → w.state r = w₀.state r
  ran : ∀ {r c}, .ran r c ∈ w.log → Valid mk r

/-- The same for what a worker has pulled and for what it is about to push. As long as it finds
only dependencies that have succeeded, those that it has scanned are harmless. -/
def Point.Confined (mk : Makefile T C) (w₀ : World T C F) : Point T C → Prop
  | .pull | .testGoalCount | .pushNull | .pushLastNull | .returned => True
  | .runCommands rule commands => Harmless mk rule ∧ (commands ≠ [] → Valid mk rule)
  | .scan rule anti deps good _ =>
    Harmless mk rule ∧ (Harmless mk anti ∨ w₀.state anti ≠ .default) ∧
    (good = true → ∀ dep ∈ mk.graph.neighbors anti, dep ∈ deps ∨ Harmless mk dep)
  | .pushGood rule anti _ => Harmless mk rule ∧ Harmless mk anti
  | .testState rule | .setProcessing rule | .checkDependencies rule _ | .markFailed rule
  | .testChanged rule | .callExecute rule | .commandFailed rule | .testFailed rule
  | .setSucceeded rule | .skip rule | .readGoalCount rule | .writeGoalCount rule _
  | .getState rule | .pushFailed rule _ | .testAntineighbor rule _ | .countGoal rule =>
    Harmless mk rule

namespace Confined

theorem setState {state : RuleState} (h : Confined mk w₀ w) (hrule : Harmless mk rule) :
    Confined mk w₀ (w.setState rule state) := by
  refine ⟨h.queued, fun {r} hr => ?_, h.ran⟩
  have hne : r ≠ rule := by
    rintro rfl
    exact hr hrule
  exact (Function.update_of_ne hne _ _).trans (h.kept hr)

theorem push {task : Option T} (h : Confined mk w₀ w)
    (htask : ∀ r, task = some r → Harmless mk r) : Confined mk w₀ (w.push task) := by
  refine ⟨fun {r} hr => ?_, h.kept, h.ran⟩
  rcases List.mem_append.mp hr with hr | hr
  · exact h.queued hr
  · exact htask r (List.mem_singleton.mp hr).symm

/-- A rule that the search has only marked has not succeeded. -/
theorem harmless_of_succeeded (h : Confined mk w₀ w)
    (hfresh : ∀ r, w₀.state r = .default ∨ w₀.state r = .unprocessed ∨ w₀.state r = .ignored)
    (hr : w.state r = .succeeded) : Harmless mk r := by
  by_contra hnot
  have hold := hfresh r
  rw [← h.kept hnot, hr] at hold
  simp at hold

/-- A rule whose dependencies have all been found succeeded may be pushed. -/
theorem good {anti : T} (hclean : Clean mk w₀)
    (hanti : Harmless mk anti ∨ w₀.state anti ≠ .default)
    (hdeps : ∀ dep ∈ mk.graph.neighbors anti, Harmless mk dep) : Harmless mk anti := by
  rcases hanti with hanti | hmarked
  · exact hanti
  · exact .inl (hclean.valid hmarked fun dep hdep => (hdeps dep hdep).valid hdep)

/-- A step under the guard. -/
theorem step (hclean : Clean mk w₀)
    (hfresh : ∀ r, w₀.state r = .default ∨ w₀.state r = .unprocessed ∨ w₀.state r = .ignored)
    (h : Confined mk w₀ w) (hp : p.Confined mk w₀) (hg : ∀ anti ∈ p.pushesFailed, Harmless mk anti)
    (hs : ropeStep mk env w p = some (p', w')) : Confined mk w₀ w' ∧ p'.Confined mk w₀ := by
  have hgo : ∀ {q : Point T C} {v : World T C F}, some (q, v) = some (p', w') →
      Confined mk w₀ v → q.Confined mk w₀ → Confined mk w₀ w' ∧ p'.Confined mk w₀ := by
    intro q v heq hv hq
    obtain ⟨rfl, rfl⟩ := Prod.mk.inj (Option.some.inj heq)
    exact ⟨hv, hq⟩
  cases p with
  | pull =>
    cases htasks : w.tasks with
    | nil => simp [ropeStep, htasks] at hs
    | cons task rest =>
      have hrest : Confined mk w₀ { w with tasks := rest } :=
        { h with queued := fun hr => h.queued (htasks ▸ List.mem_cons_of_mem _ hr) }
      cases task with
      | none =>
        simp only [ropeStep, htasks] at hs
        exact hgo hs hrest trivial
      | some rule =>
        simp only [ropeStep, htasks] at hs
        exact hgo hs hrest (h.queued (htasks ▸ List.mem_cons_self))
  | testState rule =>
    apply hgo hs h
    split_ifs
    exacts [trivial, hp]
  | testChanged rule | testFailed rule =>
    apply hgo hs h
    split_ifs
    exacts [hp, hp]
  | setProcessing rule | markFailed rule | commandFailed rule | setSucceeded rule | skip rule =>
    exact hgo hs (h.setState hp) hp
  | checkDependencies rule deps =>
    cases deps with
    | nil => exact hgo hs h hp
    | cons dep deps =>
      apply hgo hs h
      split_ifs
      exacts [hp, hp]
  | callExecute rule =>
    apply hgo hs h
    refine ⟨hp, fun hcommands => hp.resolve_right ?_⟩
    exact fun hidle => hcommands hidle.1
  | runCommands rule commands =>
    cases commands with
    | nil => exact hgo hs h hp.1
    | cons command commands =>
      have hvalid : Valid mk rule := hp.2 (List.cons_ne_nil _ _)
      have hran : Confined mk w₀ { w with
          files := env.effect command w.files, log := .ran rule command :: w.log } := by
        refine { h with ran := fun {r c} hr => ?_ }
        rcases List.mem_cons.mp hr with heq | hr
        · exact (Event.ran.inj heq).1 ▸ hvalid
        · exact h.ran hr
      apply hgo hs hran
      split_ifs
      exacts [hp.1, ⟨hp.1, fun _ => hvalid⟩]
  | readGoalCount rule => exact hgo hs h hp
  | writeGoalCount rule count => exact hgo hs { h with } hp
  | getState rule =>
    apply hgo hs h
    split_ifs
    exacts [hp, hp, hp]
  | pushFailed rule antis =>
    cases antis with
    | nil => exact hgo hs h hp
    | cons anti antis =>
      apply hgo hs (h.push ?_) hp
      rintro r ⟨⟩
      exact hg anti List.mem_cons_self
  | testAntineighbor rule antis =>
    cases antis with
    | nil => exact hgo hs h hp
    | cons anti antis =>
      apply hgo hs h
      split_ifs with hdefault
      · exact hp
      · refine ⟨hp, ?_, fun _ dep hdep => .inl hdep⟩
        by_cases hanti : Harmless mk anti
        · exact .inl hanti
        · exact .inr (h.kept hanti ▸ hdefault)
  | scan rule anti deps good antis =>
    obtain ⟨hrule, hanti, hdeps⟩ := hp
    cases deps with
    | nil =>
      apply hgo hs h
      split_ifs with hgood
      · refine ⟨hrule, Confined.good hclean hanti fun dep hdep => ?_⟩
        exact (hdeps hgood dep hdep).resolve_left List.not_mem_nil
      · exact hrule
    | cons dep deps =>
      apply hgo hs h
      refine ⟨hrule, hanti, fun hgood x hx => ?_⟩
      obtain ⟨hsofar, hdone⟩ : good = true ∧ w.state dep = .succeeded := by simpa using hgood
      rcases hdeps hsofar x hx with hmem | hharmless
      · rcases List.mem_cons.mp hmem with rfl | hmem
        · exact .inr (h.harmless_of_succeeded hfresh hdone)
        · exact .inl hmem
      · exact .inr hharmless
  | pushGood rule anti antis =>
    apply hgo hs (h.push ?_) hp.1
    rintro r ⟨⟩
    exact hp.2
  | countGoal rule =>
    apply hgo hs _ trivial
    split_ifs
    exacts [{ h with }, h]
  | testGoalCount =>
    apply hgo hs h
    split_ifs
    exacts [trivial, trivial]
  | pushNull => exact hgo hs (h.push (by simp)) trivial
  | pushLastNull => exact hgo hs (h.push (by simp)) trivial
  | returned => simp [ropeStep] at hs

end Confined

/-! ## Runs -/

theorem confined_loadRules {files : F} (hload : loadRules mk files = some w) (hclean : Clean mk w) :
    Confined mk w w := by
  obtain ⟨-, htasks, hlog⟩ := loadRules_spec hload
  refine ⟨fun {r} hr => ?_, fun _ => rfl, fun {r c} hr => ?_⟩
  · obtain ⟨hleaf, hmarked⟩ := htasks r hr
    exact .inl (hclean.valid (by simp [hmarked]) (by simp [hleaf]))
  · obtain ⟨goal, hgoal⟩ := hlog _ hr
    simp at hgoal

variable [DecidableEq I] {s : Workers I T C F}

/-- In a run under the guard, started with clean marks, no command of a rule runs unless a goal
that reaches no cycle reaches the rule. -/
theorem run_valid {files : F} {workers : List I} (hload : loadRules mk files = some w₀)
    (hclean : Clean mk w₀)
    (hr : Run (Guarded (WorkerStep mk env) (FailureGuard mk)) (.start w₀) workers s)
    {c : C} (hran : .ran rule c ∈ s.world.log) : Valid mk rule := by
  have hfresh := (loadRules_spec hload).1
  have hend : Confined mk w₀ s.world ∧ ∀ i, (s.point i).Confined mk w₀ := by
    refine hr.invariant (P := fun s => Confined mk w₀ s.world ∧ ∀ i, (s.point i).Confined mk w₀)
      ⟨confined_loadRules hload hclean, fun _ => trivial⟩ fun {t i u} ht hs => ?_
    obtain ⟨hg, hs⟩ := hs
    obtain ⟨⟨p', w'⟩, hstep, rfl⟩ := Option.map_eq_some_iff.mp hs
    obtain ⟨hw', hp'⟩ := ht.1.step hclean hfresh (ht.2 i) hg hstep
    refine ⟨hw', fun j => ?_⟩
    by_cases hj : j = i
    · subst hj
      simpa using hp'
    · simpa [hj] using ht.2 j
  exact hend.1.ran hran

/-! ## One worker -/

/-- Where no goal reaches a cycle, the marks are clean. -/
theorem clean_of_noGoalCycle {files : F} (hac : NoGoalCycle mk)
    (hload : loadRules mk files = some w) : Clean mk w := by
  intro rule hrule
  by_cases hneed : Needed mk rule
  · obtain ⟨goal, hgoal, hreach⟩ := hneed
    refine .inl ⟨goal, hgoal, ?_, hreach⟩
    rintro ⟨v, hv, hcycle⟩
    exact hac goal hgoal v hv hcycle
  · exact absurd ((loadRules_marks hac hload).2.1 rule hneed) hrule

/-- Rule 2 fails, and the command of the goal, which is pushed for that, runs. -/
theorem run_valid_twoDeps : ∃ s : Workers (Fin 1) ℕ ℕ Unit,
    .ran 1 1 ∈ s.world.log ∧ Valid twoDeps 1 := by
  have hfold : ((List.replicate 44 0).foldlM
      (fun (s : Workers (Fin 1) ℕ ℕ Unit) i =>
        if ∀ anti ∈ (s.point i).pushesFailed, anti = 0 ∨ anti = 1
        then s.next twoDeps (failing 2) i else none)
      (Workers.start loaded)).map (fun s => decide (Event.ran 1 1 ∈ s.world.log)) = some true := by
    decide +kernel
  obtain ⟨s, hs, hran⟩ := Option.map_eq_some_iff.mp hfold
  have hload : loadRules twoDeps () = some loaded := (Option.some_get _).symm
  have hgoal : Harmless twoDeps 1 := by
    refine .inl ⟨1, by decide, ?_, .refl⟩
    rintro ⟨v, hv, hcycle⟩
    exact noGoalCycle_twoDeps 1 (by decide) v hv hcycle
  have hr : Run (Guarded (WorkerStep twoDeps (failing 2)) (FailureGuard twoDeps))
      (.start loaded) (List.replicate 44 0) s := by
    apply (Run.of_foldlM hs).mono
    rintro s i t ⟨hg, hstep⟩
    refine ⟨fun anti hanti => ?_, hstep⟩
    rcases hg anti hanti with rfl | rfl
    exacts [.inr (by decide), hgoal]
  have hmem := of_decide_eq_true hran
  exact ⟨s, hmem, run_valid hload (clean_of_noGoalCycle noGoalCycle_twoDeps hload) hr hmem⟩

/-- Rule 1, the goal, and rule 3, which it does not need, both depend on rule 2. -/
def outsider : Makefile ℕ ℕ :=
  { twoDeps with
    graph :=
      { twoDeps.graph with
        edges := [(0, 1), (1, 2), (3, 2)], nodup := by decide, closed := by decide } }

theorem not_valid_outsider : ¬ Valid outsider 3 := by
  have hgoals : ∀ goal ∈ outsider.graph.neighbors 0, goal ∈ [1, 2] := by decide
  have hclosed : ∀ e ∈ outsider.graph.edges, e.1 ∈ [1, 2] → e.2 ∈ [1, 2] := by decide
  have hreach : ∀ {rule}, Valid outsider rule → rule ∈ [1, 2] := by
    rintro rule ⟨goal, hgoal, -, hreach⟩
    induction hreach with
    | refl => exact hgoals goal hgoal
    | tail _ hstep ih => exact hclosed _ hstep ih
  exact fun h => absurd (hreach h) (by decide)

/-- Rule 2 fails. A lone worker pushes rule 3 as well and runs its command. -/
theorem run_not_valid :
    ¬ ∀ (mk : Makefile ℕ ℕ) (env : Env ℕ ℕ Unit) (n : ℕ) (w₀ : World ℕ ℕ Unit)
      (workers : List (Fin n)) (s : Workers (Fin n) ℕ ℕ Unit) (rule c : ℕ),
      loadRules mk () = some w₀ → Run (WorkerStep mk env) (.start w₀) workers s →
        .ran rule c ∈ s.world.log → Valid mk rule := by
  intro hall
  let w₀ : World ℕ ℕ Unit := (loadRules outsider ()).get (loadRules_returns _ _)
  have hfold : ((List.replicate 39 0).foldlM
      (fun (s : Workers (Fin 1) ℕ ℕ Unit) i => s.next outsider (failing 2) i)
      (Workers.start w₀)).map (fun s => decide (Event.ran 3 3 ∈ s.world.log)) = some true := by
    decide +kernel
  obtain ⟨s, hs, hran⟩ := Option.map_eq_some_iff.mp hfold
  have hvalid := hall outsider (failing 2) 1 w₀ _ s 3 3 (Option.some_get _).symm
    (Run.of_fold hs) (of_decide_eq_true hran)
  exact not_valid_outsider hvalid

end Cs241.Parmake
