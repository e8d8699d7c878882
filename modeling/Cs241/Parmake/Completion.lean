import Cs241.Parmake.Dependencies

/-!
# One worker builds everything

When no goal reaches a cycle, the search marks the rules that the goals need and
nothing else. From then on the queue holds the rules that are due: needed, not
finished, with all dependencies finished. A worker that finishes a rule pushes
those that become due by it, and the message to stop comes with the last goal.
-/
namespace Cs241.Parmake

open Foundation Relation

variable {T C F : Type*} [DecidableEq T] {mk : Makefile T C} {env : Env T C F}
  {w w' w'' : World T C F} {rule r : T} {done : List T}

/-- A goal reaches the rule. -/
def Needed (mk : Makefile T C) (rule : T) : Prop :=
  ∃ goal ∈ mk.graph.neighbors mk.sentinel, ReflTransGen mk.graph.Adj goal rule

theorem Needed.mem (h : Needed mk rule) : rule ∈ mk.graph.vertices := by
  obtain ⟨goal, hgoal, hreach⟩ := h
  cases hreach with
  | refl => exact (FinDigraph.mem_neighbors _ |>.mp hgoal).right_mem
  | tail _ hstep => exact hstep.right_mem

theorem Needed.dep {dep : T} (h : Needed mk rule) (hdep : dep ∈ mk.graph.neighbors rule) :
    Needed mk dep := by
  obtain ⟨goal, hgoal, hreach⟩ := h
  exact ⟨goal, hgoal, hreach.tail ((FinDigraph.mem_neighbors _).mp hdep)⟩

/-! ## The search without cycles -/

/-- The rules in `s` become unprocessed; nothing else changes. -/
structure Marks (s : T → Prop) (w w' : World T C F) : Prop where
  rest : w' = { w with state := w'.state }
  marked : ∀ {r}, s r → w'.state r = .unprocessed
  kept : ∀ {r}, ¬ s r → w'.state r = w.state r

namespace Marks

variable {s s' : T → Prop}

omit [DecidableEq T] in
theorem trans (h : Marks s w w') (h' : Marks s' w' w'') : Marks (fun r => s r ∨ s' r) w w'' := by
  refine ⟨?_, fun {r} hr => ?_, fun {r} hr => ?_⟩
  · rw [h'.rest, h.rest]
  · by_cases hr' : s' r
    · exact h'.marked hr'
    · exact (h'.kept hr').trans (h.marked (hr.resolve_right hr'))
  · exact (h'.kept fun h => hr (.inr h)).trans (h.kept fun h => hr (.inl h))

omit [DecidableEq T] in
theorem congr (h : Marks s w w') (hs : ∀ r, s r ↔ s' r) : Marks s' w w' :=
  ⟨h.rest, fun hr => h.marked ((hs _).mpr hr), fun hr => h.kept (mt (hs _).mp hr)⟩

omit [DecidableEq T] in
theorem not_ignored (h : Marks s w w') (hw : ∀ r, w.state r ≠ .ignored) (r : T) :
    w'.state r ≠ .ignored := by
  by_cases hr : s r
  · simp [h.marked hr]
  · rw [h.kept hr]
    exact hw r

theorem self (w : World T C F) (node : T) : Marks (· = node) w (w.setState node .unprocessed) :=
  ⟨rfl, by rintro r rfl; simp [World.setState], fun hr => Function.update_of_ne hr _ _⟩

end Marks

/-- `visited` holds a path to the vertex. -/
def PathTo (g : FinDigraph T) (node : T) (w : World T C F) : Prop :=
  ∀ v ∈ w.visited, ReflTransGen g.Adj v node

theorem anyIgnored_marks {g : FinDigraph T}
    {call : T → World T C F → Option (RuleState × World T C F)} {node : T} {vs : List T}
    {status : RuleState} (hac : ∀ v, ReflTransGen g.Adj node v → ¬ TransGen g.Adj v v)
    (hcall : ∀ {v} {w : World T C F} {status w'}, g.Adj node v → PathTo g v w →
      (∀ r, w.state r ≠ .ignored) → call v w = some (status, w') →
        status = .unprocessed ∧ Marks (ReflTransGen g.Adj v) w w')
    (hvs : ∀ v ∈ vs, g.Adj node v) (hpath : PathTo g node w) (hw : ∀ r, w.state r ≠ .ignored)
    (h : anyIgnored call node vs w = some (status, w')) :
    status = .unprocessed ∧ Marks (fun r => ∃ v ∈ vs, ReflTransGen g.Adj v r) w w' := by
  induction vs generalizing w with
  | nil =>
    obtain ⟨rfl, rfl⟩ := Prod.mk.inj (Option.some.inj h)
    exact ⟨rfl, rfl, by simp, fun _ => rfl⟩
  | cons v vs ih =>
    have hv := hvs v List.mem_cons_self
    have hnew : v ∉ w.visited := fun hmem =>
      hac v (.single hv) (TransGen.tail' (hpath v hmem) hv)
    rw [anyIgnored, if_neg hnew] at h
    obtain ⟨⟨b, u⟩, hu, h⟩ := Option.bind_eq_some_iff.mp h
    have hpath' : PathTo g v { w with visited := v :: w.visited } := by
      intro x hx
      rcases List.mem_cons.mp hx with rfl | hx
      · exact .refl
      · exact (hpath x hx).tail hv
    obtain ⟨rfl, hmarks⟩ := hcall hv hpath' hw hu
    dsimp only at h
    rw [if_neg (by decide)] at h
    -- The path is as it was before the call.
    have hback : { u with visited := u.visited.filter fun x => x ≠ v } =
        { w with state := u.state } := by
      rw [hmarks.rest]
      have hfilter : (v :: w.visited).filter (fun x => x ≠ v) = w.visited := by
        simpa using fun x hx => ne_of_mem_of_not_mem hx hnew
      dsimp only
      rw [hfilter]
    rw [hback] at h
    have hstep : Marks (ReflTransGen g.Adj v) w { w with state := u.state } :=
      ⟨rfl, hmarks.marked, hmarks.kept⟩
    obtain ⟨rfl, hrest⟩ := ih (w := { w with state := u.state })
      (fun x hx => hvs x (List.mem_cons_of_mem _ hx)) hpath (hstep.not_ignored hw) h
    refine ⟨rfl, (hstep.trans hrest).congr fun r => ?_⟩
    simp

/-- A search that starts where no cycle is reached marks all that it reaches. -/
theorem cycles_marks {g : FinDigraph T} : ∀ {fuel : ℕ} {node : T} {w : World T C F}
    {status : RuleState} {w' : World T C F},
    (∀ v, ReflTransGen g.Adj node v → ¬ TransGen g.Adj v v) → PathTo g node w →
      (∀ r, w.state r ≠ .ignored) → cycles g.neighbors fuel node w = some (status, w') →
        status = .unprocessed ∧ Marks (ReflTransGen g.Adj node) w w'
  | 0, _, _, _, _, _, _, _, h => by simp [cycles] at h
  | fuel + 1, node, w, status, w', hac, hpath, hw, h => by
    rw [cycles, if_neg (hw node)] at h
    have hself := Marks.self w node
    obtain ⟨rfl, hmarks⟩ := anyIgnored_marks (w := w.setState node .unprocessed) hac
      (fun hv hpath hw h => cycles_marks (fun x hx => hac x (.head hv hx)) hpath hw h)
      (fun v hv => (FinDigraph.mem_neighbors _).mp hv) hpath (hself.not_ignored hw) h
    refine ⟨rfl, (hself.trans hmarks).congr fun r => ?_⟩
    rw [ReflTransGen.cases_head_iff]
    simp [eq_comm]

theorem loadGoals_marks {goals : List T} (hgoals : ∀ goal ∈ goals, ∀ v,
      ReflTransGen mk.graph.Adj goal v → ¬ TransGen mk.graph.Adj v v)
    (hvisited : w.visited = []) (hw : ∀ r, w.state r ≠ .ignored)
    (h : loadGoals mk goals w = some w') :
    Marks (fun r => ∃ goal ∈ goals, ReflTransGen mk.graph.Adj goal r)
      { w with validGoals := goals.reverse ++ w.validGoals } w' := by
  induction goals generalizing w with
  | nil =>
    obtain rfl := Option.some.inj h
    exact ⟨rfl, by simp, fun _ => rfl⟩
  | cons goal goals ih =>
    obtain ⟨u, hu, h⟩ := Option.bind_eq_some_iff.mp h
    obtain ⟨⟨status, x⟩, hx, rfl⟩ := Option.map_eq_some_iff.mp hu
    obtain ⟨rfl, hmarks⟩ := cycles_marks (hgoals goal List.mem_cons_self)
      (by simp [PathTo, hvisited]) hw hx
    dsimp only at h
    rw [if_neg (by decide)] at h
    have hrest := ih (w := { x with validGoals := goal :: x.validGoals })
      (fun v hv => hgoals v (List.mem_cons_of_mem _ hv))
      ((congrArg World.visited hmarks.rest).trans hvisited) (hmarks.not_ignored hw) h
    have hstart : Marks (ReflTransGen mk.graph.Adj goal)
        { w with validGoals := (goal :: goals).reverse ++ w.validGoals }
        { x with validGoals := goals.reverse ++ goal :: x.validGoals } := by
      refine ⟨?_, hmarks.marked, hmarks.kept⟩
      rw [hmarks.rest]
      simp
    exact (hstart.trans hrest).congr fun r => by simp

/-- What the queue is filled with. -/
theorem loadRules_marks {files : F} (hac : NoGoalCycle mk) (h : loadRules mk files = some w) :
    (∀ r, Needed mk r → w.state r = .unprocessed) ∧
      (∀ r, ¬ Needed mk r → w.state r = .default) ∧
      w.tasks = (if mk.graph.neighbors mk.sentinel = [] then [none] else []) ++
        (mk.graph.vertices.filter fun target =>
          (mk.graph.neighbors target).isEmpty ∧ w.state target = .unprocessed).map some ∧
      w = { World.init mk files with
        state := w.state, tasks := w.tasks
        validGoals := (mk.graph.neighbors mk.sentinel).reverse } := by
  obtain ⟨u, hu, rfl⟩ := Option.map_eq_some_iff.mp h
  have hmarks := loadGoals_marks hac rfl (by simp [World.init]) hu
  have htotal : u.goalTotal = 0 ↔ mk.graph.neighbors mk.sentinel = [] := by
    rw [hmarks.rest]
    simp [World.init]
  have htasks : u.tasks = [] := congrArg World.tasks hmarks.rest
  unfold seed
  refine ⟨fun r hr => ?_, fun r hr => ?_, ?_, ?_⟩
  · split_ifs
    exacts [hmarks.marked hr, hmarks.marked hr]
  · split_ifs
    exacts [hmarks.kept hr, hmarks.kept hr]
  · simp only [htotal]
    split_ifs <;> simp [World.push, htasks]
  · split_ifs
    all_goals
      rw [hmarks.rest]
      simp [World.push, World.init]

/-! ## One rule -/

/-- What is recorded of a rule whose commands all succeed, oldest first. -/
def record (mk : Makefile T C) (rule : T) : List (Event T C) :=
  (mk.commands rule).map (.ran rule) ++ [.finished rule .succeeded]

omit [DecidableEq T] in
theorem runCommands_succeeds (env : Env T C F) (rule : T) :
    ∀ (commands : List C) (w : World T C F), (∀ c ∈ commands, env.status c = 0) →
      runCommands env rule commands w = (false, { w with
        files := commands.foldl (fun files c => env.effect c files) w.files
        log := (commands.map (.ran rule)).reverse ++ w.log })
  | [], _, _ => rfl
  | c :: commands, w, h => by
    rw [runCommands]
    simp only [h c List.mem_cons_self, ne_eq, not_true_eq_false, if_false]
    rw [runCommands_succeeds env rule commands _ fun c' hc' => h c' (List.mem_cons_of_mem _ hc')]
    simp

/-- A rule that is not up to date succeeds when nothing fails. -/
theorem process_succeeds (hfailed : ∀ r, w.state r ≠ .failed)
    (hchanged : changed mk env rule w.files = true)
    (hstatus : ∀ c ∈ mk.commands rule, env.status c = 0) :
    process mk env rule w = { w with
      state := Function.update w.state rule .succeeded
      files := (mk.commands rule).foldl (fun files c => env.effect c files) w.files
      log := (record mk rule).reverse ++ w.log } := by
  have hcheck : checkFailedDependencies mk rule (w.setState rule .processing) =
      w.setState rule .processing := by
    apply if_neg
    rintro ⟨dep, -, hdep⟩
    by_cases hr : dep = rule
    · simp [World.setState, hr] at hdep
    · exact hfailed dep (by simpa [World.setState, hr] using hdep)
  unfold process
  rw [hcheck]
  dsimp only
  rw [if_pos (show changed mk env rule (w.setState rule .processing).files = true from hchanged)]
  unfold execute
  rw [runCommands_succeeds env rule _ _ hstatus]
  simp [World.setState, record]

theorem pushAntineighbors_succeeded (h : w.state rule = .succeeded) :
    pushAntineighbors mk rule w = pushSuccessfulAntineighbors mk rule w := by
  rw [pushAntineighbors, if_neg (by simp [h]), if_pos h]

theorem countGoal_eq (w : World T C F) (rule : T) : countGoal rule w = { w with
    goalCount := w.goalCount + (if rule ∈ w.validGoals then 1 else 0)
    tasks := w.tasks ++
      (if w.goalCount + (if rule ∈ w.validGoals then 1 else 0) = w.goalTotal
        then [none] else []) } := by
  unfold countGoal World.push
  split_ifs <;> simp_all

/-- What an iteration does to the queue and to the count of goals, once its rule has succeeded. -/
theorem ropeBody_succeeds (hfailed : ∀ r, w.state r ≠ .failed) (hrule : w.state rule ≠ .processing)
    (hchanged : changed mk env rule w.files = true)
    (hstatus : ∀ c ∈ mk.commands rule, env.status c = 0) :
    ∃ count, count = w.goalCount + (if rule ∈ w.validGoals then 1 else 0) ∧
      ropeBody mk env rule w = { w with
        state := Function.update w.state rule .succeeded
        files := (mk.commands rule).foldl (fun files c => env.effect c files) w.files
        log := (record mk rule).reverse ++ w.log
        tasks := w.tasks ++ ((mk.graph.antineighbors rule).filter fun anti =>
          Function.update w.state rule .succeeded anti ≠ .default ∧
            ∀ antidep ∈ mk.graph.neighbors anti,
              Function.update w.state rule .succeeded antidep = .succeeded).map some ++
          (if count = w.goalTotal then [none] else [])
        goalCount := count } := by
  refine ⟨_, rfl, ?_⟩
  rw [ropeBody, if_neg hrule, process_succeeds hfailed hchanged hstatus,
    pushAntineighbors_succeeded (Function.update_self ..), countGoal_eq]
  rfl

/-! ## Runs -/

/-- No target is a file, and the commands of a rule make no file but their target. -/
structure NoTargetFiles (mk : Makefile T C) (env : Env T C F) (files : F) : Prop where
  start : ∀ t ∈ mk.graph.vertices, env.mtime files t = none
  kept : ∀ r ∈ mk.graph.vertices, ∀ c ∈ mk.commands r, ∀ f, ∀ t ∈ mk.graph.vertices, t ≠ r →
    env.mtime f t = none → env.mtime (env.effect c f) t = none

/-- Each rule of the list comes after its dependencies. -/
def DependenciesFirst (mk : Makefile T C) (rules : List T) : Prop :=
  ∀ earlier r later, rules = earlier ++ r :: later → ∀ dep ∈ mk.graph.neighbors r, dep ∈ earlier

/-- The rule is needed and waits for nothing. -/
def Due (mk : Makefile T C) (done : List T) (rule : T) : Prop :=
  Needed mk rule ∧ rule ∉ done ∧ ∀ dep ∈ mk.graph.neighbors rule, dep ∈ done

def GoalsDone (mk : Makefile T C) (done : List T) : Prop :=
  ∀ goal ∈ mk.graph.neighbors mk.sentinel, goal ∈ done

instance : Decidable (GoalsDone mk done) :=
  inferInstanceAs (Decidable (∀ goal ∈ mk.graph.neighbors mk.sentinel, goal ∈ done))

/-- What holds between two iterations when the rules of `done` have been executed. -/
structure Progress (mk : Makefile T C) (env : Env T C F) (done : List T) (w : World T C F) :
    Prop where
  finished : ∀ {r}, r ∈ done → w.state r = .succeeded
  waiting : ∀ {r}, Needed mk r → r ∉ done → w.state r = .unprocessed
  other : ∀ {r}, ¬ Needed mk r → w.state r = .default
  needed : ∀ {r}, r ∈ done → Needed mk r
  nodup : done.Nodup
  ordered : DependenciesFirst mk done
  queue : ∃ queue : List T, w.tasks = queue.map some ++ (if GoalsDone mk done then [none] else []) ∧
    queue.Nodup ∧ ∀ r, r ∈ queue ↔ Due mk done r
  goals : ∀ r, r ∈ w.validGoals ↔ r ∈ mk.graph.neighbors mk.sentinel
  total : w.goalTotal = (mk.graph.neighbors mk.sentinel).length
  count : w.goalCount = ((mk.graph.neighbors mk.sentinel).filter fun goal => goal ∈ done).length
  files : ∀ t ∈ mk.graph.vertices, t ∉ done → env.mtime w.files t = none
  log : w.log.reverse = done.flatMap (record mk)

theorem DependenciesFirst.closed {dep : T} (h : DependenciesFirst mk done) (hr : r ∈ done)
    (hdep : dep ∈ mk.graph.neighbors r) : dep ∈ done := by
  obtain ⟨earlier, later, rfl⟩ := List.append_of_mem hr
  exact List.mem_append_left _ (h _ _ _ rfl dep hdep)

theorem DependenciesFirst.concat (h : DependenciesFirst mk done)
    (hdeps : ∀ dep ∈ mk.graph.neighbors rule, dep ∈ done) :
    DependenciesFirst mk (done ++ [rule]) := by
  intro earlier r later heq
  rcases List.eq_nil_or_concat later with rfl | ⟨later', x, rfl⟩
  · obtain ⟨rfl, hr⟩ := List.append_inj' heq rfl
    obtain rfl : rule = r := by simpa using hr
    exact hdeps
  · apply h earlier r later'
    have heq' : done ++ [rule] = (earlier ++ r :: later') ++ [x] := by simpa using heq
    exact (List.append_inj' heq' rfl).1

/-- As long as a goal is missing, some rule is due. -/
theorem exists_due (hac : NoGoalCycle mk) (hgoals : ¬ GoalsDone mk done) : ∃ r, Due mk done r := by
  obtain ⟨goal, hgoal, hmissing⟩ : ∃ goal ∈ mk.graph.neighbors mk.sentinel, goal ∉ done := by
    simpa [GoalsDone] using hgoals
  have hcycle : ∀ v, Needed mk v ∧ v ∉ done → ¬ TransGen mk.graph.Adj v v := by
    rintro v ⟨⟨goal, hgoal, hreach⟩, -⟩
    exact hac goal hgoal v hreach
  obtain ⟨r, ⟨hr, hnew⟩, hsink⟩ := FinDigraph.exists_sink (g := mk.graph)
    (s := fun v => Needed mk v ∧ v ∉ done) (fun v hv => hv.1.mem) hcycle
    ⟨goal, ⟨goal, hgoal, .refl⟩, hmissing⟩
  refine ⟨r, hr, hnew, fun dep hdep => ?_⟩
  by_contra hdone
  exact hsink dep ((FinDigraph.mem_neighbors _).mp hdep) ⟨hr.dep hdep, hdone⟩

omit [DecidableEq T] in
theorem NoTargetFiles.run {files f : F} (h : NoTargetFiles mk env files) {t : T}
    (hrule : rule ∈ mk.graph.vertices) (ht : t ∈ mk.graph.vertices) (hne : t ≠ rule)
    (hf : env.mtime f t = none) :
    ∀ commands ⊆ mk.commands rule,
      env.mtime (commands.foldl (fun files c => env.effect c files) f) t = none := by
  intro commands hsub
  induction commands generalizing f with
  | nil => exact hf
  | cons c commands ih =>
    have hc := h.kept rule hrule c (hsub List.mem_cons_self) f t ht hne hf
    exact ih hc fun x hx => hsub (List.mem_cons_of_mem _ hx)

/-- A goal that is finished is counted once. -/
theorem length_filter_concat {goals : List T} (hnodup : goals.Nodup) (hnew : rule ∉ done) :
    (goals.filter fun goal => goal ∈ done ++ [rule]).length =
      (goals.filter fun goal => goal ∈ done).length + (if rule ∈ goals then 1 else 0) := by
  induction goals with
  | nil => rfl
  | cons goal goals ih =>
    obtain ⟨hnot, hrest⟩ := List.nodup_cons.mp hnodup
    have hih := ih hrest
    by_cases hg : goal = rule
    · subst hg
      simp_all
    · by_cases hd : goal ∈ done
      · simp_all [Ne.symm hg]
        omega
      · simp_all [Ne.symm hg]

/-- The rules of `done` have succeeded, the others that are needed wait, and no more is marked. -/
structure Course (mk : Makefile T C) (done : List T) (w : World T C F) : Prop where
  finished : ∀ {r}, r ∈ done → w.state r = .succeeded
  waiting : ∀ {r}, Needed mk r → r ∉ done → w.state r = .unprocessed
  other : ∀ {r}, ¬ Needed mk r → w.state r = .default
  needed : ∀ {r}, r ∈ done → Needed mk r
  nodup : done.Nodup
  ordered : DependenciesFirst mk done

namespace Course

variable (h : Course mk done w)
include h

/-- The goals are the last rules that are needed. -/
theorem all_of_goals (hgoals : GoalsDone mk done) (hr : Needed mk r) : r ∈ done := by
  obtain ⟨goal, hgoal, hreach⟩ := hr
  induction hreach with
  | refl => exact hgoals goal hgoal
  | tail _ hstep ih => exact h.ordered.closed ih ((FinDigraph.mem_neighbors _).mpr hstep)

theorem not_goalsDone (hrule : Due mk done rule) : ¬ GoalsDone mk done :=
  fun hgoals => hrule.2.1 (h.all_of_goals hgoals hrule.1)

theorem length_le : done.length ≤ mk.graph.vertices.length :=
  (List.subperm_of_subset h.nodup fun _ hr => (h.needed hr).mem).length_le

theorem not_failed (r : T) : w.state r ≠ .failed := by
  intro hr
  by_cases hneed : Needed mk r
  · by_cases hd : r ∈ done
    · simp [h.finished hd] at hr
    · simp [h.waiting hneed hd] at hr
  · simp [h.other hneed] at hr

theorem succeeded_iff : Function.update w.state rule .succeeded r = .succeeded ↔
    r ∈ done ++ [rule] := by
  by_cases hr : r = rule
  · simp [hr]
  · have hiff : w.state r = .succeeded ↔ r ∈ done := by
      refine ⟨fun hs => ?_, h.finished⟩
      by_contra hnot
      by_cases hneed : Needed mk r
      · simp [h.waiting hneed hnot] at hs
      · simp [h.other hneed] at hs
    simp [hr, hiff]

theorem not_default_iff : w.state r ≠ .default ↔ Needed mk r := by
  refine ⟨fun hs => ?_, fun hneed => ?_⟩
  · by_contra hneed
    exact hs (h.other hneed)
  · by_cases hd : r ∈ done
    · simp [h.finished hd]
    · simp [h.waiting hneed hd]

/-- The rules that become due by a rule are those that its worker pushes. -/
theorem due_concat (hac : NoGoalCycle mk) {queue : List T} (hrule : Due mk done rule)
    (hnodup : (rule :: queue).Nodup) (hdue : ∀ r, r ∈ rule :: queue ↔ Due mk done r) (x : T) :
    Due mk (done ++ [rule]) x ↔ x ∈ queue ∨ (x ∈ mk.graph.antineighbors rule ∧
      Function.update w.state rule .succeeded x ≠ .default ∧ ∀ antidep ∈ mk.graph.neighbors x,
        Function.update w.state rule .succeeded antidep = .succeeded) := by
  obtain ⟨⟨goal, hgoal, hreach⟩, hnew, hdeps⟩ := hrule
  have hloop : rule ∉ mk.graph.neighbors rule := fun hself =>
    hac goal hgoal rule hreach (.single ((FinDigraph.mem_neighbors _).mp hself))
  have hqueue : x ∈ queue ↔ Due mk done x ∧ x ≠ rule := by
    rw [← hdue x, List.mem_cons]
    refine ⟨fun hx => ⟨.inr hx, ?_⟩, fun hx => hx.1.resolve_left hx.2⟩
    rintro rfl
    exact (List.nodup_cons.mp hnodup).1 hx
  rw [hqueue, FinDigraph.mem_antineighbors, ← FinDigraph.mem_neighbors]
  constructor
  · rintro ⟨hneed, hx, hxdeps⟩
    obtain ⟨hxdone, hxrule⟩ : x ∉ done ∧ x ≠ rule := by simpa using hx
    by_cases hdep : rule ∈ mk.graph.neighbors x
    · refine .inr ⟨hdep, ?_, fun dep hd => h.succeeded_iff.mpr (hxdeps dep hd)⟩
      rw [Function.update_of_ne hxrule]
      exact h.not_default_iff.mpr hneed
    · refine .inl ⟨⟨hneed, hxdone, fun dep hd => ?_⟩, hxrule⟩
      have hmem := hxdeps dep hd
      rcases List.mem_append.mp hmem with hold | hlast
      · exact hold
      · exact absurd (List.mem_singleton.mp hlast ▸ hd) hdep
  · rintro (⟨⟨hneed, hxdone, hxdeps⟩, hxrule⟩ | ⟨hdep, hdefault, hall⟩)
    · exact ⟨hneed, by simp [hxdone, hxrule], fun dep hd => List.mem_append_left _ (hxdeps dep hd)⟩
    · have hxrule : x ≠ rule := by
        rintro rfl
        exact hloop hdep
      rw [Function.update_of_ne hxrule] at hdefault
      refine ⟨h.not_default_iff.mp hdefault, ?_, fun dep hd => h.succeeded_iff.mp (hall dep hd)⟩
      have hxdone : x ∉ done := fun hx => hnew (h.ordered.closed hx hdep)
      simp [hxdone, hxrule]

/-- The queue without the rule that was pulled, and with what its worker pushes. -/
theorem queue_concat (hac : NoGoalCycle mk) {queue : List T}
    (hnodup : (rule :: queue).Nodup) (hdue : ∀ r, r ∈ rule :: queue ↔ Due mk done r) :
    let queue' := queue ++ (mk.graph.antineighbors rule).filter fun anti =>
      Function.update w.state rule .succeeded anti ≠ .default ∧
        ∀ antidep ∈ mk.graph.neighbors anti,
          Function.update w.state rule .succeeded antidep = .succeeded
    queue'.Nodup ∧ ∀ r, r ∈ queue' ↔ Due mk (done ++ [rule]) r := by
  have hrule : Due mk done rule := (hdue rule).mp List.mem_cons_self
  refine ⟨List.nodup_append'.mpr ⟨(List.nodup_cons.mp hnodup).2,
    (mk.graph.nodup_antineighbors rule).filter _, fun x hx hanti => hrule.2.1 ?_⟩, fun r => ?_⟩
  · have hdep := (FinDigraph.mem_antineighbors _).mp (List.mem_filter.mp hanti).1
    exact ((hdue x).mp (List.mem_cons_of_mem _ hx)).2.2 rule
      ((FinDigraph.mem_neighbors _).mpr hdep)
  · rw [h.due_concat hac hrule hnodup hdue r]
    simp

/-- A rule that is due succeeds. -/
theorem concat (hrule : Due mk done rule)
    (hstate : w'.state = Function.update w.state rule .succeeded) :
    Course mk (done ++ [rule]) w' := by
  obtain ⟨hneed, hnew, hdeps⟩ := hrule
  constructor
  case finished =>
    rw [hstate]
    exact fun hr => h.succeeded_iff.mpr hr
  case waiting =>
    intro r hr hnot
    obtain ⟨hd, hne⟩ : r ∉ done ∧ r ≠ rule := by simpa using hnot
    rw [hstate, Function.update_of_ne hne]
    exact h.waiting hr hd
  case other =>
    intro r hr
    have hne : r ≠ rule := by
      rintro rfl
      exact hr hneed
    rw [hstate, Function.update_of_ne hne]
    exact h.other hr
  case needed =>
    intro r hr
    rcases List.mem_append.mp hr with hr | hr
    · exact h.needed hr
    · exact List.mem_singleton.mp hr ▸ hneed
  case nodup => exact List.nodup_append_comm.mpr (List.nodup_cons.mpr ⟨hnew, h.nodup⟩)
  case ordered => exact h.ordered.concat hdeps

end Course

namespace Progress

variable (h : Progress mk env done w)
include h

theorem course : Course mk done w :=
  ⟨h.finished, h.waiting, h.other, h.needed, h.nodup, h.ordered⟩

/-- A task at the head of the queue is a rule that is due. -/
theorem pulled {rest : List (Option T)} (htasks : w.tasks = some rule :: rest) :
    Due mk done rule ∧ ∃ queue : List T, rest = queue.map some ∧ (rule :: queue).Nodup ∧
      (∀ r, r ∈ rule :: queue ↔ Due mk done r) ∧ ¬ GoalsDone mk done := by
  obtain ⟨queue, hqueue, hnodup, hdue⟩ := h.queue
  cases queue with
  | nil =>
    rw [htasks] at hqueue
    split_ifs at hqueue <;> simp at hqueue
  | cons r queue =>
    rw [htasks, List.map_cons, List.cons_append] at hqueue
    obtain ⟨hr, hrest⟩ := List.cons.inj hqueue
    obtain rfl := Option.some.inj hr
    have hrule : Due mk done rule := (hdue rule).mp List.mem_cons_self
    have hgoals : ¬ GoalsDone mk done := h.course.not_goalsDone hrule
    rw [if_neg hgoals, List.append_nil] at hrest
    exact ⟨hrule, queue, hrest, hnodup, hdue, hgoals⟩

/-- A worker that pulls a rule executes it, and the queue is again what is due. -/
theorem step (hac : NoGoalCycle mk) {files : F} (hfiles : NoTargetFiles mk env files)
    (hstatus : ∀ r ∈ mk.graph.vertices, ∀ c ∈ mk.commands r, env.status c = 0)
    {rest : List (Option T)} (htasks : w.tasks = some rule :: rest) :
    Executes mk env rule { w with tasks := rest } ∧
      Progress mk env (done ++ [rule]) (ropeBody mk env rule { w with tasks := rest }) := by
  obtain ⟨hrule, queue, rfl, hnodup, hdue, hgoals⟩ := h.pulled htasks
  obtain ⟨hneed, hnew, hdeps⟩ := hrule
  have hstate : w.state rule = .unprocessed := h.waiting hneed hnew
  have hchanged : changed mk env rule w.files = true := by
    unfold changed
    rw [h.files rule hneed.mem hnew]
  refine ⟨⟨by simp [hstate], hchanged⟩, ?_⟩
  obtain ⟨count, hcount, hbody⟩ := ropeBody_succeeds (w := { w with tasks := queue.map some })
    h.course.not_failed (by simp [hstate]) hchanged (hstatus rule hneed.mem)
  have hcount' : count = ((mk.graph.neighbors mk.sentinel).filter
      fun goal => goal ∈ done ++ [rule]).length := by
    rw [length_filter_concat (mk.graph.nodup_neighbors _) hnew, hcount, ← h.count]
    simp only [h.goals]
  have hstop : count = w.goalTotal ↔ GoalsDone mk (done ++ [rule]) := by
    rw [hcount', h.total, List.length_filter_eq_length_iff]
    simp [GoalsDone]
  obtain ⟨hqueue, hpushed⟩ := h.course.queue_concat hac hnodup hdue
  obtain ⟨hfinished, hwaiting, hother, hneeded, hdone, hordered⟩ :=
    h.course.concat ⟨hneed, hnew, hdeps⟩ (congrArg World.state hbody)
  rw [hbody] at hfinished hwaiting hother ⊢
  refine ⟨hfinished, hwaiting, hother, hneeded, hdone, hordered, ?_, h.goals, h.total, hcount',
    ?_, ?_⟩
  · refine ⟨_, ?_, hqueue, hpushed⟩
    simp only [hstop, List.map_append]
  · intro t ht hnot
    obtain ⟨hd, hne⟩ : t ∉ done ∧ t ≠ rule := by simpa using hnot
    exact hfiles.run hneed.mem ht hne (h.files t ht hd) _ (List.Subset.refl _)
  · rw [List.reverse_append, List.reverse_reverse, h.log]
    simp

end Progress

theorem course_loadRules {files : F} (hac : NoGoalCycle mk) (h : loadRules mk files = some w) :
    Course mk [] w := by
  obtain ⟨hneeded, hother, -, -⟩ := loadRules_marks hac h
  constructor
  case finished => simp
  case waiting => exact fun hr _ => hneeded _ hr
  case other => exact fun hr => hother _ hr
  case needed => simp
  case nodup => exact .nil
  case ordered => simp [DependenciesFirst]

/-- The loaded rules are due if they have no dependencies. -/
theorem Course.due_nil (h : Course mk [] w) (r : T) :
    r ∈ mk.graph.vertices.filter (fun target =>
      (mk.graph.neighbors target).isEmpty ∧ w.state target = .unprocessed) ↔ Due mk [] r := by
  have hiff : w.state r = .unprocessed ↔ Needed mk r := by
    refine ⟨fun hs => ?_, fun hr => h.waiting hr List.not_mem_nil⟩
    by_contra hnot
    simp [h.other hnot] at hs
  simp only [List.mem_filter, decide_eq_true_eq, List.isEmpty_iff, hiff, Due,
    List.not_mem_nil, not_false_eq_true, true_and]
  refine ⟨fun hr => ⟨hr.2.2, by simp [hr.2.1]⟩, fun hr => ⟨hr.1.mem, ?_, hr.1⟩⟩
  exact List.eq_nil_iff_forall_not_mem.mpr hr.2

theorem progress_loadRules {files : F} (hac : NoGoalCycle mk)
    (hfiles : NoTargetFiles mk env files) (h : loadRules mk files = some w) :
    Progress mk env [] w := by
  obtain ⟨-, -, htasks, hrest⟩ := loadRules_marks hac h
  have hcourse := course_loadRules hac h
  have hdue := hcourse.due_nil
  obtain ⟨hfinished, hwaiting, hother, hneeded, hdone, hordered⟩ := hcourse
  refine ⟨hfinished, hwaiting, hother, hneeded, hdone, hordered, ?_, ?_, ?_, ?_, ?_, ?_⟩
  · refine ⟨_, ?_, mk.nodup.filter _, hdue⟩
    have hgoals : GoalsDone mk [] ↔ mk.graph.neighbors mk.sentinel = [] := by
      simp [GoalsDone, List.eq_nil_iff_forall_not_mem]
    rw [htasks]
    simp only [hgoals]
    split_ifs with hnone
    · have hnobody : mk.graph.vertices.filter (fun target =>
          (mk.graph.neighbors target).isEmpty ∧ w.state target = .unprocessed) = [] := by
        apply List.eq_nil_iff_forall_not_mem.mpr
        intro r hr
        obtain ⟨goal, hgoal, -⟩ := ((hdue r).mp hr).1
        simp [hnone] at hgoal
      rw [hnobody]
      rfl
    · simp
  · intro r
    rw [hrest]
    exact List.mem_reverse
  · rw [hrest]
    rfl
  · rw [hrest]
    simp [World.init]
  · intro t ht _
    rw [hrest]
    exact hfiles.start t ht
  · rw [hrest]
    rfl

/-- The worker executes what is left and stops. -/
theorem rope_completes (hac : NoGoalCycle mk) {files : F} (hfiles : NoTargetFiles mk env files)
    (hstatus : ∀ r ∈ mk.graph.vertices, ∀ c ∈ mk.commands r, env.status c = 0) :
    ∀ {fuel : ℕ} {done : List T} {w : World T C F}, Progress mk env done w →
      mk.graph.vertices.length < fuel + done.length →
        ∃ executed last tasks, rope mk env fuel w = some (executed, { last with tasks := tasks }) ∧
          Progress mk env (done ++ executed) last ∧ GoalsDone mk (done ++ executed)
  | 0, done, w, h, hfuel => by
    have hle := h.course.length_le
    omega
  | fuel + 1, done, w, h, hfuel => by
    obtain ⟨queue, hqueue, -, hdue⟩ := h.queue
    rw [rope]
    match htasks : w.tasks with
    | [] =>
      have hgoals : ¬ GoalsDone mk done := by
        intro hg
        simp [htasks, hg] at hqueue
      obtain ⟨r, hr⟩ := exists_due hac hgoals
      have hmem := (hdue r).mpr hr
      cases queue with
      | nil => simp at hmem
      | cons x xs => simp [htasks] at hqueue
    | none :: rest =>
      have hgoals : GoalsDone mk done := by
        by_contra hg
        rw [htasks, if_neg hg, List.append_nil] at hqueue
        cases queue with
        | nil => simp at hqueue
        | cons x xs => simp at hqueue
      refine ⟨[], w, rest ++ [none], rfl, ?_, ?_⟩
      · rwa [List.append_nil]
      · rwa [List.append_nil]
    | some rule :: rest =>
      obtain ⟨hexec, hstep⟩ := h.step hac hfiles hstatus htasks
      have hless : mk.graph.vertices.length < fuel + (done ++ [rule]).length := by
        rw [List.length_append, List.length_singleton]
        omega
      obtain ⟨executed, last, tasks, hrope, hlast, hgoals⟩ :=
        rope_completes hac hfiles hstatus hstep hless
      refine ⟨rule :: executed, last, tasks, ?_, ?_, ?_⟩
      · simp only [hrope, Option.map_some, hexec, if_true]
      · rwa [List.append_assoc] at hlast
      · rwa [List.append_assoc] at hgoals

/-- If no goal reaches a cycle, no command fails and no target is a file, then a run with one
worker ends. It has executed the rules that the goals need, each once and after its dependencies. -/
theorem parmake_completes (hac : NoGoalCycle mk) {files : F} (hfiles : NoTargetFiles mk env files)
    (hstatus : ∀ r ∈ mk.graph.vertices, ∀ c ∈ mk.commands r, env.status c = 0) :
    ∃ executed w, parmake mk env (mk.graph.vertices.length + 1) files = some (executed, w) ∧
      executed.Nodup ∧ (∀ r, r ∈ executed ↔ Needed mk r) ∧ DependenciesFirst mk executed ∧
      w.log.reverse = executed.flatMap fun r =>
        (mk.commands r).map (.ran r) ++ [.finished r .succeeded] := by
  obtain ⟨w₀, hload⟩ := Option.isSome_iff_exists.mp (loadRules_returns mk files)
  have hless : mk.graph.vertices.length < mk.graph.vertices.length + 1 + ([] : List T).length := by
    simp
  obtain ⟨executed, last, tasks, hrope, hlast, hgoals⟩ := rope_completes hac hfiles hstatus
    (progress_loadRules hac hfiles hload) hless
  rw [List.nil_append] at hlast hgoals
  refine ⟨executed, { last with tasks := tasks }, ?_, hlast.nodup,
    fun r => ⟨hlast.needed, hlast.course.all_of_goals hgoals⟩, hlast.ordered, hlast.log⟩
  rw [parmake, hload]
  exact hrope

/-- The two dependencies are executed before the goal. -/
theorem parmake_completes_twoDeps : ∃ w, parmake twoDeps (failing 0) 5 () = some ([2, 3, 1], w) ∧
    DependenciesFirst twoDeps [2, 3, 1] := by
  have hstatus : ∀ r ∈ twoDeps.graph.vertices, ∀ c ∈ twoDeps.commands r,
      (failing 0).status c = 0 := by decide
  obtain ⟨executed, w, hrun, -, -, hfirst, -⟩ := parmake_completes noGoalCycle_twoDeps
    (⟨fun _ _ => rfl, fun _ _ _ _ _ _ _ _ _ => rfl⟩ : NoTargetFiles twoDeps (failing 0) ()) hstatus
  have hexecuted : (parmake twoDeps (failing 0) 5 ()).map Prod.fst = some [2, 3, 1] := by
    decide +kernel
  rw [show parmake twoDeps (failing 0) 5 () = some (executed, w) from hrun] at hexecuted
  obtain rfl := Option.some.inj hexecuted
  exact ⟨w, hrun, hfirst⟩

end Cs241.Parmake
