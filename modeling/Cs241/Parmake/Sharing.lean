import Cs241.Foundation.Updates
import Cs241.Parmake.Workers

/-!
# What the workers share

Several workers make the rules that the goals need, no command fails and no
target is a file. At each point of `rope` a worker relies on a few facts about the
rule that it has pulled; the other workers leave them true as long as no two of
them have the same rule. The results and their parts are those of one worker, but
for the tasks: a rule whose last dependency has succeeded is a task, or some worker
is on its way to push it.
-/
namespace Cs241.Parmake

open Foundation

variable {T C F I : Type*}

/-! ## Where a worker is -/

/-- The worker has passed the test for the rule and has not finished it. -/
def Point.Has (p : Point T C) (rule : T) : Prop :=
  match p with
  | .setProcessing r | .checkDependencies r _ | .testChanged r | .callExecute r
  | .runCommands r _ | .testFailed r | .setSucceeded r => r = rule
  | _ => False

/-- The worker is about to message that there is nothing left to do. -/
def Point.Stops (p : Point T C) : Prop :=
  p = .testGoalCount ∨ p = .pushNull ∨ p = .pushLastNull

section Points

variable [DecidableEq T] (mk : Makefile T C)

/-- The worker sees to it that the rule, whose dependencies have succeeded, is made or pushed. -/
def Point.Promises (p : Point T C) (rule : T) : Prop :=
  match p with
  | .testState r | .setProcessing r => r = rule
  | .getState r => rule ∈ mk.graph.antineighbors r
  | .testAntineighbor _ antis => rule ∈ antis
  | .scan _ anti _ good antis => (rule = anti ∧ good = true) ∨ rule ∈ antis
  | .pushGood _ anti antis => rule = anti ∨ rule ∈ antis
  | _ => False

/-- The worker has finished a goal that is not counted yet. -/
def Point.Uncounted (p : Point T C) : Prop :=
  match p with
  | .getState r | .testAntineighbor r _ | .scan r _ _ _ _ | .pushGood r _ _ | .countGoal r =>
    r ∈ mk.graph.neighbors mk.sentinel
  | _ => False

instance (p : Point T C) : Decidable (p.Uncounted mk) :=
  match p with
  | .getState r | .testAntineighbor r _ | .scan r _ _ _ _ | .pushGood r _ _ | .countGoal r =>
    inferInstanceAs (Decidable (r ∈ mk.graph.neighbors mk.sentinel))
  | .pull | .testState _ | .setProcessing _ | .checkDependencies _ _ | .markFailed _
  | .testChanged _ | .callExecute _ | .runCommands _ _ | .commandFailed _ | .testFailed _
  | .setSucceeded _ | .skip _ | .readGoalCount _ | .writeGoalCount _ _ | .pushFailed _ _
  | .testGoalCount | .pushNull | .pushLastNull | .returned => .isFalse id

/-- The rule is being made, after its dependencies. -/
structure Underway (mk : Makefile T C) (state : T → RuleState) (rule : T) : Prop where
  needed : Needed mk rule
  ready : Ready mk state rule
  processing : state rule = .processing

/-- What a worker relies on at its point, when nothing fails and nothing is up to date. -/
def Point.Sound (w : World T C F) (executed : List T) : Point T C → Prop
  | .pull | .testGoalCount => True
  | .testState r => Needed mk r ∧ Ready mk w.state r
  | .setProcessing r => Needed mk r ∧ Ready mk w.state r ∧ w.state r = .unprocessed
  | .checkDependencies r _ | .testChanged r | .callExecute r => Underway mk w.state r
  | .runCommands r commands => Underway mk w.state r ∧ r ∈ executed ∧ commands ⊆ mk.commands r
  | .testFailed r | .setSucceeded r => Underway mk w.state r ∧ r ∈ executed
  | .getState r | .testAntineighbor r _ | .countGoal r => w.state r = .succeeded
  | .scan r anti antideps good _ => w.state r = .succeeded ∧ Needed mk anti ∧
      antideps ⊆ mk.graph.neighbors anti ∧ (good = true → ∀ dep ∈ mk.graph.neighbors anti,
        dep ∈ antideps ∨ w.state dep = .succeeded)
  | .pushGood r anti _ => w.state r = .succeeded ∧ Needed mk anti ∧ Ready mk w.state anti
  | .pushNull | .pushLastNull | .returned => w.goalCount = w.goalTotal
  | .markFailed _ | .commandFailed _ | .skip _ | .readGoalCount _ | .writeGoalCount _ _
  | .pushFailed _ _ => False

end Points

/-! ## What the workers know together -/

variable [DecidableEq T]

/-- The goals that have succeeded. -/
def goalsMade (mk : Makefile T C) (state : T → RuleState) : Finset T :=
  (mk.graph.neighbors mk.sentinel).toFinset.filter fun goal => state goal = .succeeded

/-- What holds of the rules, of the queue and of the count of goals in every state. -/
structure Shared (mk : Makefile T C) (env : Env T C F) [Fintype I] (s : Workers I T C F) :
    Prop where
  needed : ∀ r, s.world.state r ≠ .default ↔ Needed mk r
  running : ∀ r, s.world.state r ≠ .failed ∧ s.world.state r ≠ .ignored
  sound : ∀ i, (s.point i).Sound mk s.world s.executed
  alone : ∀ {i j r}, (s.point i).Has r → (s.point j).Has r → i = j
  held : ∀ {r}, s.world.state r = .processing → ∃ i, (s.point i).Has r
  done : ∀ {r}, s.world.state r = .succeeded → r ∈ s.executed ∧ Ready mk s.world.state r
  queued : ∀ {r}, some r ∈ s.world.tasks → Needed mk r ∧ Ready mk s.world.state r
  promised : ∀ {r}, s.world.state r = .unprocessed → Ready mk s.world.state r →
    some r ∈ s.world.tasks ∨ ∃ i, (s.point i).Promises mk r
  executed : ∀ {r}, r ∈ s.executed → Needed mk r
  ordered : DependenciesFirst mk s.executed.reverse
  files : ∀ t ∈ mk.graph.vertices, t ∉ s.executed → env.mtime s.world.files t = none
  goals : ∀ r, r ∈ s.world.validGoals ↔ r ∈ mk.graph.neighbors mk.sentinel
  total : s.world.goalTotal = (mk.graph.neighbors mk.sentinel).length
  count : s.world.goalCount + (Finset.univ.filter fun i => (s.point i).Uncounted mk).card =
    (goalsMade mk s.world.state).card
  stop : none ∈ s.world.tasks → s.world.goalCount = s.world.goalTotal
  stopping : s.world.goalCount = s.world.goalTotal → none ∈ s.world.tasks ∨ ∃ i, (s.point i).Stops

/-! ## What a step can do -/

/-- The steps of a worker when nothing fails and nothing is up to date. -/
inductive Move (mk : Makefile T C) (env : Env T C F) (w : World T C F) :
    Point T C → Point T C → World T C F → Prop
  | pullNull {rest} (h : w.tasks = none :: rest) :
      Move mk env w .pull .pushLastNull { w with tasks := rest }
  | pull {r rest} (h : w.tasks = some r :: rest) :
      Move mk env w .pull (.testState r) { w with tasks := rest }
  | leave {r} (h : w.state r = .processing) : Move mk env w (.testState r) .pull w
  | claim {r} (h : w.state r ≠ .processing) : Move mk env w (.testState r) (.setProcessing r) w
  | mark {r} : Move mk env w (.setProcessing r) (.checkDependencies r (mk.graph.neighbors r))
      (w.setState r .processing)
  | check {r dep deps} :
      Move mk env w (.checkDependencies r (dep :: deps)) (.checkDependencies r deps) w
  | checked {r} : Move mk env w (.checkDependencies r []) (.testChanged r) w
  | change {r} : Move mk env w (.testChanged r) (.callExecute r) w
  | call {r} : Move mk env w (.callExecute r) (.runCommands r (mk.commands r)) w
  | command {r c commands} :
      Move mk env w (.runCommands r (c :: commands)) (.runCommands r commands)
        { w with files := env.effect c w.files, log := .ran r c :: w.log }
  | ran {r} : Move mk env w (.runCommands r []) (.testFailed r) w
  | passed {r} : Move mk env w (.testFailed r) (.setSucceeded r) w
  | finish {r} : Move mk env w (.setSucceeded r) (.getState r) (w.setState r .succeeded)
  | look {r} : Move mk env w (.getState r) (.testAntineighbor r (mk.graph.antineighbors r)) w
  | last {r} : Move mk env w (.testAntineighbor r []) (.countGoal r) w
  | pass {r anti antis} (h : ¬ Needed mk anti) :
      Move mk env w (.testAntineighbor r (anti :: antis)) (.testAntineighbor r antis) w
  | enter {r anti antis} (h : Needed mk anti) :
      Move mk env w (.testAntineighbor r (anti :: antis))
        (.scan r anti (mk.graph.neighbors anti) true antis) w
  | scan {r anti dep deps good antis} :
      Move mk env w (.scan r anti (dep :: deps) good antis)
        (.scan r anti deps (good && w.state dep = .succeeded) antis) w
  | good {r anti antis} : Move mk env w (.scan r anti [] true antis) (.pushGood r anti antis) w
  | bad {r anti antis} :
      Move mk env w (.scan r anti [] false antis) (.testAntineighbor r antis) w
  | push {r anti antis} :
      Move mk env w (.pushGood r anti antis) (.testAntineighbor r antis) (w.push (some anti))
  | count {r} : Move mk env w (.countGoal r) .testGoalCount
      (if r ∈ w.validGoals then { w with goalCount := w.goalCount + 1 } else w)
  | enough (h : w.goalCount = w.goalTotal) : Move mk env w .testGoalCount .pushNull w
  | more (h : w.goalCount ≠ w.goalTotal) : Move mk env w .testGoalCount .pull w
  | pushNull : Move mk env w .pushNull .pull (w.push none)
  | pushLastNull : Move mk env w .pushLastNull .returned (w.push none)

variable {mk : Makefile T C} {env : Env T C F} {w w' : World T C F} {p p' : Point T C}
  {executed executed' : List T} {r rule : T}

/-! ## One point -/

theorem setState_self (w : World T C F) (rule : T) (state : RuleState) :
    (w.setState rule state).state rule = state := Function.update_self ..

theorem setState_of_ne {state : RuleState} (h : r ≠ rule) :
    (w.setState rule state).state r = w.state r := Function.update_of_ne h ..

theorem Ready.mono (h : Ready mk w.state r)
    (hsucceeded : ∀ r, w.state r = .succeeded → w'.state r = .succeeded) : Ready mk w'.state r :=
  fun dep hdep => hsucceeded dep (h dep hdep)

theorem Underway.mono (h : Underway mk w.state r)
    (hsucceeded : ∀ r, w.state r = .succeeded → w'.state r = .succeeded)
    (hr : w'.state r = w.state r) : Underway mk w'.state r :=
  ⟨h.needed, h.ready.mono hsucceeded, hr.trans h.processing⟩

/-- What other workers do leaves true what a worker relies on. -/
theorem Point.Sound.mono (h : p.Sound mk w executed)
    (hsucceeded : ∀ r, w.state r = .succeeded → w'.state r = .succeeded)
    (hhas : ∀ r, p.Has r → w'.state r = w.state r) (hexecuted : executed ⊆ executed')
    (hstop : w.goalCount = w.goalTotal → w'.goalCount = w'.goalTotal) :
    p.Sound mk w' executed' := by
  cases p with
  | pull | testGoalCount => trivial
  | testState r => exact ⟨h.1, h.2.mono hsucceeded⟩
  | setProcessing r => exact ⟨h.1, h.2.1.mono hsucceeded, (hhas r rfl).trans h.2.2⟩
  | checkDependencies r _ | testChanged r | callExecute r =>
    exact Underway.mono h hsucceeded (hhas r rfl)
  | runCommands r commands =>
    exact ⟨h.1.mono hsucceeded (hhas r rfl), hexecuted h.2.1, h.2.2⟩
  | testFailed r | setSucceeded r => exact ⟨h.1.mono hsucceeded (hhas r rfl), hexecuted h.2⟩
  | getState r | testAntineighbor r _ | countGoal r => exact hsucceeded r h
  | scan r anti antideps good _ =>
    obtain ⟨hr, hneed, hsub, hscanned⟩ := h
    exact ⟨hsucceeded r hr, hneed, hsub, fun hgood dep hdep =>
      (hscanned hgood dep hdep).imp_right (hsucceeded dep)⟩
  | pushGood r anti _ => exact ⟨hsucceeded r h.1, h.2.1, h.2.2.mono hsucceeded⟩
  | pushNull | pushLastNull | returned => exact hstop h
  | markFailed _ | commandFailed _ | skip _ | readGoalCount _ | writeGoalCount _ _
  | pushFailed _ _ => exact h.elim

/-- A worker with a rule is about to mark it, or the rule is being processed. -/
theorem Point.Sound.state_of_has (h : p.Sound mk w executed) (hr : p.Has r) :
    p = .setProcessing r ∧ w.state r = .unprocessed ∨ w.state r = .processing := by
  cases p with
  | setProcessing x =>
    obtain rfl : x = r := hr
    exact .inl ⟨rfl, h.2.2⟩
  | checkDependencies x _ | testChanged x | callExecute x =>
    obtain rfl : x = r := hr
    exact .inr h.processing
  | runCommands x _ | testFailed x | setSucceeded x =>
    obtain rfl : x = r := hr
    exact .inr h.1.processing
  | _ => exact hr.elim

/-- The rule is not finished as long as a worker has it. -/
theorem Point.Sound.not_succeeded (h : p.Sound mk w executed) (hr : p.Has r) :
    w.state r ≠ .succeeded := by
  rcases h.state_of_has hr with ⟨-, hstate⟩ | hstate <;> simp [hstate]

/-- The states change where a worker marks its rule and where it has succeeded. -/
theorem Move.state (hm : Move mk env w p p' w') :
    (w'.state = w.state ∧ (∀ r, p'.Has r → p.Has r ∨ (p = .testState r ∧
      w.state r ≠ .processing)) ∧ ∀ r, p.Has r → p'.Has r) ∨
    (∃ r, p = .setProcessing r ∧ p' = .checkDependencies r (mk.graph.neighbors r) ∧
      w' = w.setState r .processing) ∨
    (∃ r, p = .setSucceeded r ∧ p' = .getState r ∧ w' = w.setState r .succeeded) := by
  cases hm with
  | mark => exact .inr (.inl ⟨_, rfl, rfl, rfl⟩)
  | finish => exact .inr (.inr ⟨_, rfl, rfl, rfl⟩)
  | @claim r h =>
    refine .inl ⟨rfl, fun x hx => .inr ?_, by simp [Point.Has]⟩
    obtain rfl : r = x := hx
    exact ⟨rfl, h⟩
  | count =>
    refine .inl ⟨?_, by simp [Point.Has], by simp [Point.Has]⟩
    split_ifs <;> rfl
  | _ => exact .inl ⟨rfl, by simp [Point.Has], by simp [Point.Has]⟩

/-- What has succeeded stays so. -/
theorem Move.succeeded (hm : Move mk env w p p' w') (h : p.Sound mk w executed)
    (hr : w.state r = .succeeded) : w'.state r = .succeeded := by
  rcases hm.state with ⟨hstate, -, -⟩ | ⟨x, rfl, -, rfl⟩ | ⟨x, rfl, -, rfl⟩
  · rwa [hstate]
  · have hne : r ≠ x := by
      rintro rfl
      exact h.not_succeeded rfl hr
    rwa [setState_of_ne hne]
  · by_cases hrx : r = x
    · rw [hrx, setState_self]
    · rwa [setState_of_ne hrx]

/-- The worker relies on what it has just seen to. -/
theorem Move.sound (hm : Move mk env w p p' w') (h : p.Sound mk w executed)
    (hqueued : ∀ {r}, some r ∈ w.tasks → Needed mk r ∧ Ready mk w.state r)
    (hstop : none ∈ w.tasks → w.goalCount = w.goalTotal)
    (htested : ∀ {r}, p = .testState r → w.state r ≠ .processing → w.state r = .unprocessed) :
    p'.Sound mk w' (p.executes ++ executed) := by
  have hgrows : ∀ r, w.state r = .succeeded → w'.state r = .succeeded :=
    fun r hr => hm.succeeded h hr
  cases hm with
  | pullNull htasks => exact hstop (by simp [htasks])
  | pull htasks => exact hqueued (by simp [htasks])
  | claim hr => exact ⟨h.1, h.2, htested rfl hr⟩
  | mark => exact ⟨h.1, h.2.1.mono hgrows, setState_self ..⟩
  | call => exact ⟨h, List.mem_cons_self, List.Subset.refl _⟩
  | command => exact ⟨h.1, h.2.1, (List.cons_subset.mp h.2.2).2⟩
  | ran => exact ⟨h.1, h.2.1⟩
  | finish => exact Function.update_self ..
  | enter hanti => exact ⟨h, hanti, List.Subset.refl _, fun _ dep hdep => .inl hdep⟩
  | @scan r anti dep deps good antis =>
    obtain ⟨hr, hneed, hsub, hscanned⟩ := h
    refine ⟨hr, hneed, (List.cons_subset.mp hsub).2, fun hgood x hx => ?_⟩
    obtain ⟨hold, hdep⟩ : good = true ∧ w.state dep = .succeeded := by simpa using hgood
    rcases hscanned hold x hx with hmem | hdone
    · rcases List.mem_cons.mp hmem with rfl | hmem
      exacts [.inr hdep, .inl hmem]
    · exact .inr hdone
  | good => exact ⟨h.1, h.2.1, fun dep hdep => (h.2.2.2 rfl dep hdep).resolve_left (by simp)⟩
  | bad | push => exact h.1
  | enough hcount => exact hcount
  | leave | count | more | pushNull => trivial
  | check | checked | change | passed | look | last | pass | pushLastNull => exact h

/-- A worker keeps a promise or hands the rule over to the queue. -/
theorem Move.promises (hm : Move mk env w p p' w') (hsound : p.Sound mk w executed)
    (hneed : Needed mk r) (hstate : w'.state r = .unprocessed) (hready : Ready mk w.state r)
    (h : p.Promises mk r) : some r ∈ w'.tasks ∨ p'.Promises mk r := by
  cases hm with
  | @leave x hx =>
    obtain rfl : x = r := h
    simp [hx] at hstate
  | @mark x =>
    obtain rfl : x = r := h
    simp [setState_self] at hstate
  | @pass x anti antis hanti =>
    rcases List.mem_cons.mp h with rfl | hmem
    exacts [absurd hneed hanti, .inr hmem]
  | @enter x anti antis hanti =>
    rcases List.mem_cons.mp h with rfl | hmem
    exacts [.inr (.inl ⟨rfl, rfl⟩), .inr (.inr hmem)]
  | @scan x anti dep deps good antis =>
    refine .inr (h.imp_left fun hanti => ⟨hanti.1, ?_⟩)
    obtain ⟨hr, hgood⟩ := hanti
    have hdep := hready dep (hr ▸ hsound.2.2.1 List.mem_cons_self)
    simp [hgood, hdep]
  | good => exact .inr (h.imp_left And.left)
  | bad => exact .inr (h.resolve_left (by simp))
  | push =>
    rcases h with rfl | hmem
    exacts [.inl (by simp [World.push]), .inr hmem]
  | claim => exact .inr h
  | look => exact .inr h
  | last => simp [Point.Promises] at h
  | _ => exact h.elim

theorem Move.tasks (hm : Move mk env w p p' w') {task : Option T} (h : task ∈ w'.tasks) :
    task ∈ w.tasks ∨ (∃ r anti antis, p = .pushGood r anti antis ∧ task = some anti) ∨
      (task = none ∧ (p = .pushNull ∨ p = .pushLastNull)) := by
  cases hm with
  | pullNull htasks => exact .inl (by simp_all)
  | pull htasks => exact .inl (by simp_all)
  | push => simpa [World.push] using h
  | pushNull => simpa [World.push] using h
  | pushLastNull => simpa [World.push] using h
  | count =>
    split_ifs at h <;> exact .inl h
  | _ => exact .inl h

theorem Move.kept (hm : Move mk env w p p' w') :
    w'.validGoals = w.validGoals ∧ w'.goalTotal = w.goalTotal := by
  cases hm with
  | count => split_ifs <;> exact ⟨rfl, rfl⟩
  | _ => exact ⟨rfl, rfl⟩

/-- A task stays in the queue until a worker pulls it. -/
theorem Move.queued (hm : Move mk env w p p' w') {task : Option T} (h : task ∈ w.tasks) :
    task ∈ w'.tasks ∨ (∃ r, task = some r ∧ p' = .testState r) ∨
      (task = none ∧ p' = .pushLastNull) := by
  cases hm with
  | pullNull htasks =>
    rw [htasks] at h
    rcases List.mem_cons.mp h with rfl | hmem
    exacts [.inr (.inr ⟨rfl, rfl⟩), .inl hmem]
  | pull htasks =>
    rw [htasks] at h
    rcases List.mem_cons.mp h with rfl | hmem
    exacts [.inr (.inl ⟨_, rfl, rfl⟩), .inl hmem]
  | push | pushNull | pushLastNull => exact .inl (List.mem_append_left _ h)
  | count =>
    split_ifs <;> exact .inl h
  | _ => exact .inl h

theorem card_goalsMade (mk : Makefile T C) (rule : T) (state : T → RuleState) (new : RuleState) :
    (goalsMade mk (Function.update state rule new)).card +
        (if rule ∈ mk.graph.neighbors mk.sentinel ∧ state rule = .succeeded then 1 else 0) =
      (goalsMade mk state).card +
        (if rule ∈ mk.graph.neighbors mk.sentinel ∧ new = .succeeded then 1 else 0) := by
  by_cases hgoal : rule ∈ mk.graph.neighbors mk.sentinel
  · simpa [goalsMade, hgoal] using card_filter_update (List.mem_toFinset.mpr hgoal)
      (fun _ state => state = RuleState.succeeded) state new
  · have hsame : goalsMade mk (Function.update state rule new) = goalsMade mk state := by
      apply Finset.filter_congr
      intro goal hmem
      have hne : goal ≠ rule := by
        rintro rfl
        exact hgoal (List.mem_toFinset.mp hmem)
      rw [Function.update_of_ne hne]
    simp [hsame, hgoal]

/-- A worker has one more goal to count when its rule has succeeded, and one less when it has
counted it. -/
theorem Move.counts (hm : Move mk env w p p' w') (h : p.Sound mk w executed)
    (hgoals : ∀ r, r ∈ w.validGoals ↔ r ∈ mk.graph.neighbors mk.sentinel) :
    w'.goalCount + (if p'.Uncounted mk then 1 else 0) + (goalsMade mk w.state).card =
      w.goalCount + (if p.Uncounted mk then 1 else 0) + (goalsMade mk w'.state).card := by
  cases hm with
  | @mark r =>
    have hcard := card_goalsMade mk r w.state .processing
    simpa [Point.Uncounted, World.setState, h.2.2] using hcard.symm
  | @finish r =>
    have hcard := card_goalsMade mk r w.state .succeeded
    simp only [h.1.processing, reduceCtorEq, and_false, and_true, if_false] at hcard
    have hbefore : ¬ (Point.setSucceeded r : Point T C).Uncounted mk := id
    have hafter : (Point.getState r : Point T C).Uncounted mk ↔
        r ∈ mk.graph.neighbors mk.sentinel := Iff.rfl
    simp only [hbefore, hafter, if_false, World.setState]
    omega
  | @count r =>
    simp only [Point.Uncounted, ← hgoals r]
    split_ifs <;> simp
  | _ => rfl

/-- When all goals are counted, a worker that sees to the message to stop goes on with it. -/
theorem Move.stopping (hm : Move mk env w p p' w') (h : w'.goalCount = w'.goalTotal) :
    none ∈ w'.tasks ∨ p'.Stops ∨ (w.goalCount = w.goalTotal ∧ ¬ p.Stops) := by
  cases hm with
  | count => exact .inr (.inl (.inl rfl))
  | enough => exact .inr (.inl (.inr (.inl rfl)))
  | more hcount => exact absurd h hcount
  | pushNull | pushLastNull => exact .inl (List.mem_append_right _ List.mem_cons_self)
  | _ => exact .inr (.inr ⟨h, by simp [Point.Stops]⟩)

/-! ## One step -/

variable [Fintype I] [DecidableEq I] {s s' : Workers I T C F} {i j : I}

/-- The workers after a step of one of them. -/
def Workers.moved (s : Workers I T C F) (i : I) (p' : Point T C) (w' : World T C F) :
    Workers I T C F :=
  { world := w', point := Function.update s.point i p'
    executed := (s.point i).executes ++ s.executed }

namespace Shared

section Facts

variable (h : Shared mk env s)
include h

omit [DecidableEq I] in
/-- Under the guard a rule that passes the test is unprocessed, and no worker has it. -/
theorem tested (hg : TestGuard s i) (hp : s.point i = .testState r)
    (hne : s.world.state r ≠ .processing) :
    s.world.state r = .unprocessed ∧ ∀ j, ¬ (s.point j).Has r := by
  rw [TestGuard, hp] at hg
  obtain ⟨hstate, hmark⟩ := hg.resolve_left hne
  refine ⟨hstate, fun j hj => ?_⟩
  rcases (h.sound j).state_of_has hj with ⟨hset, -⟩ | hprocessing
  · exact hmark j hset
  · exact hne hprocessing

omit [DecidableEq I] in
/-- The goals that have succeeded, with those that are not counted, are at most all goals. -/
theorem count_le : s.world.goalCount +
    (Finset.univ.filter fun i => (s.point i).Uncounted mk).card ≤ s.world.goalTotal := by
  rw [h.count, h.total, ← List.toFinset_card_of_nodup (mk.graph.nodup_neighbors mk.sentinel)]
  exact Finset.card_filter_le _ _

omit [DecidableEq I] in
/-- When all goals are counted, nobody has a goal that is not. -/
theorem not_uncounted (hstop : s.world.goalCount = s.world.goalTotal) :
    ¬ (s.point i).Uncounted mk := by
  intro hi
  have hpos : 0 < (Finset.univ.filter fun i => (s.point i).Uncounted mk).card :=
    Finset.card_pos.mpr ⟨i, by simpa using hi⟩
  have hle := h.count_le
  omega

omit [DecidableEq I] in
/-- What a worker can do when nothing fails and nothing is up to date. -/
theorem move (honce : Once s)
    (hstatus : ∀ r ∈ mk.graph.vertices, ∀ c ∈ mk.commands r, env.status c = 0)
    (hstep : ropeStep mk env s.world (s.point i) = some (p', w')) :
    Move mk env s.world (s.point i) p' w' := by
  have hsound := h.sound i
  have hfailed : ∀ r, s.world.state r ≠ .failed := fun r => (h.running r).1
  have hnew : ∀ r, (s.point i).Claims r → r ∉ s.executed := fun r hr => honce.fresh hr
  generalize s.point i = p at hsound hnew hstep
  cases p with
  | pull =>
    cases htasks : s.world.tasks with
    | nil => simp [ropeStep, htasks] at hstep
    | cons task rest =>
      cases task with
      | none =>
        simp only [ropeStep, htasks] at hstep
        obtain ⟨rfl, rfl⟩ := Prod.mk.inj (Option.some.inj hstep)
        exact .pullNull htasks
      | some r =>
        simp only [ropeStep, htasks] at hstep
        obtain ⟨rfl, rfl⟩ := Prod.mk.inj (Option.some.inj hstep)
        exact .pull htasks
  | testState r =>
    simp only [ropeStep] at hstep
    obtain ⟨rfl, rfl⟩ := Prod.mk.inj (Option.some.inj hstep)
    split_ifs with hr
    exacts [.leave hr, .claim hr]
  | checkDependencies r deps =>
    cases deps with
    | nil =>
      obtain ⟨rfl, rfl⟩ := Prod.mk.inj (Option.some.inj hstep)
      exact .checked
    | cons dep deps =>
      simp only [ropeStep, if_neg (hfailed dep)] at hstep
      obtain ⟨rfl, rfl⟩ := Prod.mk.inj (Option.some.inj hstep)
      exact .check
  | testChanged r =>
    have hchanged : changed mk env r s.world.files = true := by
      unfold changed
      rw [h.files r hsound.needed.mem (hnew r rfl)]
    simp only [ropeStep, hchanged, if_true] at hstep
    obtain ⟨rfl, rfl⟩ := Prod.mk.inj (Option.some.inj hstep)
    exact .change
  | runCommands r commands =>
    cases commands with
    | nil =>
      obtain ⟨rfl, rfl⟩ := Prod.mk.inj (Option.some.inj hstep)
      exact .ran
    | cons c commands =>
      have hzero : env.status c = 0 :=
        hstatus r hsound.1.needed.mem c (hsound.2.2 List.mem_cons_self)
      simp only [ropeStep, hzero, ne_eq, not_true_eq_false, if_false] at hstep
      obtain ⟨rfl, rfl⟩ := Prod.mk.inj (Option.some.inj hstep)
      exact .command
  | testFailed r =>
    simp only [ropeStep, if_pos (hfailed r)] at hstep
    obtain ⟨rfl, rfl⟩ := Prod.mk.inj (Option.some.inj hstep)
    exact .passed
  | getState r =>
    have hr : s.world.state r = .succeeded := hsound
    simp only [ropeStep, hr, reduceCtorEq, if_false, if_true] at hstep
    obtain ⟨rfl, rfl⟩ := Prod.mk.inj (Option.some.inj hstep)
    exact .look
  | testAntineighbor r antis =>
    cases antis with
    | nil =>
      obtain ⟨rfl, rfl⟩ := Prod.mk.inj (Option.some.inj hstep)
      exact .last
    | cons anti antis =>
      simp only [ropeStep] at hstep
      obtain ⟨rfl, rfl⟩ := Prod.mk.inj (Option.some.inj hstep)
      split_ifs with hanti
      · exact .pass fun hneed => (h.needed anti).mpr hneed hanti
      · exact .enter ((h.needed anti).mp hanti)
  | scan r anti deps good antis =>
    cases deps with
    | nil =>
      cases good with
      | false =>
        obtain ⟨rfl, rfl⟩ := Prod.mk.inj (Option.some.inj hstep)
        exact .bad
      | true =>
        obtain ⟨rfl, rfl⟩ := Prod.mk.inj (Option.some.inj hstep)
        exact .good
    | cons dep deps =>
      obtain ⟨rfl, rfl⟩ := Prod.mk.inj (Option.some.inj hstep)
      exact .scan
  | testGoalCount =>
    simp only [ropeStep] at hstep
    obtain ⟨rfl, rfl⟩ := Prod.mk.inj (Option.some.inj hstep)
    split_ifs with hcount
    exacts [.enough hcount, .more hcount]
  | setProcessing _ | callExecute _ | setSucceeded _ | pushGood _ _ _ | countGoal _ | pushNull
  | pushLastNull =>
    obtain ⟨rfl, rfl⟩ := Prod.mk.inj (Option.some.inj hstep)
    constructor
  | returned => simp [ropeStep] at hstep
  | markFailed _ | commandFailed _ | skip _ | readGoalCount _ | writeGoalCount _ _
  | pushFailed _ _ => exact hsound.elim

end Facts

/-! ### The states of the rules -/

section Step

variable (h : Shared mk env s) (hm : Move mk env s.world (s.point i) p' w')
include h hm

omit [DecidableEq I] in
/-- Only the rule of the worker changes, and it is one that is needed. -/
theorem states (r : T) : w'.state r = s.world.state r ∨
    (Needed mk r ∧ (s.point i).Has r ∧
      (w'.state r = .processing ∨ w'.state r = .succeeded)) := by
  have hsound := h.sound i
  rcases hm.state with ⟨hstate, -, -⟩ | ⟨x, hp, -, rfl⟩ | ⟨x, hp, -, rfl⟩
  · exact .inl (by rw [hstate])
  · rw [hp] at hsound ⊢
    by_cases hrx : r = x
    · subst hrx
      exact .inr ⟨hsound.1, rfl, .inl (setState_self ..)⟩
    · exact .inl (setState_of_ne hrx)
  · rw [hp] at hsound ⊢
    by_cases hrx : r = x
    · subst hrx
      exact .inr ⟨hsound.1.needed, rfl, .inr (setState_self ..)⟩
    · exact .inl (setState_of_ne hrx)

omit [DecidableEq I] in
theorem needed_moved (r : T) : w'.state r ≠ .default ↔ Needed mk r := by
  rcases h.states hm r with hsame | ⟨hneed, -, hnew⟩
  · rw [hsame]
    exact h.needed r
  · rcases hnew with hnew | hnew <;> simp [hnew, hneed]

omit [DecidableEq I] in
theorem running_moved (r : T) : w'.state r ≠ .failed ∧ w'.state r ≠ .ignored := by
  rcases h.states hm r with hsame | ⟨-, -, hnew⟩
  · rw [hsame]
    exact h.running r
  · rcases hnew with hnew | hnew <;> simp [hnew]

omit [DecidableEq I] in
theorem ready_moved (hr : Ready mk s.world.state r) : Ready mk w'.state r :=
  hr.mono fun _ hdep => hm.succeeded (h.sound i) hdep

omit [DecidableEq I] in
/-- Once all goals are counted the count does not change. -/
theorem stop_moved (hstop : s.world.goalCount = s.world.goalTotal) :
    w'.goalCount = w'.goalTotal := by
  have hnone := h.not_uncounted hstop (i := i)
  generalize s.point i = p at hm hnone
  cases hm with
  | @count r =>
    have hr : r ∉ s.world.validGoals := fun hr => hnone ((h.goals r).mp hr)
    rwa [if_neg hr]
  | _ => exact hstop

theorem sound_moved (hg : TestGuard s i) (j : I) :
    ((s.moved i p' w').point j).Sound mk w' (s.moved i p' w').executed := by
  by_cases hji : j = i
  · subst hji
    have hi := hm.sound (h.sound j) h.queued h.stop fun hp hne => (h.tested hg hp hne).1
    simpa [Workers.moved] using hi
  · have hkept : ∀ r, (s.point j).Has r → w'.state r = s.world.state r := by
      intro r hr
      rcases h.states hm r with hsame | ⟨-, hi, -⟩
      · exact hsame
      · exact absurd (h.alone hr hi) hji
    have hj : (s.point j).Sound mk w' (s.moved i p' w').executed :=
      (h.sound j).mono (fun r hr => hm.succeeded (h.sound i) hr) hkept
        (List.subset_append_right _ _) (h.stop_moved hm)
    simpa [Workers.moved, hji] using hj

theorem alone_moved (hg : TestGuard s i) {j k : I} (hj : ((s.moved i p' w').point j).Has r)
    (hk : ((s.moved i p' w').point k).Has r) : j = k := by
  have hold : ∀ {j}, ((s.moved i p' w').point j).Has r →
      (s.point j).Has r ∨ (j = i ∧ ∀ k, ¬ (s.point k).Has r) := by
    intro j hj
    by_cases hji : j = i
    · subst hji
      have hp : p'.Has r := by simpa [Workers.moved] using hj
      rcases hm.state with ⟨-, hhas, -⟩ | ⟨x, hset, rfl, -⟩ | ⟨x, -, rfl, -⟩
      · rcases hhas r hp with hpast | ⟨htest, hne⟩
        · exact .inl hpast
        · exact .inr ⟨rfl, (h.tested hg htest hne).2⟩
      · rw [hset]
        exact .inl hp
      · exact hp.elim
    · exact .inl (by simpa [Workers.moved, hji] using hj)
  rcases hold hj with hj' | ⟨rfl, hnobody⟩
  · rcases hold hk with hk' | ⟨-, hnobody⟩
    · exact h.alone hj' hk'
    · exact absurd hj' (hnobody j)
  · rcases hold hk with hk' | ⟨rfl, -⟩
    · exact absurd hk' (hnobody k)
    · rfl

theorem held_moved (hr : w'.state r = .processing) : ∃ j, ((s.moved i p' w').point j).Has r := by
  have hkeep : s.world.state r = .processing → ((s.point i).Has r → p'.Has r) →
      ∃ j, ((s.moved i p' w').point j).Has r := by
    intro hold hi
    obtain ⟨j, hj⟩ := h.held hold
    refine ⟨j, ?_⟩
    by_cases hji : j = i
    · subst hji
      simpa [Workers.moved] using hi hj
    · simpa [Workers.moved, hji] using hj
  rcases hm.state with ⟨hstate, -, hhas⟩ | ⟨x, hp, rfl, rfl⟩ | ⟨x, hp, rfl, rfl⟩
  · exact hkeep (by rwa [hstate] at hr) (hhas r)
  · by_cases hrx : r = x
    · exact ⟨i, by simp [Workers.moved, Point.Has, hrx]⟩
    · refine hkeep (by rwa [setState_of_ne hrx] at hr) fun hi => ?_
      rw [hp] at hi
      exact absurd hi (Ne.symm hrx)
  · by_cases hrx : r = x
    · rw [hrx, setState_self] at hr
      simp at hr
    · refine hkeep (by rwa [setState_of_ne hrx] at hr) fun hi => ?_
      rw [hp] at hi
      exact absurd hi (Ne.symm hrx)

theorem done_moved (hr : w'.state r = .succeeded) :
    r ∈ (s.moved i p' w').executed ∧ Ready mk w'.state r := by
  have hsound := h.sound i
  by_cases hold : s.world.state r = .succeeded
  · obtain ⟨hmem, hready⟩ := h.done hold
    exact ⟨List.mem_append_right _ hmem, h.ready_moved hm hready⟩
  · rcases hm.state with ⟨hstate, -, -⟩ | ⟨x, -, -, rfl⟩ | ⟨x, hp, -, rfl⟩
    · exact absurd (hstate ▸ hr) hold
    · by_cases hrx : r = x
      · rw [hrx, setState_self] at hr
        simp at hr
      · exact absurd (setState_of_ne hrx ▸ hr) hold
    · by_cases hrx : r = x
      · subst hrx
        rw [hp] at hsound
        exact ⟨List.mem_append_right _ hsound.2, h.ready_moved hm hsound.1.ready⟩
      · exact absurd (setState_of_ne hrx ▸ hr) hold

/-! ### The queue -/

omit [DecidableEq I] in
theorem queued_moved (hr : some r ∈ w'.tasks) : Needed mk r ∧ Ready mk w'.state r := by
  have hsound := h.sound i
  rcases hm.tasks hr with hold | ⟨x, anti, antis, hp, hanti⟩ | ⟨hnone, -⟩
  · obtain ⟨hneed, hready⟩ := h.queued hold
    exact ⟨hneed, h.ready_moved hm hready⟩
  · obtain rfl := Option.some.inj hanti
    rw [hp] at hsound
    exact ⟨hsound.2.1, h.ready_moved hm hsound.2.2⟩
  · simp at hnone

theorem promised_moved (hr : w'.state r = .unprocessed) (hready : Ready mk w'.state r) :
    some r ∈ w'.tasks ∨ ∃ j, ((s.moved i p' w').point j).Promises mk r := by
  have hi : p'.Promises mk r → ∃ j, ((s.moved i p' w').point j).Promises mk r :=
    fun hp => ⟨i, by simpa [Workers.moved] using hp⟩
  have hneed : Needed mk r := (h.needed_moved hm r).mp (by simp [hr])
  have hold : s.world.state r = .unprocessed := by
    rcases h.states hm r with hsame | ⟨-, -, hnew⟩
    · rwa [← hsame]
    · rcases hnew with hnew | hnew <;> simp [hr] at hnew
  by_cases hpast : Ready mk s.world.state r
  · rcases h.promised hold hpast with htask | ⟨j, hj⟩
    · rcases hm.queued htask with hmem | ⟨x, hx, rfl⟩ | ⟨hnone, -⟩
      · exact .inl hmem
      · exact .inr (hi (Option.some.inj hx).symm)
      · simp at hnone
    · by_cases hji : j = i
      · subst hji
        exact (hm.promises (h.sound j) hneed hr hpast hj).imp_right hi
      · exact .inr ⟨j, by simpa [Workers.moved, hji] using hj⟩
  · -- The last dependency of the rule has just succeeded.
    obtain ⟨dep, hdep, hmissing⟩ : ∃ dep ∈ mk.graph.neighbors r,
        s.world.state dep ≠ .succeeded := by simpa [Ready] using hpast
    have hnow := hready dep hdep
    rcases hm.state with ⟨hstate, -, -⟩ | ⟨x, -, -, rfl⟩ | ⟨x, -, rfl, rfl⟩
    · exact absurd (hstate ▸ hnow) hmissing
    · by_cases hx : dep = x
      · rw [hx, setState_self] at hnow
        simp at hnow
      · exact absurd (setState_of_ne hx ▸ hnow) hmissing
    · by_cases hx : dep = x
      · subst hx
        exact .inr (hi ((FinDigraph.mem_antineighbors _).mpr
          ((FinDigraph.mem_neighbors _).mp hdep)))
      · exact absurd (setState_of_ne hx ▸ hnow) hmissing

/-! ### The executed rules -/

omit hm in
theorem executed_moved (hr : r ∈ (s.moved i p' w').executed) : Needed mk r := by
  have hsound := h.sound i
  rcases List.mem_append.mp hr with hnew | hold
  · rw [mem_executes hnew] at hsound
    exact hsound.needed
  · exact h.executed hold

omit hm in
theorem ordered_moved : DependenciesFirst mk (s.moved i p' w').executed.reverse := by
  have hsound := h.sound i
  by_cases hp : ∃ r, s.point i = .callExecute r
  · obtain ⟨r, hp⟩ := hp
    rw [hp] at hsound
    have hlist : (s.moved i p' w').executed.reverse = s.executed.reverse ++ [r] := by
      simp [Workers.moved, Point.executes, hp]
    rw [hlist]
    exact h.ordered.concat fun dep hdep => List.mem_reverse.mpr (h.done (hsound.ready dep hdep)).1
  · have hnone : (s.point i).executes = [] := by
      by_contra hne
      obtain ⟨r, hr⟩ := List.exists_mem_of_ne_nil _ hne
      exact hp ⟨r, mem_executes hr⟩
    simpa [Workers.moved, hnone] using h.ordered

theorem files_moved {files : F} (hfiles : NoTargetFiles mk env files) {t : T}
    (ht : t ∈ mk.graph.vertices) (hnew : t ∉ (s.moved i p' w').executed) :
    env.mtime w'.files t = none := by
  have hsound := h.sound i
  have hold := h.files t ht fun hmem => hnew (List.mem_append_right _ hmem)
  have hother : ∀ x, x ∈ s.executed → t ≠ x := by
    rintro x hx rfl
    exact hnew (List.mem_append_right _ hx)
  clear hnew
  generalize s.point i = p at hm hsound
  cases hm with
  | @command x c commands =>
    exact hfiles.kept x hsound.1.needed.mem c (hsound.2.2 List.mem_cons_self) _ t ht
      (hother x hsound.2.1) hold
  | count => split_ifs <;> exact hold
  | _ => exact hold

/-! ### The count of goals -/

theorem count_moved :
    w'.goalCount + (Finset.univ.filter fun j => ((s.moved i p' w').point j).Uncounted mk).card =
      (goalsMade mk w'.state).card := by
  have hpoints := card_filter_update (Finset.mem_univ i)
    (fun _ (p : Point T C) => p.Uncounted mk) s.point p'
  have hcounts := hm.counts (h.sound i) h.goals
  have hold := h.count
  change w'.goalCount + (Finset.univ.filter fun j =>
    (Function.update s.point i p' j).Uncounted mk).card = _
  omega

omit [DecidableEq I] in
theorem stopNull_moved (hnone : none ∈ w'.tasks) : w'.goalCount = w'.goalTotal := by
  have hsound := h.sound i
  rcases hm.tasks hnone with hold | ⟨_, _, _, -, hanti⟩ | ⟨-, hp⟩
  · exact h.stop_moved hm (h.stop hold)
  · simp at hanti
  · apply h.stop_moved hm
    rcases hp with hp | hp
    all_goals
      rw [hp] at hsound
      exact hsound

theorem stopping_moved (hstop : w'.goalCount = w'.goalTotal) :
    none ∈ w'.tasks ∨ ∃ j, ((s.moved i p' w').point j).Stops := by
  have hi : p'.Stops → ∃ j, ((s.moved i p' w').point j).Stops :=
    fun hp => ⟨i, by simpa [Workers.moved] using hp⟩
  rcases hm.stopping hstop with hnone | hp | ⟨hold, hp⟩
  · exact .inl hnone
  · exact .inr (hi hp)
  · rcases h.stopping hold with hnone | ⟨j, hj⟩
    · rcases hm.queued hnone with hmem | ⟨_, hsome, -⟩ | ⟨-, rfl⟩
      · exact .inl hmem
      · simp at hsome
      · exact .inr (hi (.inr (.inr rfl)))
    · have hji : j ≠ i := by
        rintro rfl
        exact hp hj
      exact .inr ⟨j, by simpa [Workers.moved, hji] using hj⟩

end Step

theorem step {files : F} (hfiles : NoTargetFiles mk env files) (h : Shared mk env s)
    (hg : TestGuard s i) (hm : Move mk env s.world (s.point i) p' w') :
    Shared mk env (s.moved i p' w') where
  needed := h.needed_moved hm
  running := h.running_moved hm
  sound := h.sound_moved hm hg
  alone := h.alone_moved hm hg
  held := h.held_moved hm
  done := h.done_moved hm
  queued := h.queued_moved hm
  promised := h.promised_moved hm
  executed := h.executed_moved
  ordered := h.ordered_moved
  files _ ht hnew := h.files_moved hm hfiles ht hnew
  goals := by
    rw [show (s.moved i p' w').world.validGoals = s.world.validGoals from hm.kept.1]
    exact h.goals
  total := hm.kept.2.trans h.total
  count := h.count_moved hm
  stop := h.stopNull_moved hm
  stopping := h.stopping_moved hm

end Shared

omit [DecidableEq I] in
/-- The workers start with the rules that have no dependencies. -/
theorem shared_start {files : F} {w₀ : World T C F} (hac : NoGoalCycle mk)
    (hfiles : NoTargetFiles mk env files) (hload : loadRules mk files = some w₀) :
    Shared mk env (Workers.start w₀ : Workers I T C F) := by
  obtain ⟨hneeded, hother, htasks, hrest⟩ := loadRules_marks hac hload
  have hstate : ∀ r, w₀.state r = .default ∨ w₀.state r = .unprocessed := by
    intro r
    by_cases hr : Needed mk r
    exacts [.inr (hneeded r hr), .inl (hother r hr)]
  have hiff : ∀ r, w₀.state r = .unprocessed ↔ Needed mk r := by
    refine fun r => ⟨fun hr => ?_, hneeded r⟩
    by_contra hnot
    simp [hother r hnot] at hr
  have hcount : w₀.goalCount = 0 := by rw [hrest]; rfl
  have htotal : w₀.goalTotal = (mk.graph.neighbors mk.sentinel).length := by rw [hrest]; rfl
  have hgoals : w₀.validGoals = (mk.graph.neighbors mk.sentinel).reverse := by rw [hrest]
  have hmtime : w₀.files = files := by rw [hrest]; rfl
  clear hrest
  have hnull : none ∈ w₀.tasks ↔ w₀.goalCount = w₀.goalTotal := by
    rw [htasks, hcount, htotal]
    by_cases hnone : mk.graph.neighbors mk.sentinel = []
    · simp [hnone]
    · have hpos := List.length_pos_iff.mpr hnone
      simp [hnone, hpos.ne]
  have hsome : ∀ r, some r ∈ w₀.tasks ↔ Needed mk r ∧ mk.graph.neighbors r = [] := by
    intro r
    have hmem : Needed mk r → r ∈ mk.graph.vertices := Needed.mem
    rw [htasks]
    split_ifs <;> simp [hiff, and_comm] <;> tauto
  have hnothing : ∀ r, w₀.state r ≠ .succeeded := by
    intro r hr
    rcases hstate r with hold | hold <;> simp [hold] at hr
  constructor
  case needed =>
    intro r
    rw [← hiff r]
    rcases hstate r with hr | hr <;> simp [Workers.start, hr]
  case running =>
    intro r
    rcases hstate r with hr | hr <;> simp [Workers.start, hr]
  case sound => exact fun _ => trivial
  case alone => exact fun hi => hi.elim
  case held =>
    intro r hr
    rcases hstate r with hold | hold <;> simp [Workers.start, hold] at hr
  case done => exact fun {r} hr => absurd hr (hnothing r)
  case queued =>
    intro r hr
    obtain ⟨hneed, hnil⟩ := (hsome r).mp hr
    exact ⟨hneed, by simp [Ready, hnil]⟩
  case promised =>
    intro r hr hready
    refine .inl ((hsome r).mpr ⟨(hiff r).mp hr, ?_⟩)
    exact List.eq_nil_iff_forall_not_mem.mpr fun dep hdep => hnothing dep (hready dep hdep)
  case executed => simp [Workers.start]
  case ordered => simp [Workers.start, DependenciesFirst]
  case files =>
    intro t ht _
    change env.mtime w₀.files t = none
    rw [hmtime]
    exact hfiles.start t ht
  case goals =>
    intro r
    change r ∈ w₀.validGoals ↔ _
    rw [hgoals, List.mem_reverse]
  case total => exact htotal
  case count =>
    have hmade : goalsMade mk w₀.state = ∅ :=
      Finset.filter_eq_empty_iff.mpr fun goal _ => hnothing goal
    have hnobody : (Finset.univ.filter fun i =>
        ((Workers.start w₀ : Workers I T C F).point i).Uncounted mk) = ∅ :=
      Finset.filter_eq_empty_iff.mpr fun _ _ => id
    rw [hnobody]
    simp [Workers.start, hcount, hmade]
  case stop => exact hnull.mp
  case stopping => exact fun h => .inl (hnull.mpr h)

end Cs241.Parmake
