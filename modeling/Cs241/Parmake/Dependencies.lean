import Cs241.Foundation.Runs
import Cs241.Parmake.Loading

/-!
# Commands and failed dependencies

A rule reaches the queue when all its dependencies have succeeded or when one of
them has failed. The mark of the failed dependency does not keep its commands
from running, so a run is as it should be only when the failed dependency finds
a rule that has nothing to run.
-/
namespace Cs241.Parmake

open Foundation

variable {T C F : Type*} [DecidableEq T] {mk : Makefile T C} {env : Env T C F}
  {w w' : World T C F} {rule r d : T}

/-- How the rule finished last. -/
def lastFinish (rule : T) : List (Event T C) → Option RuleState
  | [] => none
  | .finished r state :: log => if r = rule then some state else lastFinish rule log
  | _ :: log => lastFinish rule log

/-- Whenever a command of a rule ran, every dependency of the rule had finished, the last time
with success. -/
def Justified (mk : Makefile T C) (log : List (Event T C)) : Prop :=
  ∀ later r c earlier, log = later ++ .ran r c :: earlier →
    ∀ dep ∈ mk.graph.neighbors r, lastFinish dep earlier = some .succeeded

/-- Another rule that `rule` depends on has failed. -/
def FailedDep (mk : Makefile T C) (state : T → RuleState) (rule : T) : Prop :=
  ∃ dep ∈ mk.graph.neighbors rule, dep ≠ rule ∧ state dep = .failed

def Ready (mk : Makefile T C) (state : T → RuleState) (rule : T) : Prop :=
  ∀ dep ∈ mk.graph.neighbors rule, state dep = .succeeded

/-- A rule with a failed dependency has nothing to run, and one that has failed is not skipped as
up to date. -/
def PullGuard (mk : Makefile T C) (env : Env T C F) (w : World T C F) (rule : T) : Prop :=
  w.state rule ≠ .processing →
    (FailedDep mk w.state rule → mk.commands rule = [] ∨ changed mk env rule w.files = false) ∧
    (w.state rule = .failed → changed mk env rule w.files = true)

/-! ## One iteration -/

omit [DecidableEq T] in
theorem runCommands_spec (env : Env T C F) (rule : T) :
    ∀ (commands : List C) (w : World T C F), ∃ failed w' cs,
      runCommands env rule commands w = (failed, w') ∧
      (failed = true ↔ ∃ c ∈ commands, env.status c ≠ 0) ∧ w'.state = w.state ∧
      w'.tasks = w.tasks ∧ w'.log = cs.map (.ran rule) ++ w.log ∧ (cs = [] ↔ commands = [])
  | [], w => ⟨false, w, [], rfl, by simp, rfl, rfl, rfl, Iff.rfl⟩
  | c :: commands, w => by
    rw [runCommands]
    split_ifs with hc
    · exact ⟨true, _, [c], rfl, by simp [hc], rfl, rfl, rfl, by simp⟩
    · obtain ⟨failed, w', cs, hrun, hfailed, hstate, htasks, hlog, -⟩ :=
        runCommands_spec env rule commands
          { w with files := env.effect c w.files, log := .ran rule c :: w.log }
      refine ⟨failed, w', cs ++ [c], hrun, ?_, hstate, htasks, ?_, by simp⟩
      · rw [hfailed]
        simp [not_not.mp hc]
      · rw [hlog]
        simp

/-- What `process` does: the rule ends as failed or succeeded, and its commands run only when it
is not up to date. -/
structure Processed (mk : Makefile T C) (env : Env T C F) (w : World T C F) (rule : T)
    (w' : World T C F) (state : RuleState) (cs : List C) : Prop where
  state_eq : w'.state = Function.update w.state rule state
  tasks : w'.tasks = w.tasks
  log : w'.log = .finished rule state :: cs.map (.ran rule) ++ w.log
  ran : cs ≠ [] ↔ mk.commands rule ≠ [] ∧ changed mk env rule w.files = true
  skipped : changed mk env rule w.files = false → state = .succeeded
  changed : changed mk env rule w.files = true →
    state = .failed ∧ (FailedDep mk w.state rule ∨ ∃ c ∈ mk.commands rule, env.status c ≠ 0) ∨
    state = .succeeded ∧ ¬ FailedDep mk w.state rule ∧ ∀ c ∈ mk.commands rule, env.status c = 0

/-- The rule is marked before its dependencies are checked, so it never counts as its own failed
dependency. -/
theorem checkFailedDependencies_spec (mk : Makefile T C) (w : World T C F) (rule : T) :
    ∃ mark, checkFailedDependencies mk rule (w.setState rule .processing) = w.setState rule mark ∧
      (mark = .failed ∧ FailedDep mk w.state rule ∨
        mark = .processing ∧ ¬ FailedDep mk w.state rule) := by
  have hiff : (∃ dep ∈ mk.graph.neighbors rule, (w.setState rule .processing).state dep = .failed) ↔
      FailedDep mk w.state rule := by
    refine exists_congr fun dep => and_congr_right fun _ => ?_
    by_cases hdep : dep = rule
    · simp [World.setState, hdep]
    · simp [World.setState, hdep]
  unfold checkFailedDependencies
  split_ifs with h
  · exact ⟨.failed, by simp [World.setState], .inl ⟨rfl, hiff.mp h⟩⟩
  · exact ⟨.processing, rfl, .inr ⟨rfl, mt hiff.mpr h⟩⟩

theorem execute_spec (mk : Makefile T C) (env : Env T C F) (w : World T C F) (rule : T)
    (hrule : w.state rule = .failed ∨ w.state rule = .processing) :
    ∃ state cs, (execute mk env rule w).state = Function.update w.state rule state ∧
      (execute mk env rule w).tasks = w.tasks ∧
      (execute mk env rule w).log = cs.map (.ran rule) ++ w.log ∧
      (cs = [] ↔ mk.commands rule = []) ∧
      (state = .failed ∧ (w.state rule = .failed ∨ ∃ c ∈ mk.commands rule, env.status c ≠ 0) ∨
        state = .succeeded ∧ w.state rule ≠ .failed ∧
          ∀ c ∈ mk.commands rule, env.status c = 0) := by
  obtain ⟨failed, w', cs, hrun, hfailed, hstate, htasks, hlog, hnil⟩ :=
    runCommands_spec env rule (mk.commands rule) w
  unfold execute
  rw [hrun]
  cases failed with
  | true =>
    refine ⟨.failed, cs, ?_, ?_, ?_, hnil, .inl ⟨rfl, .inr (hfailed.mp rfl)⟩⟩
    · simp [World.setState, hstate]
    · simp [World.setState, htasks]
    · simp [World.setState, hlog]
  | false =>
    have hzero : ∀ c ∈ mk.commands rule, env.status c = 0 := by
      intro c hc
      by_contra hne
      exact absurd (hfailed.mpr ⟨c, hc, hne⟩) (by simp)
    rcases hrule with hf | hp
    · have hself : Function.update w.state rule .failed = w.state :=
        hf ▸ Function.update_eq_self rule w.state
      refine ⟨.failed, cs, ?_, ?_, ?_, hnil, .inl ⟨rfl, .inl hf⟩⟩
      · simp [hstate, hf, hself]
      · simp [hstate, hf, htasks]
      · simp [hstate, hf, hlog]
    · refine ⟨.succeeded, cs, ?_, ?_, ?_, hnil, .inr ⟨rfl, by simp [hp], hzero⟩⟩
      · simp [hstate, hp, World.setState]
      · simp [hstate, hp, World.setState, htasks]
      · simp [hstate, hp, World.setState, hlog]

theorem process_spec (mk : Makefile T C) (env : Env T C F) (w : World T C F) (rule : T) :
    ∃ state cs, Processed mk env w rule (process mk env rule w) state cs := by
  obtain ⟨mark, hmark, hcase⟩ := checkFailedDependencies_spec mk w rule
  unfold process
  rw [hmark]
  dsimp only
  split_ifs with hch
  · have hrule : (w.setState rule mark).state rule = .failed ∨
        (w.setState rule mark).state rule = .processing := by
      rcases hcase with ⟨rfl, -⟩ | ⟨rfl, -⟩
      · simp [World.setState]
      · simp [World.setState]
    obtain ⟨state, cs, hstate, htasks, hlog, hnil, hend⟩ :=
      execute_spec mk env (w.setState rule mark) rule hrule
    have hupdate : Function.update (w.setState rule mark).state rule state =
        Function.update w.state rule state := by simp [World.setState]
    rw [hupdate] at hstate
    refine ⟨state, cs, hstate, htasks, ?_, ?_, ?_, fun _ => ?_⟩
    · rw [hlog, hstate, Function.update_self]
      rfl
    · exact (not_congr hnil).trans ⟨fun hne => ⟨hne, hch⟩, And.left⟩
    · exact fun hno => absurd (hch.symm.trans hno) (by simp)
    · rcases hcase with ⟨rfl, hdep⟩ | ⟨rfl, hdep⟩
      · rcases hend with ⟨hs, -⟩ | ⟨-, hne, -⟩
        · exact .inl ⟨hs, .inl hdep⟩
        · simp [World.setState] at hne
      · rcases hend with ⟨hs, hwhy⟩ | ⟨hs, -, hzero⟩
        · exact .inl ⟨hs, .inr (hwhy.resolve_left (by simp [World.setState]))⟩
        · exact .inr ⟨hs, hdep, hzero⟩
  · refine ⟨.succeeded, [], ?_, rfl, ?_, ?_, fun _ => rfl, fun hyes => absurd hyes hch⟩
    · simp [World.setState]
    · simp [World.setState]
    · exact ⟨fun hne => absurd rfl hne, fun hran => absurd hran.2 hch⟩

@[simp] theorem countGoal_state (w : World T C F) : (countGoal rule w).state = w.state := by
  unfold countGoal
  dsimp only
  split_ifs <;> rfl

@[simp] theorem countGoal_log (w : World T C F) : (countGoal rule w).log = w.log := by
  unfold countGoal
  dsimp only
  split_ifs <;> rfl

theorem mem_countGoal_tasks (w : World T C F) :
    some r ∈ (countGoal rule w).tasks ↔ some r ∈ w.tasks := by
  unfold countGoal
  dsimp only
  split_ifs <;> simp [World.push]

@[simp] theorem pushAntineighbors_state (w : World T C F) :
    (pushAntineighbors mk rule w).state = w.state := by
  unfold pushAntineighbors
  split_ifs <;> rfl

@[simp] theorem pushAntineighbors_log (w : World T C F) :
    (pushAntineighbors mk rule w).log = w.log := by
  unfold pushAntineighbors
  split_ifs <;> rfl

/-- A rule is pushed because one of its dependencies failed, or because all have succeeded. -/
theorem mem_pushAntineighbors_tasks {w : World T C F}
    (h : some r ∈ (pushAntineighbors mk rule w).tasks) : some r ∈ w.tasks ∨
      (w.state rule = .failed ∧ rule ∈ mk.graph.neighbors r) ∨ Ready mk w.state r := by
  unfold pushAntineighbors at h
  split_ifs at h with hf hs
  · rcases List.mem_append.mp h with h | h
    · exact .inl h
    · exact .inr (.inl ⟨hf, by simpa using h⟩)
  · rcases List.mem_append.mp h with h | h
    · exact .inl h
    · obtain ⟨x, hx, hxr⟩ := List.mem_map.mp h
      obtain rfl := Option.some.inj hxr
      simp only [List.mem_filter, decide_eq_true_eq] at hx
      exact .inr (.inr hx.2.2)
  · exact .inl h

/-! ## When one rule gets a new state -/

section Update

variable {s : T → RuleState} {x : T} {state : RuleState}

/-- A failed dependency stays one. -/
theorem FailedDep.update (h : FailedDep mk s x) (hkeep : s rule = .failed → state = .failed) :
    FailedDep mk (Function.update s rule state) x := by
  obtain ⟨dep, hdep, hne, hf⟩ := h
  refine ⟨dep, hdep, hne, ?_⟩
  by_cases hdr : dep = rule
  · subst hdr
    simpa using hkeep hf
  · simpa [hdr] using hf

/-- A rule stays ready unless the new state is the failure of one of its dependencies. -/
theorem Ready.update (h : Ready mk s x) (hend : state = .failed ∨ state = .succeeded) :
    (state = .failed ∧ rule ∈ mk.graph.neighbors x) ∨
      Ready mk (Function.update s rule state) x := by
  by_cases hs : state = .failed ∧ rule ∈ mk.graph.neighbors x
  · exact .inl hs
  · right
    intro dep hdep
    by_cases hdr : dep = rule
    · subst hdr
      simpa using hend.resolve_left fun hf => hs ⟨hf, hdep⟩
    · simpa [hdr] using h dep hdep

end Update

/-! ## Runs -/

/-- What holds between two iterations. -/
structure Inv (mk : Makefile T C) (env : Env T C F) (w : World T C F) : Prop where
  queued : ∀ {r}, some r ∈ w.tasks → FailedDep mk w.state r ∨ Ready mk w.state r
  failed : ∀ {r}, w.state r = .failed →
    FailedDep mk w.state r ∨ ∃ c ∈ mk.commands r, env.status c ≠ 0
  own : ∀ {r}, r ∈ mk.graph.neighbors r → w.state r = .failed ∨ w.state r = .succeeded →
    FailedDep mk w.state r
  logged : ∀ {d}, w.state d = .failed ∨ w.state d = .succeeded →
    lastFinish d w.log = some (w.state d)
  justified : Justified mk w.log

theorem lastFinish_ran (d : T) (cs : List C) (log : List (Event T C)) :
    lastFinish d (cs.map (.ran rule) ++ log) = lastFinish d log := by
  induction cs with
  | nil => rfl
  | cons c cs ih => exact ih

/-- Commands of a rule that run when all its dependencies have succeeded are justified. -/
theorem Justified.append {log : List (Event T C)} (h : Justified mk log) (cs : List C)
    (hdeps : cs ≠ [] → ∀ dep ∈ mk.graph.neighbors rule, lastFinish dep log = some .succeeded) :
    Justified mk (cs.map (.ran rule) ++ log) := by
  induction cs with
  | nil => exact h
  | cons c cs ih =>
    intro later r c' earlier heq dep hdep
    cases later with
    | nil =>
      obtain ⟨hev, htail⟩ := List.cons.inj heq
      obtain ⟨rfl, -⟩ := Event.ran.inj hev
      rw [← htail]
      exact (lastFinish_ran dep cs log).trans (hdeps (by simp) dep hdep)
    | cons e later =>
      have hrest := ih fun _ => hdeps (by simp)
      exact hrest later r c' earlier (List.cons.inj heq).2 dep hdep

theorem Justified.finished {log : List (Event T C)} (h : Justified mk log) (state : RuleState) :
    Justified mk (.finished rule state :: log) := by
  intro later r c earlier heq dep hdep
  cases later with
  | nil => simp at heq
  | cons e later => exact h later r c earlier (List.cons.inj heq).2 dep hdep

/-- One iteration under the guard. Failed rules stay failed, so that what once was a reason to
queue a rule remains one. -/
theorem Inv.ropeBody (hi : Inv mk env w) {rest : List (Option T)}
    (htasks : w.tasks = some rule :: rest) (hg : PullGuard mk env w rule) :
    Inv mk env (ropeBody mk env rule { w with tasks := rest }) := by
  have hsub : ∀ {r}, some r ∈ rest → some r ∈ w.tasks := fun hr =>
    htasks ▸ List.mem_cons_of_mem _ hr
  unfold Parmake.ropeBody
  split_ifs with hproc
  · exact { hi with queued := fun hr => hi.queued (hsub hr) }
  obtain ⟨hnothing, hstays⟩ := hg hproc
  obtain ⟨state, cs, hp⟩ := process_spec mk env { w with tasks := rest } rule
  have hqueued := hi.queued (r := rule) (htasks ▸ List.mem_cons_self)
  have hown : rule ∈ mk.graph.neighbors rule → FailedDep mk w.state rule := fun hself =>
    hqueued.elim id fun hready => hi.own hself (.inr (hready rule hself))
  have hend : state = .failed ∨ state = .succeeded := by
    cases hch : changed mk env rule w.files with
    | true => exact (hp.changed hch).imp And.left And.left
    | false => exact .inr (hp.skipped hch)
  have hcause : state = .failed →
      FailedDep mk w.state rule ∨ ∃ c ∈ mk.commands rule, env.status c ≠ 0 := by
    rintro rfl
    cases hch : changed mk env rule w.files with
    | true => exact (hp.changed hch).elim And.right fun h => absurd h.1 (by simp)
    | false => exact absurd (hp.skipped hch) (by simp)
  have hkeep : w.state rule = .failed → state = .failed := by
    intro hf
    rcases hp.changed (hstays hf) with ⟨hs, -⟩ | ⟨-, hdep, hzero⟩
    · exact hs
    · rcases hi.failed hf with hd | ⟨c, hc, hne⟩
      exacts [absurd hd hdep, absurd (hzero c hc) hne]
  have hmono : ∀ {x}, FailedDep mk w.state x →
      FailedDep mk (Function.update w.state rule state) x := fun hx => hx.update hkeep
  have hblame : ∀ {x}, state = .failed → rule ∈ mk.graph.neighbors x →
      FailedDep mk (Function.update w.state rule state) x := by
    intro x hs hx
    by_cases hxr : rule = x
    · exact hxr ▸ hmono (hown (by rwa [hxr] at hx ⊢))
    · exact ⟨rule, hx, hxr, by simpa using hs⟩
  have hready : ∀ {x}, Ready mk w.state x →
      FailedDep mk (Function.update w.state rule state) x ∨
        Ready mk (Function.update w.state rule state) x := fun hx =>
    (hx.update hend).imp_left fun hs => hblame hs.1 hs.2
  refine ⟨?_, ?_, ?_, ?_, ?_⟩
  all_goals simp only [countGoal_state, pushAntineighbors_state, countGoal_log,
    pushAntineighbors_log, mem_countGoal_tasks, hp.state_eq, hp.log]
  · intro x hx
    rcases mem_pushAntineighbors_tasks hx with hx | ⟨hf, hx⟩ | hx
    · rw [hp.tasks] at hx
      exact (hi.queued (hsub hx)).elim (.inl ∘ hmono) hready
    · rw [hp.state_eq, Function.update_self] at hf
      exact .inl (hblame hf hx)
    · rw [hp.state_eq] at hx
      exact .inr hx
  · intro x hx
    by_cases hxr : x = rule
    · subst hxr
      exact (hcause (by simpa using hx)).imp_left hmono
    · exact (hi.failed (by simpa [hxr] using hx)).imp_left hmono
  · intro x hself hx
    by_cases hxr : x = rule
    · subst hxr
      exact hmono (hown hself)
    · exact hmono (hi.own hself (by simpa [hxr] using hx))
  · intro x hx
    by_cases hxr : x = rule
    · subst hxr
      simp [lastFinish]
    · have hold := hi.logged (d := x) (by simpa [hxr] using hx)
      simpa [lastFinish, hxr, Ne.symm hxr, lastFinish_ran] using hold
  · refine Justified.finished (hi.justified.append cs fun hcs dep hdep => ?_) state
    obtain ⟨hcmd, hch⟩ := hp.ran.mp hcs
    have hno : ¬ FailedDep mk w.state rule := by
      intro hdep
      rcases hnothing hdep with hnil | hskip
      exacts [hcmd hnil, absurd (hch.symm.trans hskip) (by simp)]
    have hdone := hqueued.resolve_left hno dep hdep
    exact hdone ▸ hi.logged (.inr hdone)

/-- The first part of the guard is needed: where it fails, commands run after a dependency has
failed. -/
theorem Inv.ropeBody_not_justified (hi : Inv mk env w) (hproc : w.state rule ≠ .processing)
    (hdep : FailedDep mk w.state rule) (hcmd : mk.commands rule ≠ [])
    (hch : changed mk env rule w.files = true) :
    ¬ Justified mk (Parmake.ropeBody mk env rule w).log := by
  obtain ⟨state, cs, hp⟩ := process_spec mk env w rule
  obtain ⟨dep, hmem, -, hf⟩ := hdep
  have hcs := hp.ran.mpr ⟨hcmd, hch⟩
  rw [Parmake.ropeBody, if_neg hproc, countGoal_log, pushAntineighbors_log, hp.log]
  intro hjust
  have hsplit : .finished rule state :: cs.map (.ran rule) ++ w.log =
      .finished rule state :: cs.dropLast.map (.ran rule) ++
        .ran rule (cs.getLast hcs) :: w.log := by
    conv_lhs => rw [← List.dropLast_append_getLast hcs]
    simp
  have hlast := hjust _ _ _ _ hsplit dep hmem
  rw [hi.logged (.inl hf), hf] at hlast
  exact absurd hlast (by simp)

theorem inv_loadRules {files : F} (h : loadRules mk files = some w) : Inv mk env w := by
  obtain ⟨hfresh, htasks, hlog⟩ := loadRules_spec h
  refine ⟨fun hr => .inr ?_, fun {r} hr => ?_, fun {r} _ hr => ?_, fun {r} hr => ?_, ?_⟩
  · intro dep hdep
    simp [(htasks _ hr).1] at hdep
  · have := hfresh r
    simp [hr] at this
  · have := hfresh r
    rcases hr with hr | hr <;> simp [hr] at this
  · have := hfresh r
    rcases hr with hr | hr <;> simp [hr] at this
  · intro later r c earlier heq
    obtain ⟨goal, hgoal⟩ := hlog (.ran r c) (heq ▸ by simp)
    simp at hgoal

/-- In a run in which every failed dependency meets the guard, no command of a rule runs before
all dependencies of the rule have finished with success. -/
theorem run_justified {files : F} {w₀ : World T C F} {rules : List T}
    (hload : loadRules mk files = some w₀)
    (hr : Run (Guarded (Step mk env) (PullGuard mk env)) w₀ rules w) : Justified mk w.log := by
  have hi : Inv mk env w := by
    refine hr.invariant (inv_loadRules hload) fun {t rule u} hi hs => ?_
    obtain ⟨hg, hstep⟩ := hs
    cases hstep with
    | pull htasks => exact hi.ropeBody htasks hg
  exact hi.justified

/-! ## Two makefiles -/

instance (state : T → RuleState) (rule : T) : Decidable (FailedDep mk state rule) :=
  inferInstanceAs (Decidable (∃ dep ∈ mk.graph.neighbors rule, dep ≠ rule ∧ state dep = .failed))

instance [DecidableEq C] (rule : T) : Decidable (PullGuard mk env w rule) :=
  inferInstanceAs (Decidable (_ → _ ∧ _))

/-- Rule 1, the goal, depends on the rules 2 and 3, each with the command of its number. -/
def twoDeps : Makefile ℕ ℕ where
  graph :=
    { vertices := [0, 1, 2, 3], edges := [(0, 1), (1, 2), (1, 3)], nodup := by decide,
      closed := by decide }
  nodup := by decide
  commands := fun rule => if rule = 0 then [] else [rule]
  sentinel := 0
  sentinel_mem := by decide
  sentinel_commands := by decide

/-- Files are never touched; every command succeeds but `bad`. -/
def failing (bad : ℕ) : Env ℕ ℕ Unit where
  status := fun c => if c = bad then 1 else 0
  effect := fun _ files => files
  mtime := fun _ _ => none

/-- The world after the rules are loaded. -/
def loaded : World ℕ ℕ Unit := (loadRules twoDeps ()).get (loadRules_returns _ _)

/-- The worker pulls the next task, whatever it is. -/
def pulled (env : Env ℕ ℕ Unit) (rule : ℕ) (w : World ℕ ℕ Unit) : World ℕ ℕ Unit :=
  ropeBody twoDeps env rule { w with tasks := w.tasks.tail }

theorem step_pulled {env : Env ℕ ℕ Unit} {w : World ℕ ℕ Unit} {rule : ℕ}
    (h : w.tasks.head? = some (some rule)) : Step twoDeps env w rule (pulled env rule w) :=
  .pull (List.eq_cons_of_mem_head? h)

theorem run_justified_twoDeps :
    ∃ w : World ℕ ℕ Unit, .ran 1 1 ∈ w.log ∧ Justified twoDeps w.log := by
  let env := failing 4
  have hr : Run (Guarded (Step twoDeps env) (PullGuard twoDeps env)) loaded [2, 3, 1]
      (pulled env 1 (pulled env 3 (pulled env 2 loaded))) :=
    .head ⟨by decide +kernel, step_pulled (by decide +kernel)⟩ <|
      .head ⟨by decide +kernel, step_pulled (by decide +kernel)⟩ <|
        .single ⟨by decide +kernel, step_pulled (by decide +kernel)⟩
  exact ⟨_, by decide +kernel, run_justified (Option.some_get _).symm hr⟩

/-- No goal reaches a cycle. -/
def NoGoalCycle (mk : Makefile T C) : Prop :=
  ∀ goal ∈ mk.graph.neighbors mk.sentinel, ∀ v, Relation.ReflTransGen mk.graph.Adj goal v →
    ¬ Relation.TransGen mk.graph.Adj v v

theorem noGoalCycle_twoDeps : NoGoalCycle twoDeps := by
  have hrank : ∀ {a b}, Relation.TransGen twoDeps.graph.Adj a b → a < b := by
    have hedge : ∀ e ∈ twoDeps.graph.edges, e.1 < e.2 := by decide
    intro a b h
    induction h with
    | single h => exact hedge _ h
    | tail _ h ih => exact ih.trans (hedge _ h)
  exact fun _ _ v _ hv => lt_irrefl v (hrank hv)

/-- Rule 2 fails. Rule 1 runs its command all the same. -/
theorem run_not_justified :
    ¬ ∀ (mk : Makefile ℕ ℕ) (env : Env ℕ ℕ Unit) (w₀ w : World ℕ ℕ Unit) (rules : List ℕ),
      NoGoalCycle mk → loadRules mk () = some w₀ → Run (Step mk env) w₀ rules w →
        Justified mk w.log := by
  intro hall
  let env := failing 2
  have hr : Run (Step twoDeps env) loaded [2, 3, 1]
      (pulled env 1 (pulled env 3 (pulled env 2 loaded))) :=
    .head (step_pulled (by decide +kernel)) <| .head (step_pulled (by decide +kernel)) <|
      .single (step_pulled (by decide +kernel))
  have hjust := hall _ _ _ _ _ noGoalCycle_twoDeps (Option.some_get _).symm hr
  have hlog : (pulled env 1 (pulled env 3 (pulled env 2 loaded))).log =
      [.finished 1 .failed] ++ .ran 1 1 :: [.finished 3 .succeeded, .ran 3 3, .finished 2 .failed,
        .ran 2 2] := by decide +kernel
  exact absurd (hjust _ _ _ _ hlog 2 (by decide)) (by decide)

end Cs241.Parmake
