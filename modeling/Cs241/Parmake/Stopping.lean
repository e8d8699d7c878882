import Mathlib.Data.List.ReduceOption
import Cs241.Parmake.Completion

/-!
# When one worker stops

The message to stop is pushed when the count of goals is equal to their number.
A goal is counted when it is finished; a rule that is skipped as up to date is
counted as well, be it a goal or not. So a run of one worker, in which nothing
fails, stops in time if and only if no rule is skipped.
-/
namespace Cs241.Parmake

open Foundation

variable {T C F : Type*} [DecidableEq T] {mk : Makefile T C} {env : Env T C F}
  {w w' w₀ : World T C F} {rule r : T} {done : List T} {files : F} {skipped : ℕ}

/-- The worker finishes every goal before it pushes the message to stop, and returns. -/
structure StopsInTime (mk : Makefile T C) (env : Env T C F) (files : F) : Prop where
  ends : ∃ fuel, (parmake mk env fuel files).isSome
  inTime : ∀ w₀ rules w, loadRules mk files = some w₀ → Run (Step mk env) w₀ rules w →
    none ∈ w.tasks → ∀ goal ∈ mk.graph.neighbors mk.sentinel, ∃ state, .finished goal state ∈ w.log

/-- A worker that is about to pull a rule finds one that is not up to date. -/
def NeverSkips (mk : Makefile T C) (env : Env T C F) (files : F) : Prop :=
  ∀ w₀ rules w rule rest, loadRules mk files = some w₀ → Run (Step mk env) w₀ rules w →
    w.tasks = some rule :: rest → changed mk env rule w.files = true

/-! ## One rule -/

/-- A rule that is not executed is counted. -/
theorem process_counts (hfailed : ∀ r, w.state r ≠ .failed)
    (hstatus : ∀ c ∈ mk.commands rule, env.status c = 0) :
    ∃ (files : F) (cs : List C), process mk env rule w = { w with
      state := Function.update w.state rule .succeeded
      files := files
      goalCount := w.goalCount + (if changed mk env rule w.files then 0 else 1)
      log := .finished rule .succeeded :: cs.map (.ran rule) ++ w.log } := by
  by_cases hchanged : changed mk env rule w.files = true
  · rw [process_succeeds hfailed hchanged hstatus, if_pos hchanged]
    refine ⟨(mk.commands rule).foldl (fun files c => env.effect c files) w.files,
      (mk.commands rule).reverse, ?_⟩
    simp [record]
  · refine ⟨w.files, [], ?_⟩
    obtain ⟨mark, hmark, -⟩ := checkFailedDependencies_spec mk w rule
    unfold process
    rw [hmark]
    dsimp only
    rw [if_neg (show ¬ changed mk env rule (w.setState rule mark).files = true from hchanged),
      if_neg hchanged]
    simp [World.setState]

theorem ropeBody_counts (hfailed : ∀ r, w.state r ≠ .failed) (hrule : w.state rule ≠ .processing)
    (hstatus : ∀ c ∈ mk.commands rule, env.status c = 0) :
    ∃ (files : F) (cs : List C) (count : ℕ),
      count = w.goalCount + (if changed mk env rule w.files then 0 else 1) +
        (if rule ∈ w.validGoals then 1 else 0) ∧
      ropeBody mk env rule w = { w with
        state := Function.update w.state rule .succeeded
        files := files
        log := .finished rule .succeeded :: cs.map (.ran rule) ++ w.log
        tasks := w.tasks ++ ((mk.graph.antineighbors rule).filter fun anti =>
          Function.update w.state rule .succeeded anti ≠ .default ∧
            ∀ antidep ∈ mk.graph.neighbors anti,
              Function.update w.state rule .succeeded antidep = .succeeded).map some ++
          (if count = w.goalTotal then [none] else [])
        goalCount := count } := by
  obtain ⟨files, cs, hprocess⟩ := process_counts hfailed hstatus
  refine ⟨files, cs, _, rfl, ?_⟩
  rw [ropeBody, if_neg hrule, hprocess, pushAntineighbors_succeeded (Function.update_self ..),
    countGoal_eq]
  rfl

/-! ## Runs -/

omit [DecidableEq T] in
theorem reduceOption_map_some (queue : List T) : (queue.map some).reduceOption = queue := by
  induction queue with
  | nil => rfl
  | cons r queue ih => rw [List.map_cons, List.reduceOption_cons_of_some, ih]

omit [DecidableEq T] in
/-- The rules in the queue after some rules and perhaps the message to stop were pushed. -/
theorem reduceOption_pushed (tasks : List (Option T)) (queue : List T) (stop : Prop)
    [Decidable stop] : (tasks ++ queue.map some ++ if stop then [none] else []).reduceOption =
      tasks.reduceOption ++ queue := by
  rw [List.reduceOption_append, List.reduceOption_append, reduceOption_map_some]
  split_ifs <;> simp

/-- What holds between two iterations when the rules of `done` are finished and `skipped` of them
were up to date. -/
structure Tally (mk : Makefile T C) (done : List T) (skipped : ℕ) (w : World T C F) : Prop where
  course : Course mk done w
  nodup : w.tasks.reduceOption.Nodup
  queued : ∀ r, r ∈ w.tasks.reduceOption ↔ Due mk done r
  goals : ∀ r, r ∈ w.validGoals ↔ r ∈ mk.graph.neighbors mk.sentinel
  total : w.goalTotal = (mk.graph.neighbors mk.sentinel).length
  count : w.goalCount =
    ((mk.graph.neighbors mk.sentinel).filter fun goal => goal ∈ done).length + skipped
  logged : ∀ r, (∃ state, .finished r state ∈ w.log) ↔ r ∈ done

namespace Tally

variable (h : Tally mk done skipped w)
include h

theorem goalsDone_iff : (∀ goal ∈ mk.graph.neighbors mk.sentinel,
    ∃ state, .finished goal state ∈ w.log) ↔ GoalsDone mk done :=
  forall₂_congr fun goal _ => h.logged goal

/-- Rules that were skipped are in excess when the goals are finished. -/
theorem goalsDone_iff_count : GoalsDone mk done ↔ w.goalCount = w.goalTotal + skipped := by
  have hall : GoalsDone mk done ↔ ((mk.graph.neighbors mk.sentinel).filter
      fun goal => goal ∈ done).length = (mk.graph.neighbors mk.sentinel).length := by
    rw [List.length_filter_eq_length_iff]
    simp [GoalsDone]
  rw [hall, h.count, h.total]
  omega

/-- An iteration of the loop. -/
theorem step (hac : NoGoalCycle mk)
    (hstatus : ∀ r ∈ mk.graph.vertices, ∀ c ∈ mk.commands r, env.status c = 0)
    {rest : List (Option T)} (htasks : w.tasks = some rule :: rest) :
    ¬ GoalsDone mk done ∧
      Tally mk (done ++ [rule]) (skipped + if changed mk env rule w.files then 0 else 1)
        (ropeBody mk env rule { w with tasks := rest }) ∧
      (none ∈ (ropeBody mk env rule { w with tasks := rest }).tasks ↔ none ∈ w.tasks ∨
        (ropeBody mk env rule { w with tasks := rest }).goalCount =
          (ropeBody mk env rule { w with tasks := rest }).goalTotal) := by
  have hqueue : w.tasks.reduceOption = rule :: rest.reduceOption := by
    rw [htasks, List.reduceOption_cons_of_some]
  have hnodup : (rule :: rest.reduceOption).Nodup := hqueue ▸ h.nodup
  have hdue : ∀ r, r ∈ rule :: rest.reduceOption ↔ Due mk done r := hqueue ▸ h.queued
  have hrule : Due mk done rule := (hdue rule).mp List.mem_cons_self
  obtain ⟨files, cs, count, hcount, hbody⟩ := ropeBody_counts (w := { w with tasks := rest })
    h.course.not_failed (by simp [h.course.waiting hrule.1 hrule.2.1]) (hstatus rule hrule.1.mem)
  obtain ⟨hpushed, hmem⟩ := h.course.queue_concat hac hnodup hdue
  have hcourse := h.course.concat hrule (congrArg World.state hbody)
  rw [hbody] at hcourse ⊢
  refine ⟨h.course.not_goalsDone hrule, ⟨hcourse, ?_, ?_, h.goals, h.total, ?_, ?_⟩, ?_⟩
  · rw [reduceOption_pushed]
    exact hpushed
  · rw [reduceOption_pushed]
    exact hmem
  · rw [length_filter_concat (mk.graph.nodup_neighbors _) hrule.2.1, hcount, h.count]
    simp only [h.goals]
    omega
  · intro r
    rw [List.mem_append, List.mem_singleton, ← h.logged]
    constructor
    · rintro ⟨state, hr⟩
      simp only [List.cons_append, List.mem_cons, List.mem_append, List.mem_map] at hr
      rcases hr with heq | ⟨c, -, heq⟩ | hr
      · exact .inr (Event.finished.inj heq).1
      · simp at heq
      · exact .inl ⟨state, hr⟩
    · rintro (⟨state, hr⟩ | rfl)
      · exact ⟨state, List.mem_append_right _ hr⟩
      · exact ⟨.succeeded, List.mem_cons_self⟩
  · simp [htasks]

end Tally

theorem tally_loadRules (hac : NoGoalCycle mk) (h : loadRules mk files = some w) :
    Tally mk [] 0 w ∧ (none ∈ w.tasks ↔ GoalsDone mk []) := by
  obtain ⟨-, -, htasks, hrest⟩ := loadRules_marks hac h
  have hcourse := course_loadRules hac h
  have hqueue : w.tasks.reduceOption = mk.graph.vertices.filter fun target =>
      (mk.graph.neighbors target).isEmpty ∧ w.state target = .unprocessed := by
    rw [htasks, List.reduceOption_append, reduceOption_map_some]
    split_ifs <;> simp
  constructor
  · refine ⟨hcourse, ?_, ?_, ?_, ?_, ?_, ?_⟩
    · rw [hqueue]
      exact mk.nodup.filter _
    · rw [hqueue]
      exact hcourse.due_nil
    · intro r
      rw [hrest]
      exact List.mem_reverse
    · rw [hrest]
      rfl
    · rw [hrest]
      simp [World.init]
    · rw [hrest]
      simp [World.init]
  · rw [htasks]
    simp [GoalsDone, List.eq_nil_iff_forall_not_mem]

section Run

variable (hac : NoGoalCycle mk)
  (hstatus : ∀ r ∈ mk.graph.vertices, ∀ c ∈ mk.commands r, env.status c = 0)
  (hload : loadRules mk files = some w₀)
include hac hstatus hload

theorem tally_run {rules : List T} (hr : Run (Step mk env) w₀ rules w) :
    ∃ done skipped, Tally mk done skipped w := by
  refine hr.invariant (P := fun w => ∃ done skipped, Tally mk done skipped w)
    ⟨[], 0, (tally_loadRules hac hload).1⟩ fun {t rule u} ht hs => ?_
  obtain ⟨done, skipped, ht⟩ := ht
  cases hs with
  | pull htasks => exact ⟨_, _, (ht.step hac hstatus htasks).2.1⟩

/-! ## Nothing is skipped -/

omit hload in
/-- Where no rule is skipped, the message to stop comes with the last goal. -/
theorem Tally.step_executed (h : Tally mk done 0 w) (hstop : none ∈ w.tasks ↔ GoalsDone mk done)
    {rest : List (Option T)} (htasks : w.tasks = some rule :: rest)
    (hchanged : changed mk env rule w.files = true) :
    let w' := ropeBody mk env rule { w with tasks := rest }
    Tally mk (done ++ [rule]) 0 w' ∧ (none ∈ w'.tasks ↔ GoalsDone mk (done ++ [rule])) := by
  obtain ⟨hnot, htally, hnone⟩ := h.step hac hstatus htasks
  rw [if_pos hchanged] at htally
  refine ⟨htally, ?_⟩
  rw [hnone, hstop, htally.goalsDone_iff_count]
  simp [hnot]

theorem rope_returns (hskip : NeverSkips mk env files) {fuel : ℕ} {rules done : List T}
    (hr : Run (Step mk env) w₀ rules w) (h : Tally mk done 0 w)
    (hstop : none ∈ w.tasks ↔ GoalsDone mk done)
    (hfuel : mk.graph.vertices.length < fuel + done.length) : (rope mk env fuel w).isSome := by
  induction fuel generalizing rules done w with
  | zero =>
    have hle := h.course.length_le
    omega
  | succ fuel ih =>
    cases htasks : w.tasks with
    | nil =>
      have hgoals : ¬ GoalsDone mk done := fun hgoals => by simpa [htasks] using hstop.mpr hgoals
      obtain ⟨r, hr⟩ := exists_due hac hgoals
      simpa [htasks] using (h.queued r).mpr hr
    | cons task rest =>
      cases task with
      | none => simp [rope, htasks]
      | some rule =>
        have hchanged := hskip w₀ rules w rule rest hload hr htasks
        obtain ⟨htally, hstop'⟩ := h.step_executed hac hstatus hstop htasks hchanged
        have hless : mk.graph.vertices.length < fuel + (done ++ [rule]).length := by
          rw [List.length_append, List.length_singleton]
          omega
        have hrest := ih (hr.tail (.pull htasks)) htally hstop' hless
        simpa [rope, htasks] using hrest

theorem stopsInTime_of_neverSkips (hskip : NeverSkips mk env files) :
    StopsInTime mk env files := by
  obtain ⟨hstart, hstop⟩ := tally_loadRules hac hload
  constructor
  case ends =>
    refine ⟨mk.graph.vertices.length + 1, ?_⟩
    rw [parmake, hload]
    exact rope_returns hac hstatus hload hskip .refl hstart hstop (by simp)
  case inTime =>
    intro w₁ rules w hload₁ hr hnone
    obtain rfl : w₀ = w₁ := Option.some.inj (hload.symm.trans hload₁)
    obtain ⟨done, htally, hstop'⟩ :
        ∃ done, Tally mk done 0 w ∧ (none ∈ w.tasks ↔ GoalsDone mk done) := by
      clear hnone
      induction hr with
      | refl => exact ⟨[], hstart, hstop⟩
      | tail hr hs ih =>
        obtain ⟨done, htally, hstop'⟩ := ih
        cases hs with
        | pull htasks =>
          have hchanged := hskip w₀ _ _ _ _ hload hr htasks
          exact ⟨_, htally.step_executed hac hstatus hstop' htasks hchanged⟩
    exact htally.goalsDone_iff.mpr (hstop'.mp hnone)

/-! ## A rule is skipped -/

/-- Once a rule has been skipped, the message to stop would come too early. -/
theorem Tally.step_inTime (hs : StopsInTime mk env files) {rules : List T}
    (hr : Run (Step mk env) w₀ rules w) (h : Tally mk done skipped w) {rest : List (Option T)}
    (htasks : w.tasks = some rule :: rest) :
    let w' := ropeBody mk env rule { w with tasks := rest }
    let skipped' := skipped + if changed mk env rule w.files then 0 else 1
    Tally mk (done ++ [rule]) skipped' w' ∧ (none ∈ w'.tasks → skipped' = 0) := by
  obtain ⟨hnot, htally, hnone⟩ := h.step hac hstatus htasks
  refine ⟨htally, fun hstop => ?_⟩
  have hgoals := htally.goalsDone_iff.mp
    (hs.inTime w₀ _ _ hload (hr.tail (.pull htasks)) hstop)
  rcases hnone.mp hstop with hearlier | hcount
  · exact absurd (h.goalsDone_iff.mp (hs.inTime w₀ _ _ hload hr hearlier)) hnot
  · have hexcess := htally.goalsDone_iff_count.mp hgoals
    omega

/-- The worker executes what is left, and then it waits for ever. -/
theorem rope_waits (hs : StopsInTime mk env files) {fuel : ℕ} {rules : List T}
    (hr : Run (Step mk env) w₀ rules w) (h : Tally mk done skipped w) (hskipped : skipped ≠ 0)
    (hnone : none ∉ w.tasks) : rope mk env fuel w = none := by
  induction fuel generalizing rules done skipped w with
  | zero => rfl
  | succ fuel ih =>
    cases htasks : w.tasks with
    | nil => simp [rope, htasks]
    | cons task rest =>
      cases task with
      | none => simp [htasks] at hnone
      | some rule =>
        obtain ⟨htally, hstop⟩ := h.step_inTime hac hstatus hload hs hr htasks
        have hmore : skipped + (if changed mk env rule w.files then 0 else 1) ≠ 0 := by omega
        have hrest := ih (hr.tail (.pull htasks)) htally hmore fun hstop' => hmore (hstop hstop')
        simp [rope, htasks, hrest]

omit hac hstatus hload in
theorem rope_of_run {fuel : ℕ} {rules : List T} (hr : Run (Step mk env) w₀ rules w)
    (h : (rope mk env fuel w₀).isSome) : ∃ fuel, (rope mk env fuel w).isSome := by
  induction hr with
  | refl => exact ⟨fuel, h⟩
  | tail _ hs ih =>
    obtain ⟨fuel, h⟩ := ih
    cases hs with
    | pull htasks =>
      cases fuel with
      | zero => simp [rope] at h
      | succ fuel => exact ⟨fuel, by simpa [rope, htasks] using h⟩

theorem neverSkips_of_stopsInTime (hs : StopsInTime mk env files) : NeverSkips mk env files := by
  intro w₁ rules w rule rest hload₁ hr htasks
  obtain rfl : w₀ = w₁ := Option.some.inj (hload.symm.trans hload₁)
  by_contra hchanged
  obtain ⟨done, skipped, htally⟩ := tally_run hac hstatus hload hr
  obtain ⟨htally', hstop⟩ := htally.step_inTime hac hstatus hload hs hr htasks
  rw [if_neg hchanged] at htally' hstop
  have hrun := hr.tail (.pull htasks)
  obtain ⟨fuel, hends⟩ := hs.ends
  rw [parmake, hload] at hends
  obtain ⟨fuel', hends'⟩ := rope_of_run hrun hends
  rw [rope_waits hac hstatus hload hs hrun htally' (Nat.succ_ne_zero _)
    fun hnone => absurd (hstop hnone) (Nat.succ_ne_zero _)] at hends'
  simp at hends'

end Run

/-- If no goal reaches a cycle and no command fails, then a run with one worker ends, with the
message to stop after all goals, if and only if no rule is found up to date. -/
theorem stopsInTime_iff (hac : NoGoalCycle mk)
    (hstatus : ∀ r ∈ mk.graph.vertices, ∀ c ∈ mk.commands r, env.status c = 0) (files : F) :
    StopsInTime mk env files ↔ NeverSkips mk env files := by
  obtain ⟨w₀, hload⟩ := Option.isSome_iff_exists.mp (loadRules_returns mk files)
  exact ⟨neverSkips_of_stopsInTime hac hstatus hload, stopsInTime_of_neverSkips hac hstatus hload⟩

/-- Without files the rules of `twoDeps` are all executed. -/
theorem stopsInTime_twoDeps : StopsInTime twoDeps (failing 0) () :=
  (stopsInTime_iff noGoalCycle_twoDeps (by decide) ()).mpr fun _ _ _ _ _ _ _ _ => rfl

/-- Every target is a file of the same age, and no command changes that. -/
def upToDate : Env ℕ ℕ Unit where
  status := fun _ => 0
  effect := fun _ files => files
  mtime := fun _ _ => some 0

/-- The goal of `twoDeps` is skipped. It is counted twice, so that the worker waits for ever. -/
theorem not_stopsInTime :
    ¬ ∀ (mk : Makefile ℕ ℕ) (env : Env ℕ ℕ Unit) (files : Unit), NoGoalCycle mk →
      (∀ r ∈ mk.graph.vertices, ∀ c ∈ mk.commands r, env.status c = 0) →
        StopsInTime mk env files := by
  intro hall
  have hr : Run (Step twoDeps upToDate) loaded [2, 3, 1]
      (pulled upToDate 1 (pulled upToDate 3 (pulled upToDate 2 loaded))) :=
    .head (step_pulled (by decide +kernel)) <| .head (step_pulled (by decide +kernel)) <|
      .single (step_pulled (by decide +kernel))
  obtain ⟨fuel, hends⟩ := (hall twoDeps upToDate () noGoalCycle_twoDeps (fun _ _ _ _ => rfl)).ends
  have hload : loadRules twoDeps () = some loaded := (Option.some_get _).symm
  rw [parmake, hload] at hends
  obtain ⟨fuel', hends'⟩ := rope_of_run hr hends
  have hempty : (pulled upToDate 1 (pulled upToDate 3 (pulled upToDate 2 loaded))).tasks = [] := by
    decide +kernel
  cases fuel' with
  | zero => simp [rope] at hends'
  | succ fuel' => simp [rope, hempty] at hends'

end Cs241.Parmake
