import Cs241.Parmake.Dependencies

/-!
# When a rule counts as changed

A rule is up to date if its target and all of its dependencies are files and none of these
is newer. `changed` stops at the first dependency that is a file and not newer, so that
one such dependency is enough for the rule to be skipped. The two agree unless the
dependencies of the rule are of both kinds.
-/
namespace Cs241.Parmake

open Foundation

variable {T C F : Type*} [DecidableEq T]

/-- The dependency is a file that is not newer than `old`. -/
def NotNewer (env : Env T C F) (files : F) (old : ℤ) (dep : T) : Prop :=
  ∃ new ∈ env.mtime files dep, new ≤ old

/-- The rule need not be run. -/
def UpToDate (mk : Makefile T C) (env : Env T C F) (rule : T) (files : F) : Prop :=
  ∃ old ∈ env.mtime files rule, mk.graph.neighbors rule ≠ [] ∧
    ∀ dep ∈ mk.graph.neighbors rule, NotNewer env files old dep

/-- The dependencies are of both kinds. -/
def Mixed (mk : Makefile T C) (env : Env T C F) (rule : T) (files : F) : Prop :=
  ∃ old ∈ env.mtime files rule, (∃ dep ∈ mk.graph.neighbors rule, NotNewer env files old dep) ∧
    ∃ dep ∈ mk.graph.neighbors rule, ¬ NotNewer env files old dep

variable {mk : Makefile T C} {env : Env T C F} {rule : T} {files : F}

/-- One dependency that is not newer is enough. -/
theorem changed_eq_false_iff : changed mk env rule files = false ↔
    ∃ old ∈ env.mtime files rule, ∃ dep ∈ mk.graph.neighbors rule, NotNewer env files old dep := by
  unfold changed NotNewer
  cases env.mtime files rule with
  | none => simp
  | some old =>
    simp only [List.all_eq_false, Option.mem_def, Option.some.injEq, exists_eq_left']
    refine exists_congr fun dep => and_congr_right fun _ => ?_
    cases env.mtime files dep with
    | none => simp
    | some new => simp

theorem UpToDate.not_changed (h : UpToDate mk env rule files) :
    changed mk env rule files = false := by
  obtain ⟨old, hold, hne, hdeps⟩ := h
  obtain ⟨dep, hdep⟩ := List.exists_mem_of_ne_nil _ hne
  exact changed_eq_false_iff.mpr ⟨old, hold, dep, hdep, hdeps dep hdep⟩

/-- `changed` tells whether a rule is up to date exactly if its dependencies are of one kind. -/
theorem changed_iff (mk : Makefile T C) (env : Env T C F) (rule : T) (files : F) :
    (changed mk env rule files = false ↔ UpToDate mk env rule files) ↔
      ¬ Mixed mk env rule files := by
  constructor
  · rintro h ⟨old, hold, hfresh, dep, hdep, hnewer⟩
    obtain ⟨old', hold', -, hdeps⟩ := h.mp (changed_eq_false_iff.mpr ⟨old, hold, hfresh⟩)
    obtain rfl := Option.mem_unique hold hold'
    exact hnewer (hdeps dep hdep)
  · intro hmixed
    refine ⟨fun h => ?_, UpToDate.not_changed⟩
    obtain ⟨old, hold, dep, hdep, hfresh⟩ := changed_eq_false_iff.mp h
    refine ⟨old, hold, List.ne_nil_of_mem hdep, fun other hother => ?_⟩
    by_contra hnewer
    exact hmixed ⟨old, hold, ⟨dep, hdep, hfresh⟩, other, hother, hnewer⟩

/-- The targets are files that are as old as their numbers tell, except for the third. -/
def thirdMissing : Env ℕ ℕ Unit where
  status := fun _ => 0
  effect := fun _ files => files
  mtime := fun _ target => if target = 3 then none else some (-target)

/-- Rule 1 of `twoDeps` is skipped, although its dependency 3 is not a file. -/
theorem changed_missing : changed twoDeps thirdMissing 1 () = false ∧
    ¬ UpToDate twoDeps thirdMissing 1 () := by
  refine ⟨by decide, ?_⟩
  rintro ⟨old, -, -, hdeps⟩
  obtain ⟨new, hnew, -⟩ := hdeps 3 (by decide)
  exact Option.not_mem_none new hnew

end Cs241.Parmake
