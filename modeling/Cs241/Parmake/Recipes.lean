import Cs241.Parmake.Sharing

/-!
# The commands that several workers run

What was run is read from the record: of each rule the commands in their order, as
far as its worker has come. A worker comes to the commands of its rule when the
dependencies have succeeded, and by then all commands of these were run.
-/
namespace Cs241.Parmake

open Foundation

variable {T C F I : Type*} [DecidableEq T]

/-- The commands of a rule that were run, oldest first. -/
def commandsRun (rule : T) : List (Event T C) → List C
  | [] => []
  | .ran r command :: log =>
    if r = rule then commandsRun rule log ++ [command] else commandsRun rule log
  | _ :: log => commandsRun rule log

/-- What is to be made: the dependencies and the commands of each rule, and the rules that are
wanted. -/
structure Plan (T C : Type*) where
  depends : T → T → Prop
  commands : T → List C
  wanted : T → Prop

namespace Plan

variable (plan : Plan T C) (log : List (Event T C))

/-- When a command of a rule was run, all commands of its dependencies had been run. -/
def InOrder : Prop :=
  ∀ later r c earlier, log = later ++ .ran r c :: earlier →
    ∀ dep, plan.depends r dep → commandsRun dep earlier = plan.commands dep

/-- What was run is a part of the plan: the commands of a rule in their order, none twice, after
those of its dependencies, and of wanted rules only. -/
structure Kept : Prop where
  ordered : plan.InOrder log
  part : ∀ rule, commandsRun rule log <+: plan.commands rule
  only : ∀ rule, ¬ plan.wanted rule → commandsRun rule log = []

/-- All that is wanted was run. -/
def Done : Prop := ∀ rule, plan.wanted rule → commandsRun rule log = plan.commands rule

end Plan

/-- The goals and what they reach, as the makefile has it. -/
def Makefile.plan (mk : Makefile T C) : Plan T C where
  depends rule dep := dep ∈ mk.graph.neighbors rule
  commands := mk.commands
  wanted := Needed mk

/-- How far the commands of each rule have come. -/
structure Recipes (mk : Makefile T C) (s : Workers I T C F) : Prop where
  fresh : ∀ r ∉ s.executed, commandsRun r s.world.log = []
  running : ∀ {i r commands}, s.point i = .runCommands r commands →
    commandsRun r s.world.log ++ commands = mk.commands r
  finished : ∀ r ∈ s.executed, (∀ i commands, s.point i ≠ .runCommands r commands) →
    commandsRun r s.world.log = mk.commands r
  ordered : mk.plan.InOrder s.world.log

variable {mk : Makefile T C} {env : Env T C F} {w w' : World T C F} {p p' : Point T C}
  {log : List (Event T C)} {r rule : T} {c : C}

theorem commandsRun_ran_self : commandsRun r (.ran r c :: log) = commandsRun r log ++ [c] :=
  if_pos rfl

theorem commandsRun_ran_of_ne (h : r ≠ rule) :
    commandsRun rule (.ran r c :: log) = commandsRun rule log := if_neg h

theorem recipes_start (hlog : w.log = []) : Recipes mk (Workers.start w : Workers I T C F) := by
  constructor
  case fresh => simp [Workers.start, hlog, commandsRun]
  case running => simp [Workers.start]
  case finished => simp [Workers.start]
  case ordered =>
    intro later r c earlier heq
    simp [Workers.start, hlog] at heq

theorem inOrder_ran (h : mk.plan.InOrder log)
    (hdeps : ∀ dep ∈ mk.graph.neighbors r, commandsRun dep log = mk.commands dep) (c : C) :
    mk.plan.InOrder (.ran r c :: log) := by
  intro later x d earlier heq
  rcases List.cons_eq_append_iff.mp heq with ⟨rfl, hcons⟩ | ⟨later', rfl, hrest⟩
  · obtain ⟨hevent, rfl⟩ := List.cons.inj hcons
    obtain ⟨rfl, rfl⟩ := Event.ran.inj hevent
    exact hdeps
  · exact h later' x d earlier hrest

/-- A worker starts with the commands of its rule, runs one, or is through with them; every other
step leaves the record alone. -/
theorem Move.recipes (hm : Move mk env w p p' w') :
    (∃ r, p = .callExecute r ∧ p' = .runCommands r (mk.commands r) ∧ w' = w) ∨
    (∃ r c commands, p = .runCommands r (c :: commands) ∧ p' = .runCommands r commands ∧
      w'.log = .ran r c :: w.log) ∨
    (∃ r, p = .runCommands r [] ∧ p' = .testFailed r ∧ w' = w) ∨
    (w'.log = w.log ∧ p.executes = [] ∧ (∀ r commands, p ≠ .runCommands r commands) ∧
      ∀ r commands, p' ≠ .runCommands r commands) := by
  cases hm with
  | call => exact .inl ⟨_, rfl, rfl, rfl⟩
  | command => exact .inr (.inl ⟨_, _, _, rfl, rfl, rfl⟩)
  | ran => exact .inr (.inr (.inl ⟨_, rfl, rfl, rfl⟩))
  | count =>
    refine .inr (.inr (.inr ⟨?_, rfl, by simp, by simp⟩))
    split_ifs <;> rfl
  | _ => exact .inr (.inr (.inr ⟨rfl, rfl, by simp, by simp⟩))

variable [DecidableEq I] {s : Workers I T C F} {i j : I}

omit [DecidableEq T] in
/-- After a step the worker is at its new point and the others are where they were. -/
theorem point_moved {q : Point T C} (h : (s.moved i p' w').point j = q) :
    (j = i ∧ p' = q) ∨ (j ≠ i ∧ s.point j = q) := by
  by_cases hji : j = i
  · subst hji
    exact .inl ⟨rfl, by simpa [Workers.moved] using h⟩
  · exact .inr ⟨hji, by simpa [Workers.moved, hji] using h⟩

omit [DecidableEq T] in
/-- Nobody runs the commands of a rule, if the worker that moves did not and nobody does now. -/
theorem nobody_moved (hi : ∀ commands, s.point i ≠ .runCommands r commands)
    (h : ∀ j commands, (s.moved i p' w').point j ≠ .runCommands r commands) (j : I)
    (commands : List C) : s.point j ≠ .runCommands r commands := by
  intro hj
  by_cases hji : j = i
  · subst hji
    exact hi commands hj
  · exact h j commands (by simpa [Workers.moved, hji] using hj)

namespace Recipes

variable (h : Recipes mk s)
include h

/-- The worker has the commands of its rule in front of it. -/
theorem call (honce : Once s) (hp : s.point i = .callExecute r) :
    Recipes mk (s.moved i (.runCommands r (mk.commands r)) s.world) := by
  have hexecuted : (s.moved i (.runCommands r (mk.commands r)) s.world).executed =
      r :: s.executed := by simp [Workers.moved, hp, Point.executes]
  have hnew : r ∉ s.executed := honce.fresh (i := i) (by rw [hp]; rfl)
  constructor
  case fresh =>
    intro x hx
    rw [hexecuted] at hx
    exact h.fresh x fun hmem => hx (List.mem_cons_of_mem _ hmem)
  case running =>
    intro j x commands hj
    rcases point_moved hj with ⟨-, hpoint⟩ | ⟨-, hpast⟩
    · obtain ⟨rfl, rfl⟩ := Point.runCommands.inj hpoint
      change commandsRun r s.world.log ++ _ = _
      rw [h.fresh r hnew, List.nil_append]
    · exact h.running hpast
  case finished =>
    intro x hx hnow
    rw [hexecuted] at hx
    rcases List.mem_cons.mp hx with rfl | hmem
    · exact absurd (Function.update_self ..) (hnow i _)
    · exact h.finished x hmem (nobody_moved (by simp [hp]) hnow)
  case ordered => exact h.ordered

/-- The worker runs a command, of which the record has one more. -/
theorem command {commands : List C} (halone : ∀ {j}, (s.point j).Has r → j = i)
    (hmem : r ∈ s.executed)
    (hdeps : ∀ dep ∈ mk.graph.neighbors r, commandsRun dep s.world.log = mk.commands dep)
    (hp : s.point i = .runCommands r (c :: commands)) (hlog : w'.log = .ran r c :: s.world.log) :
    Recipes mk (s.moved i (.runCommands r commands) w') := by
  have hexecuted : (s.moved i (.runCommands r commands) w').executed = s.executed := by
    simp [Workers.moved, hp, Point.executes]
  constructor
  case fresh =>
    intro x hx
    rw [hexecuted] at hx
    change commandsRun x w'.log = []
    have hne : r ≠ x := by
      rintro rfl
      exact hx hmem
    rw [hlog, commandsRun_ran_of_ne hne]
    exact h.fresh x hx
  case running =>
    intro j x rest hj
    change commandsRun x w'.log ++ rest = _
    rw [hlog]
    rcases point_moved hj with ⟨-, hpoint⟩ | ⟨hji, hpast⟩
    · obtain ⟨rfl, rfl⟩ := Point.runCommands.inj hpoint
      rw [commandsRun_ran_self, List.append_assoc]
      exact h.running hp
    · have hne : r ≠ x := by
        rintro rfl
        exact hji (halone (by rw [hpast]; rfl))
      rw [commandsRun_ran_of_ne hne]
      exact h.running hpast
  case finished =>
    intro x hx hnow
    rw [hexecuted] at hx
    change commandsRun x w'.log = _
    have hne : r ≠ x := by
      rintro rfl
      exact hnow i commands (Function.update_self ..)
    rw [hlog, commandsRun_ran_of_ne hne]
    exact h.finished x hx (nobody_moved (by simp [hp, hne]) hnow)
  case ordered =>
    change mk.plan.InOrder w'.log
    rw [hlog]
    exact inOrder_ran h.ordered hdeps c

/-- A step that runs no command, of a worker that has no more to run. -/
theorem quiet (hlog : w'.log = s.world.log) (hexecutes : (s.point i).executes = [])
    (hbefore : ∀ r commands, s.point i = .runCommands r commands → commands = [])
    (hafter : ∀ r commands, p' ≠ .runCommands r commands) : Recipes mk (s.moved i p' w') := by
  have hexecuted : (s.moved i p' w').executed = s.executed := by
    simp [Workers.moved, hexecutes]
  constructor
  case fresh =>
    intro x hx
    change commandsRun x w'.log = []
    rw [hlog]
    exact h.fresh x (hexecuted ▸ hx)
  case running =>
    intro j x commands hj
    change commandsRun x w'.log ++ commands = _
    rw [hlog]
    rcases point_moved hj with ⟨-, hpoint⟩ | ⟨-, hpast⟩
    · exact absurd hpoint (hafter x commands)
    · exact h.running hpast
  case finished =>
    intro x hx hnow
    change commandsRun x w'.log = _
    rw [hlog]
    by_cases hi : ∃ commands, s.point i = .runCommands x commands
    · obtain ⟨commands, hi⟩ := hi
      obtain rfl := hbefore x commands hi
      simpa using h.running hi
    · exact h.finished x (hexecuted ▸ hx) (nobody_moved (not_exists.mp hi) hnow)
  case ordered =>
    change mk.plan.InOrder w'.log
    rw [hlog]
    exact h.ordered

omit [DecidableEq I] in
/-- All commands of a rule that has succeeded were run. -/
theorem succeeded [Fintype I] (hshared : Shared mk env s) (hr : s.world.state r = .succeeded) :
    commandsRun r s.world.log = mk.commands r := by
  apply h.finished r (hshared.done hr).1
  intro i commands hi
  have hsound := hshared.sound i
  rw [hi] at hsound
  exact hsound.not_succeeded rfl hr

theorem step [Fintype I] (hshared : Shared mk env s) (honce : Once s)
    (hm : Move mk env s.world (s.point i) p' w') : Recipes mk (s.moved i p' w') := by
  have hsound := hshared.sound i
  rcases hm.recipes with ⟨r, hp, rfl, rfl⟩ | ⟨r, c, commands, hp, rfl, hlog⟩ | ⟨r, hp, rfl, rfl⟩ |
    ⟨hlog, hexecutes, hbefore, hafter⟩
  · exact h.call honce hp
  · rw [hp] at hsound
    obtain ⟨hunderway, hmem, -⟩ := hsound
    have halone : ∀ {j}, (s.point j).Has r → j = i :=
      fun hj => hshared.alone hj (by rw [hp]; rfl)
    have hdeps : ∀ dep ∈ mk.graph.neighbors r, commandsRun dep s.world.log = mk.commands dep :=
      fun dep hdep => h.succeeded hshared (hunderway.ready dep hdep)
    exact h.command halone hmem hdeps hp hlog
  · exact h.quiet rfl (by rw [hp]; rfl) (by simp [hp]) (by simp)
  · exact h.quiet hlog hexecutes (fun r commands hi => absurd hi (hbefore r commands)) hafter

omit [DecidableEq I] in
/-- Of each rule, some commands were run in their order, and none twice. -/
theorem isPart (rule : T) :
    commandsRun rule s.world.log <+: mk.commands rule := by
  by_cases hmem : rule ∈ s.executed
  · by_cases hrunning : ∃ i commands, s.point i = .runCommands rule commands
    · obtain ⟨i, commands, hi⟩ := hrunning
      exact ⟨commands, h.running hi⟩
    · push Not at hrunning
      rw [h.finished rule hmem hrunning]
  · rw [h.fresh rule hmem]
    exact List.nil_prefix

end Recipes

end Cs241.Parmake
