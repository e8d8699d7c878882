import Mathlib.Data.Finset.Card
import Cs241.Parmake.Model

/-!
# Loading the rules

The search for cycles returns on every graph, since each call on its path has
put another vertex into `visited`. It only marks rules as unprocessed or
ignored; the queue then holds rules without dependencies.
-/
namespace Cs241.Parmake

open Foundation

variable {T C F : Type*} [DecidableEq T] {neighbors : T → List T} {w w' : World T C F}
  {status : RuleState}

section Cycles

variable {call : T → World T C F → Option (RuleState × World T C F)} {P : World T C F → Prop}

theorem anyIgnored_preserves
    (hstate : ∀ {w} rule state, state = .unprocessed ∨ state = .ignored → P w →
      P (w.setState rule state))
    (hvisited : ∀ {w} vs, P w → P { w with visited := vs })
    (hcall : ∀ {v w status w'}, P w → call v w = some (status, w') → P w') {node : T} {vs : List T}
    (hw : P w) (h : anyIgnored call node vs w = some (status, w')) : P w' := by
  induction vs generalizing w with
  | nil =>
    obtain ⟨-, rfl⟩ := Prod.mk.inj (Option.some.inj h)
    exact hw
  | cons v vs ih =>
    rw [anyIgnored] at h
    split_ifs at h with hv
    · obtain ⟨-, rfl⟩ := Prod.mk.inj (Option.some.inj h)
      exact hw
    · obtain ⟨⟨b, u⟩, hu, h⟩ := Option.bind_eq_some_iff.mp h
      have hu' := hcall (hvisited _ hw) hu
      dsimp only at h
      split_ifs at h
      · obtain ⟨-, rfl⟩ := Prod.mk.inj (Option.some.inj h)
        exact hstate _ _ (.inr rfl) hu'
      · exact ih (hvisited _ hu') h

/-- What every marking and every change of `visited` keeps, the search keeps. -/
theorem cycles_preserves
    (hstate : ∀ {w} rule state, state = .unprocessed ∨ state = .ignored → P w →
      P (w.setState rule state))
    (hvisited : ∀ {w} vs, P w → P { w with visited := vs }) :
    ∀ {fuel : ℕ} {node : T} {w : World T C F} {status : RuleState} {w' : World T C F}, P w →
      cycles neighbors fuel node w = some (status, w') → P w'
  | 0, _, _, _, _, _, h => by simp [cycles] at h
  | fuel + 1, node, w, status, w', hw, h => by
    rw [cycles] at h
    split_ifs at h with hi
    · obtain ⟨-, rfl⟩ := Prod.mk.inj (Option.some.inj h)
      exact hw
    · exact anyIgnored_preserves hstate hvisited (cycles_preserves hstate hvisited)
        (hstate _ _ (.inl rfl) hw) h

theorem anyIgnored_visited
    (hcall : ∀ {v w status w'}, call v w = some (status, w') → status ≠ .ignored →
      w'.visited = w.visited) {node : T} {vs : List T}
    (h : anyIgnored call node vs w = some (status, w')) (hs : status ≠ .ignored) :
    w'.visited = w.visited := by
  induction vs generalizing w with
  | nil =>
    obtain ⟨-, rfl⟩ := Prod.mk.inj (Option.some.inj h)
    rfl
  | cons v vs ih =>
    rw [anyIgnored] at h
    split_ifs at h with hv
    · exact absurd (Prod.mk.inj (Option.some.inj h)).1.symm hs
    · obtain ⟨⟨b, u⟩, hu, h⟩ := Option.bind_eq_some_iff.mp h
      dsimp only at h
      split_ifs at h with hb
      · exact absurd (Prod.mk.inj (Option.some.inj h)).1.symm hs
      · rw [ih h, hcall hu hb]
        simpa using fun x hx => ne_of_mem_of_not_mem hx hv

/-- A search that finds no cycle takes its path back out of `visited`. -/
theorem cycles_visited : ∀ {fuel : ℕ} {node : T} {w : World T C F} {status : RuleState}
    {w' : World T C F}, cycles neighbors fuel node w = some (status, w') → status ≠ .ignored →
      w'.visited = w.visited
  | 0, _, _, _, _, h, _ => by simp [cycles] at h
  | fuel + 1, node, w, status, w', h, hs => by
    rw [cycles] at h
    split_ifs at h with hi
    · exact absurd (Prod.mk.inj (Option.some.inj h)).1.symm hs
    · have hv := anyIgnored_visited cycles_visited h hs
      exact hv

/-- The number of vertices that are not in `visited`. -/
def unvisited (vertices : List T) (w : World T C F) : ℕ :=
  (vertices.toFinset.filter fun v => v ∉ w.visited).card

theorem unvisited_lt {vertices : List T} {v : T} (hv : v ∈ vertices) (hnew : v ∉ w.visited) :
    unvisited vertices { w with visited := v :: w.visited } < unvisited vertices w := by
  apply Finset.card_lt_card
  refine ⟨fun x hx => ?_, fun hback => ?_⟩
  · simp only [Finset.mem_filter, List.mem_cons, not_or] at hx ⊢
    exact ⟨hx.1, hx.2.2⟩
  · have hin := hback (Finset.mem_filter.mpr ⟨List.mem_toFinset.mpr hv, hnew⟩)
    simp at hin

theorem anyIgnored_returns {vertices : List T} {fuel : ℕ}
    (hcall : ∀ {v} {w : World T C F}, unvisited vertices w < fuel →
      (cycles neighbors fuel v w).isSome) {node : T} {vs : List T}
    (hvs : ∀ v ∈ vs, v ∈ vertices) (hw : unvisited vertices w ≤ fuel) :
    (anyIgnored (cycles neighbors fuel) node vs w).isSome := by
  induction vs generalizing w with
  | nil => rfl
  | cons v vs ih =>
    rw [anyIgnored]
    split_ifs with hv
    · rfl
    · have hless := unvisited_lt (hvs v List.mem_cons_self) hv
      obtain ⟨⟨b, u⟩, hu⟩ := Option.isSome_iff_exists.mp
        (hcall (v := v) (hless.trans_le hw))
      rw [hu, Option.bind_some]
      dsimp only
      split_ifs with hb
      · rfl
      · refine ih (fun x hx => hvs x (List.mem_cons_of_mem _ hx)) ?_
        have hback : u.visited.filter (fun x => x ≠ v) = w.visited := by
          rw [cycles_visited hu hb]
          simpa using fun x hx => ne_of_mem_of_not_mem hx hv
        rw [hback]
        exact hw

/-- The search returns on every graph. -/
theorem cycles_returns {vertices : List T} (hclosed : ∀ v, ∀ u ∈ neighbors v, u ∈ vertices) :
    ∀ {fuel : ℕ} {node : T} {w : World T C F}, unvisited vertices w < fuel →
      (cycles neighbors fuel node w).isSome
  | 0, _, _, h => absurd h (Nat.not_lt_zero _)
  | fuel + 1, node, w, h => by
    rw [cycles]
    split_ifs
    · rfl
    · exact anyIgnored_returns (cycles_returns hclosed) (hclosed node) (Nat.lt_succ_iff.mp h)

end Cycles

variable {mk : Makefile T C} {files : F}

/-- The search from a goal returns, whatever the earlier searches have left. -/
theorem goal_returns (mk : Makefile T C) (goal : T) (w : World T C F) :
    (cycles mk.graph.neighbors (mk.graph.vertices.length + 2) goal w).isSome := by
  have hclosed : ∀ v, ∀ u ∈ mk.graph.neighbors v, u ∈ mk.graph.vertices := fun v u hu =>
    (FinDigraph.mem_neighbors _ |>.mp hu).right_mem
  apply cycles_returns hclosed
  have hle := (Finset.card_filter_le mk.graph.vertices.toFinset fun v => v ∉ w.visited).trans
    (List.toFinset_card_le _)
  unfold unvisited
  omega

theorem loadGoals_returns (mk : Makefile T C) (goals : List T) (w : World T C F) :
    (loadGoals mk goals w).isSome := by
  induction goals generalizing w with
  | nil => rfl
  | cons goal goals ih =>
    obtain ⟨⟨status, u⟩, hu⟩ := Option.isSome_iff_exists.mp (goal_returns mk goal w)
    rw [loadGoals, loadGoal, hu]
    exact ih _

/-- Rules are loaded for every makefile. -/
theorem loadRules_returns (mk : Makefile T C) (files : F) : (loadRules mk files).isSome := by
  rw [loadRules, Option.isSome_map]
  exact loadGoals_returns mk _ _

/-- What the search for cycles leaves alone. -/
structure Loading (w : World T C F) : Prop where
  fresh : ∀ r, w.state r = .default ∨ w.state r = .unprocessed ∨ w.state r = .ignored
  tasks : w.tasks = []
  log : ∀ e ∈ w.log, ∃ goal, e = .cycleFailure goal

theorem Loading.goal {goal : T} (hl : Loading w) (h : loadGoal mk goal w = some w') :
    Loading w' := by
  obtain ⟨⟨status, u⟩, hu, rfl⟩ := Option.map_eq_some_iff.mp h
  have hu' : Loading u := by
    refine cycles_preserves (P := Loading) ?_ ?_ hl hu
    · intro w rule state hs hw
      refine ⟨fun r => ?_, hw.tasks, hw.log⟩
      by_cases hr : r = rule
      · rcases hs with rfl | rfl
        · simp [World.setState, hr]
        · simp [World.setState, hr]
      · simpa [World.setState, hr] using hw.fresh r
    · exact fun vs hw => ⟨hw.fresh, hw.tasks, hw.log⟩
  dsimp only
  split_ifs
  · refine ⟨hu'.fresh, hu'.tasks, fun e he => ?_⟩
    rcases List.mem_cons.mp he with rfl | he
    exacts [⟨goal, rfl⟩, hu'.log e he]
  · exact ⟨hu'.fresh, hu'.tasks, hu'.log⟩

theorem Loading.goals {goals : List T} (hl : Loading w) (h : loadGoals mk goals w = some w') :
    Loading w' := by
  induction goals generalizing w with
  | nil => exact Option.some.inj h ▸ hl
  | cons goal goals ih =>
    obtain ⟨u, hu, h⟩ := Option.bind_eq_some_iff.mp h
    exact ih (hl.goal hu) h

/-- The loaded rules are fresh, and only marked rules without dependencies are queued. -/
theorem loadRules_spec (h : loadRules mk files = some w) :
    (∀ r, w.state r = .default ∨ w.state r = .unprocessed ∨ w.state r = .ignored) ∧
      (∀ r, some r ∈ w.tasks → mk.graph.neighbors r = [] ∧ w.state r = .unprocessed) ∧
      ∀ e ∈ w.log, ∃ goal, e = .cycleFailure goal := by
  obtain ⟨u, hu, rfl⟩ := Option.map_eq_some_iff.mp h
  have hl := Loading.goals ⟨fun _ => .inl rfl, rfl, by simp [World.init]⟩ hu
  have hnull : ∀ r, some r ∉ (if u.goalTotal = 0 then u.push none else u).tasks := by
    intro r
    split_ifs <;> simp [World.push, hl.tasks]
  refine ⟨?_, ?_, ?_⟩
  · intro r
    unfold seed
    split_ifs
    exacts [hl.fresh r, hl.fresh r]
  · intro r hr
    rcases List.mem_append.mp hr with hr | hr
    · exact absurd hr (hnull r)
    · obtain ⟨x, hx, hxr⟩ := List.mem_map.mp hr
      obtain rfl := Option.some.inj hxr
      simp only [List.mem_filter, decide_eq_true_eq] at hx
      refine ⟨List.isEmpty_iff.mp hx.2.1, ?_⟩
      unfold seed
      split_ifs at hx ⊢
      exacts [hx.2.2, hx.2.2]
  · intro e he
    unfold seed at he
    split_ifs at he
    exacts [hl.log e he, hl.log e he]

end Cs241.Parmake
