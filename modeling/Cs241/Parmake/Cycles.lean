import Cs241.Parmake.Confinement

/-!
# The search for cycles

A search that finds a cycle leaves its path in `visited`, and some of the rules on
it marked as ignored. All of them are on the way to that cycle, so that a later
search which meets one of them is right to stop there. The root of a search is not
put into `visited`; a cycle through the root is found one round later.
-/
namespace Cs241.Parmake

open Foundation Relation

variable {T C F : Type*} [DecidableEq T] {mk : Makefile T C} {w w' : World T C F}
  {status : RuleState}

omit [DecidableEq T] in
theorem ReachesCycle.head {r v : T} (hreach : ReflTransGen mk.graph.Adj r v)
    (h : ReachesCycle mk v) : ReachesCycle mk r := by
  obtain ⟨u, hu, hcycle⟩ := h
  exact ⟨u, hreach.trans hu, hcycle⟩

omit [DecidableEq T] in
/-- A dependency that leads back to the rule closes a cycle. -/
theorem ReachesCycle.closed {r dep : T} (hdep : mk.graph.Adj r dep)
    (hback : ReflTransGen mk.graph.Adj dep r) : ReachesCycle mk r :=
  ⟨r, .refl, TransGen.head' hdep hback⟩

/-- Only rules that reach a cycle are ignored. -/
def Marked (mk : Makefile T C) (w : World T C F) : Prop :=
  ∀ r, w.state r = .ignored → ReachesCycle mk r

/-- `visited` holds the path to the vertex and what earlier searches have left. -/
def PathOrStale (mk : Makefile T C) (node : T) (w : World T C F) : Prop :=
  ∀ v ∈ w.visited, ReachesCycle mk v ∨ ReflTransGen mk.graph.Adj v node

/-- After a search: the marks are right, and if it found a cycle, then from the vertex one is
reached, and from all that is left in `visited`. -/
structure Searched (mk : Makefile T C) (node : T) (status : RuleState) (w : World T C F) :
    Prop where
  marked : Marked mk w
  reaches : status = .ignored → ReachesCycle mk node
  stale : status = .ignored → ∀ v ∈ w.visited, ReachesCycle mk v

theorem Marked.setState {rule : T} {state : RuleState} (h : Marked mk w)
    (hrule : state = .ignored → ReachesCycle mk rule) : Marked mk (w.setState rule state) := by
  intro r hr
  by_cases he : r = rule
  · subst he
    exact hrule (by simpa [World.setState] using hr)
  · exact h r (by simpa [World.setState, he] using hr)

omit [DecidableEq T] in
theorem PathOrStale.enter {node v : T} (h : PathOrStale mk node w) (hv : mk.graph.Adj node v) :
    PathOrStale mk v { w with visited := v :: w.visited } := by
  intro x hx
  rcases List.mem_cons.mp hx with rfl | hx
  · exact .inr .refl
  · exact (h x hx).imp_right fun hpath => hpath.tail hv

section Search

variable {call : T → World T C F → Option (RuleState × World T C F)} {node : T} {vs : List T}

theorem anyIgnored_searched
    (hcall : ∀ {v} {w : World T C F} {status w'}, Marked mk w → PathOrStale mk v w →
      call v w = some (status, w') → Searched mk v status w')
    (hvisited : ∀ {v} {w : World T C F} {status w'}, call v w = some (status, w') →
      status ≠ .ignored → w'.visited = w.visited)
    (hvs : ∀ v ∈ vs, mk.graph.Adj node v) (hw : Marked mk w) (hpath : PathOrStale mk node w)
    (h : anyIgnored call node vs w = some (status, w')) : Searched mk node status w' := by
  induction vs generalizing w with
  | nil =>
    obtain ⟨rfl, rfl⟩ := Prod.mk.inj (Option.some.inj h)
    exact ⟨hw, fun hs => by simp at hs, fun hs => by simp at hs⟩
  | cons v vs ih =>
    have hv := hvs v List.mem_cons_self
    rw [anyIgnored] at h
    split_ifs at h with hmem
    · obtain ⟨rfl, rfl⟩ := Prod.mk.inj (Option.some.inj h)
      have hnode : ReachesCycle mk node := by
        rcases hpath v hmem with hstale | hback
        · exact hstale.head (.single hv)
        · exact .closed hv hback
      exact ⟨hw, fun _ => hnode, fun _ x hx => (hpath x hx).elim id hnode.head⟩
    · obtain ⟨⟨b, u⟩, hu, h⟩ := Option.bind_eq_some_iff.mp h
      have hsearched := hcall (show Marked mk { w with visited := v :: w.visited } from hw)
        (hpath.enter hv) hu
      dsimp only at h
      split_ifs at h with hb
      · obtain ⟨rfl, rfl⟩ := Prod.mk.inj (Option.some.inj h)
        have hnode : ReachesCycle mk node := (hsearched.reaches hb).head (.single hv)
        exact ⟨hsearched.marked.setState fun _ => hnode, fun _ => hnode,
          fun _ => hsearched.stale hb⟩
      · have hback : u.visited.filter (fun x => x ≠ v) = w.visited := by
          rw [hvisited hu hb]
          simpa using fun x hx => ne_of_mem_of_not_mem hx hmem
        rw [hback] at h
        exact ih (fun x hx => hvs x (List.mem_cons_of_mem _ hx))
          (show Marked mk { u with visited := w.visited } from hsearched.marked) hpath h

/-- A search finds a cycle only where one is reached. -/
theorem cycles_searched : ∀ {fuel : ℕ} {node : T} {w : World T C F} {status : RuleState}
    {w' : World T C F}, Marked mk w → PathOrStale mk node w →
      cycles mk.graph.neighbors fuel node w = some (status, w') → Searched mk node status w'
  | 0, _, _, _, _, _, _, h => by simp [cycles] at h
  | fuel + 1, node, w, status, w', hw, hpath, h => by
    rw [cycles] at h
    split_ifs at h with hi
    · obtain ⟨rfl, rfl⟩ := Prod.mk.inj (Option.some.inj h)
      have hnode := hw node hi
      exact ⟨hw, fun _ => hnode, fun _ x hx => (hpath x hx).elim id hnode.head⟩
    · exact anyIgnored_searched cycles_searched cycles_visited
        (fun v hv => (FinDigraph.mem_neighbors _).mp hv) (hw.setState (by simp)) hpath h

theorem anyIgnored_unprocessed (h : anyIgnored call node vs w = some (status, w')) :
    status = .ignored ∨ status = .unprocessed ∧
      ∀ v ∈ vs, ∃ u s u', call v u = some (s, u') ∧ s ≠ .ignored := by
  induction vs generalizing w with
  | nil =>
    obtain ⟨rfl, rfl⟩ := Prod.mk.inj (Option.some.inj h)
    exact .inr ⟨rfl, by simp⟩
  | cons v vs ih =>
    rw [anyIgnored] at h
    split_ifs at h with hmem
    · exact .inl (Prod.mk.inj (Option.some.inj h)).1.symm
    · obtain ⟨⟨b, u⟩, hu, h⟩ := Option.bind_eq_some_iff.mp h
      dsimp only at h
      split_ifs at h with hb
      · exact .inl (Prod.mk.inj (Option.some.inj h)).1.symm
      · rcases ih h with hs | ⟨hs, hvs⟩
        · exact .inl hs
        · exact .inr ⟨hs, List.forall_mem_cons.mpr ⟨⟨_, b, u, hu, hb⟩, hvs⟩⟩

/-- A search that finds no cycle has gone through all that it could reach. -/
theorem cycles_unprocessed : ∀ {fuel : ℕ} {node : T} {w : World T C F} {status : RuleState}
    {w' : World T C F}, cycles mk.graph.neighbors fuel node w = some (status, w') →
      status = .ignored ∨ status = .unprocessed ∧ ¬ ReachesCycle mk node
  | 0, _, _, _, _, h => by simp [cycles] at h
  | fuel + 1, node, w, status, w', h => by
    rw [cycles] at h
    split_ifs at h with hi
    · exact .inl (Prod.mk.inj (Option.some.inj h)).1.symm
    · rcases anyIgnored_unprocessed h with hs | ⟨hs, hvs⟩
      · exact .inl hs
      · refine .inr ⟨hs, fun hcycle => ?_⟩
        obtain ⟨dep, hdep, hback⟩ := hcycle.dep
        obtain ⟨u, s, u', hu, hb⟩ := hvs dep ((FinDigraph.mem_neighbors _).mpr hdep)
        exact ((cycles_unprocessed hu).resolve_left hb).2 hback

end Search

/-! ## The goals in order -/

/-- What the searches from the earlier goals have left. -/
structure Left (mk : Makefile T C) (w : World T C F) : Prop where
  marked : Marked mk w
  stale : ∀ v ∈ w.visited, ReachesCycle mk v

theorem left_init (mk : Makefile T C) (files : F) : Left mk (World.init mk files) :=
  ⟨fun _ h => by simp [World.init] at h, fun _ h => by simp [World.init] at h⟩

theorem Left.searched {fuel : ℕ} {goal : T} (h : Left mk w)
    (hc : cycles mk.graph.neighbors fuel goal w = some (status, w')) :
    Searched mk goal status w' :=
  cycles_searched h.marked (fun v hv => .inl (h.stale v hv)) hc

theorem Left.goal {goal : T} (h : Left mk w) (hg : loadGoal mk goal w = some w') : Left mk w' := by
  obtain ⟨⟨status, u⟩, hu, rfl⟩ := Option.map_eq_some_iff.mp hg
  have hs := h.searched hu
  dsimp only
  split_ifs with hi
  · exact ⟨hs.marked, hs.stale hi⟩
  · refine ⟨hs.marked, fun v hv => h.stale v ?_⟩
    rw [← cycles_visited hu hi]
    exact hv

theorem Left.goals {goals : List T} (h : Left mk w) (hg : loadGoals mk goals w = some w') :
    Left mk w' := by
  induction goals generalizing w with
  | nil => exact Option.some.inj hg ▸ h
  | cons goal goals ih =>
    obtain ⟨u, hu, hg⟩ := Option.bind_eq_some_iff.mp hg
    exact ih (h.goal hu) hg

/-- Whatever goals were searched before, the search from the next goal returns, and it says
`IGNORED` if the goal reaches a cycle and `UNPROCESSED` if not. -/
theorem cycles_ignored_iff (mk : Makefile T C) (files : F) (earlier : List T) (goal : T) :
    ∃ w, loadGoals mk earlier (World.init mk files) = some w ∧
      (∃ fuel, (cycles mk.graph.neighbors fuel goal w).isSome) ∧
      ∀ fuel status w', cycles mk.graph.neighbors fuel goal w = some (status, w') →
        (status = .ignored ↔ ReachesCycle mk goal) ∧
        (status = .unprocessed ↔ ¬ ReachesCycle mk goal) := by
  obtain ⟨w, hw⟩ := Option.isSome_iff_exists.mp
    (loadGoals_returns mk earlier (World.init mk files))
  refine ⟨w, hw, ⟨_, goal_returns mk goal w⟩, fun fuel status w' hc => ?_⟩
  have hs := ((left_init mk files).goals hw).searched hc
  rcases cycles_unprocessed hc with rfl | ⟨rfl, hnone⟩
  · simp [hs.reaches rfl]
  · simp [hnone]

end Cs241.Parmake
