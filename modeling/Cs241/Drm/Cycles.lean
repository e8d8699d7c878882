import Cs241.Drm.Deadlock

/-!
# The search for a cycle

`contains_cycle` forgets the visited vertices at every return. What it still knows
when it meets a vertex again is that all of them lie on the path to that vertex,
and from an empty set this is so at every call. When it returns 0 every path from
the node has ended, whatever was visited.
-/
namespace Cs241.Drm

open Foundation Relation

variable {V : Type*} [DecidableEq V] {neighbors : V → List V} {visited visited' : Option (List V)}

omit [DecidableEq V] in
/-- The cycle is found from some neighbor, with the visited vertices or with none. -/
theorem anyCycle_true {call : Option (List V) → V → Option (Bool × Option (List V))}
    (hcall : ∀ {visited v found visited'},
      call visited v = some (found, visited') → visited' = none)
    {vs : List V} (h : anyCycle call visited vs = some (true, visited')) :
    ∃ v ∈ vs, ∃ u u', (u = visited ∨ u = none) ∧ call u v = some (true, u') := by
  induction vs generalizing visited with
  | nil => exact absurd (congrArg Prod.fst (Option.some.inj h)) (by simp)
  | cons v vs ih =>
    obtain ⟨⟨b, u⟩, hv, h⟩ := Option.bind_eq_some_iff.mp h
    cases b with
    | true => exact ⟨v, List.mem_cons_self, visited, u, .inl rfl, hv⟩
    | false =>
      obtain rfl := hcall hv
      obtain ⟨x, hx, u, u', hu, hx'⟩ := ih h
      exact ⟨x, List.mem_cons_of_mem _ hx, u, u', .inr (or_self_iff.mp hu), hx'⟩

/-- A node that is met again lies on a cycle, for a path has led back to it. -/
theorem transGen_of_containsCycle_true :
    ∀ {fuel : ℕ} {visited : Option (List V)} {node : V} {visited' : Option (List V)},
      containsCycle neighbors fuel visited node = some (true, visited') →
        (∀ v ∈ visited.getD [], TransGen (fun a b => b ∈ neighbors a) v node) →
          ∃ v, ReflTransGen (fun a b => b ∈ neighbors a) node v ∧
            TransGen (fun a b => b ∈ neighbors a) v v
  | 0, _, _, _, h, _ => by simp [containsCycle] at h
  | fuel + 1, visited, node, visited', h, hpath => by
    rw [containsCycle] at h
    split_ifs at h with hseen
    · exact ⟨node, .refl, hpath node hseen⟩
    · obtain ⟨next, hnext, u, u', hu, hcall⟩ := anyCycle_true containsCycle_visited h
      have hpath' : ∀ v ∈ u.getD [], TransGen (fun a b => b ∈ neighbors a) v next := by
        intro v hv
        rcases hu with rfl | rfl
        · rcases List.mem_cons.mp hv with rfl | hv
          exacts [.single hnext, (hpath v hv).tail hnext]
        · simp at hv
      obtain ⟨v, hreach, hcycle⟩ := transGen_of_containsCycle_true hcall hpath'
      exact ⟨v, hreach.head hnext, hcycle⟩

/-- Started with nothing visited, the answer is whether a cycle can be reached. -/
theorem containsCycle_found {g : FinDigraph V} {fuel : ℕ} {start : V} {found : Bool}
    (h : containsCycle g.neighbors fuel none start = some (found, visited')) :
    found = true ↔ ∃ v, ReflTransGen g.Adj start v ∧ TransGen g.Adj v v := by
  constructor
  · rintro rfl
    simpa using transGen_of_containsCycle_true h (by simp)
  · rintro ⟨v, hreach, hcycle⟩
    cases found with
    | true => rfl
    | false =>
      have hacc := acc_of_containsCycle_false h
      simp only [FinDigraph.mem_neighbors] at hacc
      have hv : Acc (fun b a => g.Adj a b) v := by
        clear hcycle
        induction hreach with
        | refl => exact hacc
        | tail _ hstep ih => exact ih.inv hstep
      exact absurd hcycle (FinDigraph.not_transGen_of_acc hv)

/-- On a graph in which each vertex has at most one outgoing edge, `contains_cycle` terminates,
answers whether a cycle can be reached from the start, and leaves `visited` at `NULL`. -/
theorem containsCycle_iff_cycle (g : FinDigraph V)
    (hunique : ∀ v a b, g.Adj v a → g.Adj v b → a = b) {start : V} (hstart : start ∈ g.vertices) :
    ∃ found,
      (∀ fuel, g.vertices.length < fuel →
        containsCycle g.neighbors fuel none start = some (found, none)) ∧
      (found = true ↔ ∃ v, ReflTransGen g.Adj start v ∧ TransGen g.Adj v v) := by
  have hone : ∀ v, g.neighbors v = [] ∨ ∃ u ∈ g.vertices.toFinset, g.neighbors v = [u] := by
    intro v
    simpa using g.neighbors_of_unique (hunique v)
  have hreturns : ∀ fuel, g.vertices.length < fuel →
      ∃ found, containsCycle g.neighbors fuel none start = some (found, none) := by
    intro fuel hfuel
    have hcard := (Finset.card_filter_le g.vertices.toFinset fun v => v ∉ Option.getD none []).trans
      (List.toFinset_card_le _)
    obtain ⟨⟨found, visited⟩, h⟩ := Option.isSome_iff_exists.mp <|
      containsCycle_returns hone (by simpa using hstart) (hcard.trans_lt hfuel)
    obtain rfl := containsCycle_visited h
    exact ⟨found, h⟩
  obtain ⟨found, hfound⟩ := hreturns _ (Nat.lt_succ_self _)
  refine ⟨found, fun fuel hfuel => ?_, containsCycle_found hfound⟩
  obtain ⟨found', hfound'⟩ := hreturns fuel hfuel
  have heq : found = found' :=
    Bool.eq_iff_iff.mpr ((containsCycle_found hfound).trans (containsCycle_found hfound').symm)
  rw [heq, hfound']

/-- A vertex before a cycle of two. -/
def lasso : FinDigraph ℕ :=
  (((((FinDigraph.empty.addVertex 0).addVertex 1).addVertex 2).addEdge 0 1).addEdge 1 2).addEdge 2 1

theorem containsCycle_iff_cycle_lasso :
    containsCycle lasso.neighbors 4 none 0 = some (true, none) ∧
      ∃ v, ReflTransGen lasso.Adj 0 v ∧ TransGen lasso.Adj v v := by
  have hedges : lasso.edges = [(0, 1), (1, 2), (2, 1)] := by decide
  have hunique : ∀ v a b, lasso.Adj v a → lasso.Adj v b → a = b := by
    intro v a b ha hb
    simp only [FinDigraph.Adj, hedges, List.mem_cons, Prod.mk.injEq, List.not_mem_nil,
      or_false] at ha hb
    omega
  obtain ⟨found, hreturns, hfound⟩ := @containsCycle_iff_cycle _ _ lasso hunique 0 (by decide)
  have htrue : containsCycle lasso.neighbors 4 none 0 = some (true, none) := by decide
  have hsame := hreturns 4 (by decide)
  rw [htrue] at hsame
  exact ⟨htrue, hfound.mp (congrArg Prod.fst (Option.some.inj hsame)).symm⟩

end Cs241.Drm
