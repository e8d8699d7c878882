import Mathlib.Data.List.Basic
import Mathlib.Data.List.Nodup
import Mathlib.Data.Set.Finite.Basic
import Mathlib.Order.WellFounded
import Mathlib.Logic.Relation

/-!
# Directed graphs that change

A finite directed graph keeps its edges between its vertices, both in the order
in which they were added. Adding an edge keeps a graph acyclic when no path
leads back from the new edge, or when the new edge ends in a vertex without
outgoing edges.
-/
namespace Cs241.Foundation

open Relation

structure FinDigraph (V : Type*) where
  vertices : List V
  edges : List (V × V)
  nodup : edges.Nodup
  closed : ∀ e ∈ edges, e.1 ∈ vertices ∧ e.2 ∈ vertices

namespace FinDigraph

variable {V : Type*} (g : FinDigraph V) {a b c d v w : V}

def empty : FinDigraph V := { vertices := [], edges := [], nodup := .nil, closed := by simp }

/-- `a` has an edge to `b`. -/
def Adj (a b : V) : Prop := (a, b) ∈ g.edges

/-- No vertex lies on a cycle. -/
def Acyclic : Prop := ∀ v, ¬ TransGen g.Adj v v

variable [DecidableEq V]

instance (a b : V) : Decidable (g.Adj a b) := inferInstanceAs (Decidable ((a, b) ∈ g.edges))

instance (v : V) : Decidable (v ∈ g.vertices) := List.instDecidableMemOfLawfulBEq v g.vertices

def neighbors (v : V) : List V := (g.edges.filter fun e => e.1 = v).map Prod.snd

def antineighbors (v : V) : List V := (g.edges.filter fun e => e.2 = v).map Prod.fst

/-- Add a vertex, unless it is there. -/
def addVertex (v : V) : FinDigraph V :=
  { g with
    vertices := if v ∈ g.vertices then g.vertices else g.vertices ++ [v]
    closed := by
      intro e he
      split_ifs
      · exact g.closed e he
      · exact ⟨List.mem_append_left _ (g.closed e he).1, List.mem_append_left _ (g.closed e he).2⟩ }

/-- Add an edge between two vertices of the graph. -/
def addEdge (a b : V) : FinDigraph V :=
  if h : (a ∈ g.vertices ∧ b ∈ g.vertices) ∧ ¬ g.Adj a b then
    { g with
      edges := g.edges ++ [(a, b)]
      nodup := List.nodup_append_comm.mpr (List.nodup_cons.mpr ⟨h.2, g.nodup⟩)
      closed := by
        intro e he
        rcases List.mem_append.mp he with he | he
        exacts [g.closed e he, List.mem_singleton.mp he ▸ h.1] }
  else g

def removeEdge (a b : V) : FinDigraph V :=
  { g with
    edges := g.edges.filter fun e => e ≠ (a, b)
    nodup := g.nodup.filter _
    closed := fun e he => g.closed e (List.mem_filter.mp he).1 }

/-- Remove a vertex with its edges. -/
def removeVertex (v : V) : FinDigraph V :=
  { vertices := g.vertices.filter fun w => w ≠ v
    edges := g.edges.filter fun e => e.1 ≠ v ∧ e.2 ≠ v
    nodup := g.nodup.filter _
    closed := by
      intro e he
      obtain ⟨hedge, hends⟩ := List.mem_filter.mp he
      simp only [decide_eq_true_eq] at hends
      have hclosed := g.closed e hedge
      simp [hclosed, hends] }

@[simp] theorem mem_neighbors : w ∈ g.neighbors v ↔ g.Adj v w := by
  simp [neighbors, Adj]

@[simp] theorem mem_antineighbors : v ∈ g.antineighbors w ↔ g.Adj v w := by
  simp [antineighbors, Adj]

theorem nodup_neighbors (v : V) : (g.neighbors v).Nodup := by
  apply (g.nodup.filter _).map_on
  rintro ⟨a, b⟩ hab ⟨c, d⟩ hcd rfl
  simp only [List.mem_filter, decide_eq_true_eq] at hab hcd
  rw [hab.2, hcd.2]

theorem nodup_antineighbors (v : V) : (g.antineighbors v).Nodup := by
  apply (g.nodup.filter _).map_on
  rintro ⟨a, b⟩ hab ⟨c, d⟩ hcd rfl
  simp only [List.mem_filter, decide_eq_true_eq] at hab hcd
  rw [hab.2, hcd.2]

/-- A vertex with at most one outgoing edge has at most one neighbor in its list. -/
theorem neighbors_of_unique (h : ∀ a b, g.Adj v a → g.Adj v b → a = b) :
    g.neighbors v = [] ∨ ∃ u ∈ g.vertices, g.neighbors v = [u] := by
  match hn : g.neighbors v with
  | [] => exact .inl rfl
  | u :: us =>
    have hu : g.Adj v u := (g.mem_neighbors).mp (hn ▸ List.mem_cons_self)
    have hnil : us = [] := by
      apply List.eq_nil_iff_forall_not_mem.mpr
      intro x hx
      have hxv : g.Adj v x := (g.mem_neighbors).mp (hn ▸ List.mem_cons_of_mem _ hx)
      have hnodup := hn ▸ g.nodup_neighbors v
      exact (List.nodup_cons.mp hnodup).1 (h _ _ hu hxv ▸ hx)
    exact .inr ⟨u, (g.closed _ hu).2, by rw [hnil]⟩

@[simp] theorem adj_addVertex : (g.addVertex v).Adj a b ↔ g.Adj a b := Iff.rfl

@[simp] theorem mem_addVertex : w ∈ (g.addVertex v).vertices ↔ w = v ∨ w ∈ g.vertices := by
  unfold addVertex
  dsimp only
  split_ifs with h
  · exact ⟨.inr, fun hw => hw.elim (fun hv => hv ▸ h) id⟩
  · simp [or_comm]

@[simp] theorem vertices_addEdge : (g.addEdge a b).vertices = g.vertices := by
  unfold addEdge
  split_ifs <;> rfl

variable {g}

omit [DecidableEq V] in
theorem Adj.left_mem (h : g.Adj a b) : a ∈ g.vertices := (g.closed _ h).1

omit [DecidableEq V] in
theorem Adj.right_mem (h : g.Adj a b) : b ∈ g.vertices := (g.closed _ h).2

theorem adj_addEdge (ha : a ∈ g.vertices) (hb : b ∈ g.vertices) :
    (g.addEdge a b).Adj v w ↔ g.Adj v w ∨ (v = a ∧ w = b) := by
  unfold addEdge
  split_ifs with h
  · simp [Adj]
  · have hab : g.Adj a b := by
      by_contra hab
      exact h ⟨⟨ha, hb⟩, hab⟩
    constructor
    · exact .inl
    · rintro (hvw | ⟨rfl, rfl⟩)
      exacts [hvw, hab]

@[simp] theorem adj_removeEdge : (g.removeEdge a b).Adj v w ↔ g.Adj v w ∧ ¬ (v = a ∧ w = b) := by
  simp [Adj, removeEdge, imp_iff_not_or]

@[simp] theorem adj_removeVertex :
    (g.removeVertex v).Adj a b ↔ g.Adj a b ∧ a ≠ v ∧ b ≠ v := by
  simp [Adj, removeVertex]

@[simp] theorem mem_removeVertex : w ∈ (g.removeVertex v).vertices ↔ w ∈ g.vertices ∧ w ≠ v := by
  simp [removeVertex]

section Acyclic

omit [DecidableEq V]

/-- A vertex from which every path ends lies on no cycle. -/
theorem not_transGen_of_acc {r : V → V → Prop} (h : Acc (fun b a => r a b) v) :
    ¬ TransGen r v v := by
  intro hv
  have hloop : Acc (TransGen fun b a => r a b) v := h.transGen
  have hback : TransGen (fun b a => r a b) v v := transGen_swap.mpr hv
  clear h hv
  induction hloop with
  | intro v _ ih => exact ih v hback hback

/-- Among vertices that lie on no cycle there is one with no edge to another of them. -/
theorem exists_sink {s : V → Prop} (hmem : ∀ v, s v → v ∈ g.vertices)
    (hac : ∀ v, s v → ¬ TransGen g.Adj v v) (hne : ∃ v, s v) :
    ∃ v, s v ∧ ∀ u, g.Adj v u → ¬ s u := by
  have hfinite : Finite { v // s v } :=
    ((List.finite_toSet g.vertices).subset fun v hv => hmem v hv).to_subtype
  let below : { v // s v } → { v // s v } → Prop := fun a b => TransGen g.Adj b a
  have htrans : IsTrans _ below := ⟨fun _ _ _ hab hbc => hbc.trans hab⟩
  have hirrefl : Std.Irrefl below := ⟨fun a ha => hac a a.2 ha⟩
  obtain ⟨v, hv⟩ := hne
  obtain ⟨m, -, hmin⟩ := (Finite.wellFounded_of_trans_of_irrefl below).has_min Set.univ
    ⟨⟨v, hv⟩, trivial⟩
  exact ⟨m, m.2, fun u hu hs => hmin ⟨u, hs⟩ trivial (.single hu)⟩

theorem Acyclic.mono {g' : FinDigraph V} (h : g.Acyclic) (hsub : ∀ v w, g'.Adj v w → g.Adj v w) :
    g'.Acyclic := fun v hv => h v (TransGen.mono hsub v v hv)

/-- A path of the larger graph either avoids the new edge or passes through its start. -/
theorem transGen_addEdge {g' : FinDigraph V}
    (hadj : ∀ v w, g'.Adj v w → g.Adj v w ∨ (v = a ∧ w = b))
    (h : TransGen g'.Adj v w) : TransGen g.Adj v w ∨ (ReflTransGen g'.Adj v a ∧
      TransGen g'.Adj a w) := by
  induction h with
  | single hvw =>
    rcases hadj _ _ hvw with hold | ⟨rfl, rfl⟩
    · exact .inl (.single hold)
    · exact .inr ⟨.refl, .single hvw⟩
  | tail hpath hstep ih =>
    rcases ih with hold | ⟨hva, haw⟩
    · rcases hadj _ _ hstep with hedge | ⟨rfl, rfl⟩
      · exact .inl (hold.tail hedge)
      · exact .inr ⟨hpath.to_reflTransGen, .single hstep⟩
    · exact .inr ⟨hva, haw.tail hstep⟩

/-- A new edge that lies on no cycle keeps the graph acyclic. -/
theorem Acyclic.addEdge {g' : FinDigraph V} (h : g.Acyclic)
    (hadj : ∀ v w, g'.Adj v w → g.Adj v w ∨ (v = a ∧ w = b)) (ha : ¬ TransGen g'.Adj a a) :
    g'.Acyclic := by
  intro v hv
  rcases transGen_addEdge hadj hv with hold | ⟨hva, hav⟩
  · exact h v hold
  · exact ha (hav.trans_left hva)

/-- A new edge to a vertex without outgoing edges keeps the graph acyclic. -/
theorem Acyclic.addEdge_sink {g' : FinDigraph V} (h : g.Acyclic)
    (hadj : ∀ v w, g'.Adj v w → g.Adj v w ∨ (v = a ∧ w = b)) (hb : ∀ w, ¬ g'.Adj b w) :
    g'.Acyclic := by
  have hend : ∀ {v w}, TransGen g'.Adj v w → TransGen g.Adj v w ∨ w = b := by
    intro v w hvw
    induction hvw with
    | single hstep => exact (hadj _ _ hstep).imp .single And.right
    | tail _ hstep ih =>
      rcases ih with hold | rfl
      · exact (hadj _ _ hstep).imp hold.tail And.right
      · exact absurd hstep (hb _)
  intro v hv
  rcases hend hv with hold | rfl
  · exact h v hold
  · obtain ⟨w, hw, -⟩ := TransGen.head'_iff.mp hv
    exact hb w hw

end Acyclic

end FinDigraph

end Cs241.Foundation
