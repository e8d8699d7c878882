import Mathlib.Data.Sum.Basic
import Mathlib.Logic.Function.Basic
import Cs241.Foundation.FinDigraph

/-!
# The deadlock-resistant mutexes of `deadlock_demolition/libdrm.c`

The vertices of the resource graph are the addresses of threads and of drms. A
section under `global_mut` is one function on the world; the absent graph before
the first `drm_init` is the empty graph. `contains_cycle` keeps the vertices of
the current path in the global `visited` and sets that to `NULL` whenever it
returns.
-/
namespace Cs241.Drm

open Foundation

/-- Where a thread is between two sections under `global_mut`. -/
inductive Phase (D : Type*)
  | running
  | locking (drm : D)
  | recording (drm : D)
deriving DecidableEq

structure World (T D : Type*) where
  rag : FinDigraph (T ⊕ D)
  visited : Option (List (T ⊕ D))
  mutex : D → Option T
  phase : T → Phase D

section Cycle

variable {V : Type*} [DecidableEq V]

/-- The loop over the neighbors, with the recursive call as an argument. -/
def anyCycle (call : Option (List V) → V → Option (Bool × Option (List V))) :
    Option (List V) → List V → Option (Bool × Option (List V))
  | _, [] => some (false, none)
  | visited, v :: vs =>
    (call visited v).bind fun (found, visited) =>
      if found then some (true, visited) else anyCycle call visited vs

/-- `contains_cycle(node)`; `none` if the recursion is deeper than `fuel`. -/
def containsCycle (neighbors : V → List V) : ℕ → Option (List V) → V →
    Option (Bool × Option (List V))
  | 0, _, _ => none
  | fuel + 1, visited, node =>
    let seen := visited.getD []
    if node ∈ seen then some (true, none)
    else anyCycle (containsCycle neighbors fuel) (some (node :: seen)) (neighbors node)

end Cycle

variable {T D : Type*} [DecidableEq T] [DecidableEq D]

def World.init : World T D :=
  { rag := .empty, visited := none, mutex := fun _ => none, phase := fun _ => .running }

def drmInit (w : World T D) (drm : D) : World T D :=
  { w with rag := w.rag.addVertex (.inr drm), mutex := Function.update w.mutex drm none }

def drmPost (w : World T D) (drm : D) (thread : T) : Bool × World T D :=
  if .inr drm ∉ w.rag.vertices ∨ .inl thread ∉ w.rag.vertices ∨
      ¬ w.rag.Adj (.inr drm) (.inl thread) then
    (false, w)
  else
    (true, { w with rag := w.rag.removeEdge (.inr drm) (.inl thread),
                    mutex := Function.update w.mutex drm none })

/-- The graph in which `drm_wait` looks for a cycle. -/
def requested (w : World T D) (drm : D) (thread : T) : FinDigraph (T ⊕ D) :=
  (w.rag.addVertex (.inl thread)).addEdge (.inl thread) (.inr drm)

/-- The first section of `drm_wait`: refuse the request, or go on to lock the mutex. A path in
the graph is no longer than its number of vertices. -/
def drmWaitRequest (w : World T D) (drm : D) (thread : T) : Option (Bool × World T D) :=
  let rag := requested w drm thread
  if rag.Adj (.inr drm) (.inl thread) then
    some (false, { w with rag := rag.removeEdge (.inl thread) (.inr drm) })
  else
    (containsCycle rag.neighbors (rag.vertices.length + 1) w.visited (.inl thread)).map
      fun (found, visited) =>
        if found then
          (false, { w with rag := rag.removeEdge (.inl thread) (.inr drm), visited := visited })
        else
          (true, { w with rag := rag, visited := visited,
                          phase := Function.update w.phase thread (.locking drm) })

/-- `pthread_mutex_lock(&drm->mut)` at a time the mutex is free. -/
def drmWaitLock (w : World T D) (drm : D) (thread : T) : World T D :=
  { w with mutex := Function.update w.mutex drm (some thread),
           phase := Function.update w.phase thread (.recording drm) }

/-- The second section of `drm_wait`. -/
def drmWaitRecord (w : World T D) (drm : D) (thread : T) : World T D :=
  { w with
    rag := (w.rag.removeEdge (.inl thread) (.inr drm)).addEdge (.inr drm) (.inl thread)
    phase := Function.update w.phase thread .running }

inductive Action (T D : Type*)
  | init (drm : D)
  | request (drm : D) (thread : T)
  | lock (drm : D) (thread : T)
  | record (drm : D) (thread : T)
  | post (drm : D) (thread : T)

/-- Threads take their steps in any order. A thread starts a call when its last one has
returned, on a drm that `drm_init` has made. -/
inductive Step : World T D → Action T D → World T D → Prop
  | init {w drm} (hnew : .inr drm ∉ w.rag.vertices) : Step w (.init drm) (drmInit w drm)
  | request {w drm thread ok w'} (hphase : w.phase thread = .running)
      (hdrm : .inr drm ∈ w.rag.vertices) (h : drmWaitRequest w drm thread = some (ok, w')) :
      Step w (.request drm thread) w'
  | lock {w drm thread} (hphase : w.phase thread = .locking drm) (hfree : w.mutex drm = none) :
      Step w (.lock drm thread) (drmWaitLock w drm thread)
  | record {w drm thread} (hphase : w.phase thread = .recording drm) :
      Step w (.record drm thread) (drmWaitRecord w drm thread)
  | post {w drm thread} (hphase : w.phase thread = .running) (hdrm : .inr drm ∈ w.rag.vertices) :
      Step w (.post drm thread) (drmPost w drm thread).2

/-- `t` is blocked on the mutex of a drm that `u` owns. -/
def WaitsFor (w : World T D) (t u : T) : Prop :=
  ∃ drm, w.phase t = .locking drm ∧ w.mutex drm = some u

/-- Threads each blocked on a drm of the next one, back to the first. -/
def CircularWait (w : World T D) : Prop := ∃ t, Relation.TransGen (WaitsFor w) t t

end Cs241.Drm
