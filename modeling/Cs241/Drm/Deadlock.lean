import Mathlib.Data.Finset.Card
import Cs241.Drm.Model
import Cs241.Foundation.Runs

/-!
# No circular wait

The resource graph lags behind the mutexes: a thread that has locked a mutex
has its hold edge recorded only in its next section. The invariant says exactly
which edges there are, and that they form no cycle.
-/
namespace Cs241.Drm

open Foundation Relation

/-! ## The search for a cycle -/

section Cycle

variable {V : Type*} [DecidableEq V] {neighbors : V → List V} {fuel : ℕ}
  {visited visited' : Option (List V)} {node : V} {found : Bool}

omit [DecidableEq V] in
theorem anyCycle_visited {call : Option (List V) → V → Option (Bool × Option (List V))}
    (hcall : ∀ {visited v found visited'},
      call visited v = some (found, visited') → visited' = none)
    {vs : List V} (h : anyCycle call visited vs = some (found, visited')) : visited' = none := by
  induction vs generalizing visited with
  | nil =>
    obtain ⟨-, rfl⟩ := Prod.mk.inj (Option.some.inj h)
    rfl
  | cons v vs ih =>
    obtain ⟨⟨b, u⟩, hv, h⟩ := Option.bind_eq_some_iff.mp h
    dsimp only at h
    split_ifs at h
    · obtain ⟨-, rfl⟩ := Prod.mk.inj (Option.some.inj h)
      exact hcall hv
    · exact ih h

omit [DecidableEq V] in
theorem anyCycle_false {call : Option (List V) → V → Option (Bool × Option (List V))} {vs : List V}
    (h : anyCycle call visited vs = some (false, visited')) :
    ∀ v ∈ vs, ∃ visited visited', call visited v = some (false, visited') := by
  induction vs generalizing visited with
  | nil => simp
  | cons v vs ih =>
    obtain ⟨⟨b, u⟩, hv, h⟩ := Option.bind_eq_some_iff.mp h
    cases b with
    | true => exact absurd (congrArg Prod.fst (Option.some.inj h)) (by simp)
    | false =>
      intro x hx
      rcases List.mem_cons.mp hx with rfl | hx
      exacts [⟨visited, u, hv⟩, ih h x hx]

/-- Every return resets `visited`. -/
theorem containsCycle_visited :
    ∀ {fuel : ℕ} {visited : Option (List V)} {node : V} {found : Bool} {visited' : Option (List V)},
      containsCycle neighbors fuel visited node = some (found, visited') → visited' = none
  | 0, _, _, _, _, h => by simp [containsCycle] at h
  | fuel + 1, visited, node, found, visited', h => by
    rw [containsCycle] at h
    split_ifs at h with hseen
    · obtain ⟨-, rfl⟩ := Prod.mk.inj (Option.some.inj h)
      rfl
    · exact anyCycle_visited containsCycle_visited h

/-- When no cycle is found, every path from the node ends. -/
theorem acc_of_containsCycle_false :
    ∀ {fuel : ℕ} {visited : Option (List V)} {node : V} {visited' : Option (List V)},
      containsCycle neighbors fuel visited node = some (false, visited') →
        Acc (fun b a => b ∈ neighbors a) node
  | 0, _, _, _, h => by simp [containsCycle] at h
  | fuel + 1, visited, node, visited', h => by
    rw [containsCycle] at h
    split_ifs at h with hseen
    · simp at h
    · refine ⟨_, fun next hnext => ?_⟩
      obtain ⟨_, _, hcall⟩ := anyCycle_false h next hnext
      exact acc_of_containsCycle_false hcall

/-- Where no vertex has two neighbors the search returns: each call on the path has marked
another vertex. -/
theorem containsCycle_returns {vertices : Finset V}
    (hone : ∀ v, neighbors v = [] ∨ ∃ u ∈ vertices, neighbors v = [u]) :
    ∀ {fuel : ℕ} {visited : Option (List V)} {node : V}, node ∈ vertices →
      (vertices.filter fun v => v ∉ visited.getD []).card < fuel →
        (containsCycle neighbors fuel visited node).isSome
  | 0, _, _, _, h => absurd h (Nat.not_lt_zero _)
  | fuel + 1, visited, node, hnode, h => by
    rw [containsCycle]
    split_ifs with hseen
    · rfl
    · rcases hone node with hnil | ⟨u, hu, hcons⟩
      · rw [hnil]
        rfl
      · have hsub : (vertices.filter fun v => v ∉ (some (node :: visited.getD [])).getD []).card <
            (vertices.filter fun v => v ∉ visited.getD []).card := by
          apply Finset.card_lt_card
          refine ⟨fun v hv => ?_, fun hback => ?_⟩
          · simp only [Option.getD_some, Finset.mem_filter, List.mem_cons, not_or] at hv ⊢
            exact ⟨hv.1, hv.2.2⟩
          · have hin := hback (Finset.mem_filter.mpr ⟨hnode, hseen⟩)
            simp at hin
        obtain ⟨⟨b, u'⟩, hb⟩ := Option.isSome_iff_exists.mp <|
          containsCycle_returns hone hu (hsub.trans_le (Nat.le_of_lt_succ h))
        rw [hcons, anyCycle, hb, Option.bind_some]
        cases b <;> rfl

theorem containsCycle_length_returns {vertices : List V}
    (hone : ∀ v, neighbors v = [] ∨ ∃ u ∈ vertices, neighbors v = [u]) (hnode : node ∈ vertices) :
    (containsCycle neighbors (vertices.length + 1) visited node).isSome := by
  have hone' : ∀ v, neighbors v = [] ∨ ∃ u ∈ vertices.toFinset, neighbors v = [u] := by
    simpa using hone
  apply containsCycle_returns hone' (by simpa using hnode)
  exact Nat.lt_succ_of_le ((Finset.card_filter_le _ _).trans (List.toFinset_card_le _))

end Cycle

variable {T D : Type*} {w : World T D}

/-- The drm that a thread has requested and not yet recorded as its own. -/
def Phase.pending : Phase D → Option D
  | .running => none
  | .locking drm => some drm
  | .recording drm => some drm

/-- The edges of the resource graph: a thread points to the drm it has requested, a drm to the
owner of its mutex once that is recorded. -/
structure Inv (w : World T D) : Prop where
  visited : w.visited = none
  thread_adj : ∀ t v, w.rag.Adj (.inl t) v ↔ ∃ d, v = .inr d ∧ (w.phase t).pending = some d
  drm_adj : ∀ d v, w.rag.Adj (.inr d) v ↔
    ∃ t, v = .inl t ∧ w.mutex d = some t ∧ w.phase t ≠ .recording d
  recording : ∀ {t d}, w.phase t = .recording d → w.mutex d = some t
  acyclic : w.rag.Acyclic

theorem inv_init : Inv (World.init : World T D) where
  visited := rfl
  thread_adj := by simp [World.init, FinDigraph.Adj, FinDigraph.empty, Phase.pending]
  drm_adj := by simp [World.init, FinDigraph.Adj, FinDigraph.empty]
  recording := by simp [World.init]
  acyclic := by
    intro v hv
    obtain ⟨u, hu, -⟩ := TransGen.head'_iff.mp hv
    simp [World.init, FinDigraph.Adj, FinDigraph.empty] at hu

namespace Inv

variable (hi : Inv w) {t u : T} {d : D}
include hi

/-- In a state without pending edges of its own kind no vertex has two outgoing edges. -/
theorem adj_unique {v a b : T ⊕ D} (ha : w.rag.Adj v a) (hb : w.rag.Adj v b) : a = b := by
  cases v with
  | inl t =>
    obtain ⟨d, rfl, hd⟩ := (hi.thread_adj t a).mp ha
    obtain ⟨e, rfl, he⟩ := (hi.thread_adj t b).mp hb
    rw [hd] at he
    exact congrArg _ (Option.some.inj he)
  | inr d =>
    obtain ⟨t, rfl, ht, -⟩ := (hi.drm_adj d a).mp ha
    obtain ⟨u, rfl, hu, -⟩ := (hi.drm_adj d b).mp hb
    rw [ht] at hu
    exact congrArg _ (Option.some.inj hu)

/-- A drm that was not made has no owner. -/
theorem unmade (hd : Sum.inr d ∉ w.rag.vertices) : w.mutex d = none := by
  by_contra hne
  obtain ⟨t, ht⟩ := Option.ne_none_iff_exists'.mp hne
  by_cases hphase : w.phase t = .recording d
  · have hadj := (hi.thread_adj t (.inr d)).mpr ⟨d, rfl, by simp [hphase, Phase.pending]⟩
    exact hd hadj.right_mem
  · exact hd ((hi.drm_adj d (.inl t)).mpr ⟨t, rfl, ht, hphase⟩).left_mem

theorem not_adj_running (hphase : w.phase t = .running) (v : T ⊕ D) : ¬ w.rag.Adj (.inl t) v := by
  rw [hi.thread_adj, hphase]
  simp [Phase.pending]

variable [DecidableEq T] [DecidableEq D]

theorem init (hd : Sum.inr d ∉ w.rag.vertices) : Inv (drmInit w d) where
  visited := hi.visited
  thread_adj := hi.thread_adj
  drm_adj := by
    have hnone := hi.unmade hd
    simpa [drmInit, ← hnone] using hi.drm_adj
  recording := by
    intro t e he
    have hnone := hi.unmade hd
    simpa [drmInit, ← hnone] using hi.recording he
  acyclic := hi.acyclic

omit hi in
theorem adj_requested (hd : Sum.inr d ∈ w.rag.vertices) (a b : T ⊕ D) :
    (requested w d t).Adj a b ↔ w.rag.Adj a b ∨ (a = .inl t ∧ b = .inr d) := by
  rw [requested, FinDigraph.adj_addEdge (by simp) (by simp [hd]), FinDigraph.adj_addVertex]

/-- Taking the request back leaves the edges as they were. -/
theorem adj_refused (hphase : w.phase t = .running) (hd : Sum.inr d ∈ w.rag.vertices)
    (a b : T ⊕ D) : ((requested w d t).removeEdge (.inl t) (.inr d)).Adj a b ↔ w.rag.Adj a b := by
  rw [FinDigraph.adj_removeEdge, adj_requested hd]
  constructor
  · rintro ⟨hab | hab, hne⟩
    exacts [hab, absurd hab hne]
  · refine fun hab => ⟨.inl hab, ?_⟩
    rintro ⟨rfl, rfl⟩
    exact hi.not_adj_running hphase _ hab

omit [DecidableEq T] [DecidableEq D] in
/-- A world with the same edges and threads satisfies the invariant too. -/
theorem of_adj {g : FinDigraph (T ⊕ D)} (hg : ∀ a b, g.Adj a b ↔ w.rag.Adj a b) :
    Inv { w with rag := g, visited := none } where
  visited := rfl
  thread_adj := fun t v => (hg _ _).trans (hi.thread_adj t v)
  drm_adj := fun d v => (hg _ _).trans (hi.drm_adj d v)
  recording := hi.recording
  acyclic := hi.acyclic.mono fun a b => (hg a b).mp

theorem accepted (hphase : w.phase t = .running) (hd : Sum.inr d ∈ w.rag.vertices)
    (hacc : Acc (fun b a => (requested w d t).Adj a b) (Sum.inl t)) :
    Inv { w with rag := requested w d t, visited := none,
                 phase := Function.update w.phase t (.locking d) } where
  visited := rfl
  thread_adj := by
    intro u v
    rw [adj_requested hd, hi.thread_adj]
    by_cases hu : u = t
    · subst hu
      simp [hphase, Phase.pending]
    · simp [hu]
  drm_adj := by
    intro e v
    rw [adj_requested hd, hi.drm_adj]
    simp only [reduceCtorEq, false_and, or_false]
    refine exists_congr fun u => and_congr_right fun _ => and_congr_right fun _ => ?_
    by_cases hu : u = t
    · simp [hu, hphase]
    · simp [hu]
  recording := by
    intro u e he
    by_cases hu : u = t
    · simp [hu] at he
    · simp only [Function.update_of_ne hu] at he
      exact hi.recording he
  acyclic := hi.acyclic.addEdge (fun a b => (adj_requested hd a b).mp)
    (FinDigraph.not_transGen_of_acc hacc)

theorem request {ok : Bool} {w' : World T D} (hphase : w.phase t = .running)
    (hd : Sum.inr d ∈ w.rag.vertices) (h : drmWaitRequest w d t = some (ok, w')) : Inv w' := by
  unfold drmWaitRequest at h
  dsimp only at h
  split_ifs at h with hadj
  · obtain ⟨-, rfl⟩ := Prod.mk.inj (Option.some.inj h)
    have href := hi.of_adj (hi.adj_refused hphase hd)
    rwa [← hi.visited] at href
  · obtain ⟨⟨found, visited⟩, hc, h⟩ := Option.map_eq_some_iff.mp h
    obtain rfl := containsCycle_visited hc
    cases found with
    | true =>
      obtain ⟨-, rfl⟩ := Prod.mk.inj h
      exact hi.of_adj (hi.adj_refused hphase hd)
    | false =>
      obtain ⟨-, rfl⟩ := Prod.mk.inj h
      have hacc := acc_of_containsCycle_false hc
      simp only [FinDigraph.mem_neighbors] at hacc
      exact hi.accepted hphase hd hacc

theorem lock (hphase : w.phase t = .locking d) (hfree : w.mutex d = none) :
    Inv (drmWaitLock w d t) where
  visited := hi.visited
  thread_adj := by
    intro u v
    by_cases hu : u = t
    · subst hu
      simpa [drmWaitLock, hphase, Phase.pending] using hi.thread_adj u v
    · simpa [drmWaitLock, hu] using hi.thread_adj u v
  drm_adj := by
    intro e v
    by_cases he : e = d
    · subst he
      have hnone : ¬ w.rag.Adj (.inr e) v := by simp [hi.drm_adj, hfree]
      simp [drmWaitLock, hnone]
    · have hlocks : ∀ u, Function.update w.phase t (.recording d) u ≠ .recording e ↔
          w.phase u ≠ .recording e := by
        intro u
        by_cases hu : u = t
        · simp [hu, hphase, Ne.symm he]
        · simp [hu]
      simpa [drmWaitLock, he, hlocks] using hi.drm_adj e v
  recording := by
    intro u e hu
    by_cases hut : u = t
    · subst hut
      obtain rfl : d = e := by simpa [drmWaitLock] using hu
      simp [drmWaitLock]
    · simp only [drmWaitLock, Function.update_of_ne hut] at hu
      have howner := hi.recording hu
      have hne : e ≠ d := by
        rintro rfl
        simp [hfree] at howner
      simpa [drmWaitLock, hne] using howner
  acyclic := hi.acyclic

omit [DecidableEq T] [DecidableEq D] in
theorem adj_recording (hphase : w.phase t = .recording d) : w.rag.Adj (.inl t) (.inr d) :=
  (hi.thread_adj t _).mpr ⟨d, rfl, by simp [hphase, Phase.pending]⟩

/-- The edge of the request becomes one of ownership. -/
theorem adj_recorded (hphase : w.phase t = .recording d) (a b : T ⊕ D) :
    (drmWaitRecord w d t).rag.Adj a b ↔
      (w.rag.Adj a b ∧ ¬ (a = .inl t ∧ b = .inr d)) ∨ (a = .inr d ∧ b = .inl t) := by
  have hedge := hi.adj_recording hphase
  have hadd := FinDigraph.adj_addEdge (g := w.rag.removeEdge (.inl t) (.inr d)) (v := a) (w := b)
    hedge.right_mem hedge.left_mem
  exact hadd.trans (or_congr FinDigraph.adj_removeEdge Iff.rfl)

theorem record (hphase : w.phase t = .recording d) : Inv (drmWaitRecord w d t) := by
  have hedge := hi.adj_recording hphase
  have howner := hi.recording hphase
  have hadj := hi.adj_recorded hphase
  have hends : ∀ v, ¬ (drmWaitRecord w d t).rag.Adj (.inl t) v := by
    intro v hv
    rcases (hadj _ _).mp hv with ⟨hold, hne⟩ | ⟨hbad, -⟩
    · exact hne ⟨rfl, hi.adj_unique hold hedge⟩
    · simp at hbad
  refine ⟨hi.visited, ?_, ?_, ?_, ?_⟩
  · intro u v
    by_cases hu : u = t
    · subst hu
      simpa [drmWaitRecord, Phase.pending] using hends v
    · rw [hadj, hi.thread_adj]
      simp [hu, drmWaitRecord]
  · intro e v
    rw [hadj, hi.drm_adj]
    by_cases he : e = d
    · subst he
      constructor
      · rintro (⟨⟨u, rfl, hu, hne⟩, -⟩ | ⟨-, rfl⟩)
        · rw [howner] at hu
          exact absurd hphase (Option.some.inj hu ▸ hne)
        · exact ⟨t, rfl, howner, by simp [drmWaitRecord]⟩
      · rintro ⟨u, rfl, hu, -⟩
        change w.mutex e = some u at hu
        rw [howner] at hu
        exact .inr ⟨rfl, congrArg _ (Option.some.inj hu).symm⟩
    · have hlocks : ∀ u, Function.update w.phase t .running u ≠ .recording e ↔
          w.phase u ≠ .recording e := by
        intro u
        by_cases hu : u = t
        · simp [hu, hphase, Ne.symm he]
        · simp [hu]
      simp [drmWaitRecord, he, hlocks]
  · intro u e hu
    by_cases hut : u = t
    · simp [drmWaitRecord, hut] at hu
    · simp only [drmWaitRecord, Function.update_of_ne hut] at hu
      exact hi.recording hu
  · have hless : (w.rag.removeEdge (.inl t) (.inr d)).Acyclic :=
      hi.acyclic.mono fun a b hab => (FinDigraph.adj_removeEdge.mp hab).1
    exact hless.addEdge_sink (fun a b hab => by simpa using (hadj a b).mp hab) hends

theorem post : Inv (drmPost w d t).2 := by
  unfold drmPost
  split_ifs with hrefused
  · exact hi
  · have hedge : w.rag.Adj (.inr d) (.inl t) := by
      by_contra hno
      exact hrefused (.inr (.inr hno))
    obtain ⟨_, ht, howner, hne⟩ := (hi.drm_adj d _).mp hedge
    obtain rfl := Sum.inl.inj ht
    refine ⟨hi.visited, ?_, ?_, ?_, ?_⟩
    · intro u v
      simp [hi.thread_adj]
    · intro e v
      rw [FinDigraph.adj_removeEdge, hi.drm_adj]
      by_cases he : e = d
      · subst he
        simp only [Function.update_self, howner]
        constructor
        · rintro ⟨⟨u, rfl, hu, -⟩, hother⟩
          exact absurd ⟨trivial, congrArg _ (Option.some.inj hu).symm⟩ hother
        · simp
      · simp [he]
    · intro u e hu
      have hu' := hi.recording hu
      have hed : e ≠ d := by
        rintro rfl
        rw [howner] at hu'
        obtain rfl := Option.some.inj hu'
        exact hne hu
      simpa [hed] using hu'
    · exact hi.acyclic.mono fun a b hab => (FinDigraph.adj_removeEdge.mp hab).1

theorem step {a : Action T D} {w' : World T D} (hs : Step w a w') : Inv w' := by
  cases hs with
  | init hnew => exact hi.init hnew
  | request hphase hdrm h => exact hi.request hphase hdrm h
  | lock hphase hfree => exact hi.lock hphase hfree
  | record hphase => exact hi.record hphase
  | post hphase hdrm => exact hi.post

/-- The search for a cycle returns. -/
theorem request_returns (hphase : w.phase t = .running) (hd : Sum.inr d ∈ w.rag.vertices) :
    (drmWaitRequest w d t).isSome := by
  unfold drmWaitRequest
  dsimp only
  split_ifs with hadj
  · rfl
  · rw [Option.isSome_map]
    have hone : ∀ v, (requested w d t).neighbors v = [] ∨
        ∃ u ∈ (requested w d t).vertices, (requested w d t).neighbors v = [u] := by
      refine fun v => FinDigraph.neighbors_of_unique _ fun a b ha hb => ?_
      rcases (adj_requested hd _ _).mp ha with ha | ⟨rfl, rfl⟩
      · rcases (adj_requested hd _ _).mp hb with hb | ⟨rfl, rfl⟩
        exacts [hi.adj_unique ha hb, absurd ha (hi.not_adj_running hphase _)]
      · rcases (adj_requested hd _ _).mp hb with hb | ⟨-, rfl⟩
        exacts [absurd hb (hi.not_adj_running hphase _), rfl]
    have hmem : Sum.inl t ∈ (requested w d t).vertices := by simp [requested]
    exact containsCycle_length_returns hone hmem

end Inv

/-- A blocked thread that waits for another blocked thread has a path to it in the graph. -/
theorem Inv.transGen_adj (hi : Inv w) {t u : T} (h : TransGen (WaitsFor w) t u)
    (hu : ∃ d, w.phase u = .locking d) : TransGen w.rag.Adj (.inl t) (.inl u) := by
  have hlink : ∀ {a b : T}, WaitsFor w a b → (∃ d, w.phase b = .locking d) →
      TransGen w.rag.Adj (.inl a) (.inl b) := by
    rintro a b ⟨d, hphase, howner⟩ ⟨e, he⟩
    have hwait : w.rag.Adj (.inl a) (.inr d) :=
      (hi.thread_adj a _).mpr ⟨d, rfl, by simp [hphase, Phase.pending]⟩
    have hhold : w.rag.Adj (.inr d) (.inl b) :=
      (hi.drm_adj d _).mpr ⟨b, rfl, howner, by simp [he]⟩
    exact .tail (.single hwait) hhold
  induction h using TransGen.head_induction_on with
  | single hab => exact hlink hab hu
  | head hac hcb ih =>
    obtain ⟨_, ⟨d, hphase, -⟩, -⟩ := TransGen.head'_iff.mp hcb
    exact (hlink hac ⟨d, hphase⟩).trans ih

/-- No interleaving of `drm_init`, `drm_wait` and `drm_post` reaches a circular wait. -/
theorem run_not_circularWait [DecidableEq T] [DecidableEq D] {as : List (Action T D)}
    (hr : Run Step World.init as w) : ¬ CircularWait w := by
  have hi : Inv w := hr.invariant inv_init fun hi hs => hi.step hs
  rintro ⟨t, ht⟩
  obtain ⟨_, ⟨d, hphase, -⟩, -⟩ := TransGen.head'_iff.mp ht
  exact hi.acyclic _ (hi.transGen_adj ht ⟨d, hphase⟩)

/-- Thread 1 is blocked on the drm of thread 0. -/
theorem run_not_circularWait_blocked :
    ∃ w : World ℕ ℕ, WaitsFor w 1 0 ∧ ¬ CircularWait w := by
  let w₁ : World ℕ ℕ := drmInit World.init 0
  let w₂ : World ℕ ℕ :=
    { w₁ with rag := requested w₁ 0 0, phase := Function.update w₁.phase 0 (.locking 0) }
  let w₃ := drmWaitRecord (drmWaitLock w₂ 0 0) 0 0
  have h₁ : drmWaitRequest w₁ 0 0 = some (true, w₂) := rfl
  have h₃ : (drmWaitRequest w₃ 0 1).map (fun r => (r.2.phase 1, r.2.mutex 0)) =
      some (.locking 0, some 0) := by decide +kernel
  obtain ⟨⟨ok, w⟩, h, hw⟩ := Option.map_eq_some_iff.mp h₃
  obtain ⟨hphase, howner⟩ := Prod.mk.inj hw
  have hr : Run Step World.init [.init 0, .request 0 0, .lock 0 0, .record 0 0, .request 0 1] w :=
    .head (.init (by decide)) <| .head (.request rfl (by decide) h₁) <| .head (.lock rfl rfl) <|
      .head (.record rfl) <| .single (.request rfl (by decide) h)
  exact ⟨w, ⟨0, hphase, howner⟩, run_not_circularWait hr⟩

/-! ## The graph and the mutexes -/

/-- `drm_post` returns 1 exactly for an edge from the drm to the thread. -/
theorem drmPost_fst [DecidableEq T] [DecidableEq D] (w : World T D) (d : D) (t : T) :
    (drmPost w d t).1 = true ↔ w.rag.Adj (.inr d) (.inl t) := by
  unfold drmPost
  split_ifs with hrefused
  · refine ⟨fun hfalse => absurd hfalse (by simp), fun hadj => ?_⟩
    rcases hrefused with hd | ht | hnot
    · exact absurd hadj.left_mem hd
    · exact absurd hadj.right_mem ht
    · exact absurd hadj hnot
  · refine ⟨fun _ => ?_, fun _ => rfl⟩
    by_contra hno
    exact hrefused (.inr (.inr hno))

theorem drmPost_refused [DecidableEq T] [DecidableEq D] {d : D} {t : T}
    (h : (drmPost w d t).1 = false) : (drmPost w d t).2 = w := by
  unfold drmPost at h ⊢
  split_ifs at h ⊢ with hrefused
  rfl

/-- A request that is refused is taken back. -/
theorem Inv.drmWait_refused [DecidableEq T] [DecidableEq D] (hi : Inv w) {d : D} {t : T}
    {w' : World T D} (hphase : w.phase t = .running) (hd : Sum.inr d ∈ w.rag.vertices)
    (h : drmWaitRequest w d t = some (false, w')) :
    (∀ a b, w'.rag.Adj a b ↔ w.rag.Adj a b) ∧ w'.mutex = w.mutex := by
  unfold drmWaitRequest at h
  dsimp only at h
  split_ifs at h with hadj
  · obtain ⟨-, rfl⟩ := Prod.mk.inj (Option.some.inj h)
    exact ⟨hi.adj_refused hphase hd, rfl⟩
  · obtain ⟨⟨found, visited⟩, -, h⟩ := Option.map_eq_some_iff.mp h
    cases found with
    | true =>
      obtain ⟨-, rfl⟩ := Prod.mk.inj h
      exact ⟨hi.adj_refused hphase hd, rfl⟩
    | false => exact absurd (Prod.mk.inj h).1 (by simp)

/-- In every reachable state the resource graph agrees with the mutexes, `drm_post` goes by the
edge that it is to remove, and a call that is refused leaves the edges and the mutexes as they
were. -/
theorem run_rag [DecidableEq T] [DecidableEq D] {as : List (Action T D)}
    (hr : Run Step World.init as w) :
    (∀ v a b, w.rag.Adj v a → w.rag.Adj v b → a = b) ∧
    (∀ d t, w.rag.Adj (.inr d) (.inl t) → w.mutex d = some t) ∧
    (∀ d t, ((drmPost w d t).1 = true ↔ w.rag.Adj (.inr d) (.inl t)) ∧
      ((drmPost w d t).1 = false → (drmPost w d t).2.rag = w.rag ∧
        (drmPost w d t).2.mutex = w.mutex)) ∧
    ∀ d t w', w.phase t = .running → .inr d ∈ w.rag.vertices →
      drmWaitRequest w d t = some (false, w') →
        (∀ a b, w'.rag.Adj a b ↔ w.rag.Adj a b) ∧ w'.mutex = w.mutex := by
  have hi : Inv w := hr.invariant inv_init fun hi hs => hi.step hs
  refine ⟨fun v a b => hi.adj_unique, fun d t hadj => ?_, fun d t => ⟨drmPost_fst w d t, ?_⟩,
    fun d t w' => hi.drmWait_refused⟩
  · obtain ⟨_, ht, howner, -⟩ := (hi.drm_adj d _).mp hadj
    rw [howner, Sum.inl.inj ht]
  · intro hfalse
    rw [drmPost_refused hfalse]
    exact ⟨rfl, rfl⟩

/-- Thread 0 has drm 0, and its second request for it is refused. -/
theorem run_rag_refused : ∃ w w' : World ℕ ℕ, w.mutex 0 = some 0 ∧
    drmWaitRequest w 0 0 = some (false, w') ∧ ∀ a b, w'.rag.Adj a b ↔ w.rag.Adj a b := by
  let w₁ : World ℕ ℕ := drmInit World.init 0
  let w₂ : World ℕ ℕ :=
    { w₁ with rag := requested w₁ 0 0, phase := Function.update w₁.phase 0 (.locking 0) }
  let w₃ := drmWaitRecord (drmWaitLock w₂ 0 0) 0 0
  have h₁ : drmWaitRequest w₁ 0 0 = some (true, w₂) := rfl
  have h₃ : (drmWaitRequest w₃ 0 0).map Prod.fst = some false := by decide +kernel
  obtain ⟨⟨ok, w'⟩, h, rfl⟩ := Option.map_eq_some_iff.mp h₃
  have hr : Run Step World.init [.init 0, .request 0 0, .lock 0 0, .record 0 0] w₃ :=
    .head (.init (by decide)) <| .head (.request rfl (by decide) h₁) <| .head (.lock rfl rfl) <|
      .single (.record rfl)
  obtain ⟨-, howner, -, hrefused⟩ := run_rag hr
  exact ⟨w₃, w', howner 0 0 (by decide), h, (hrefused 0 0 w' rfl (by decide) h).1⟩

end Cs241.Drm
