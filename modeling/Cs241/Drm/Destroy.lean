import Cs241.Drm.Views

/-!
# The end of a drm

`drm_destroy` takes the drm out of the graph, where it has no edges any more, and that
leaves everything else as in a run in which the drm has never existed. But it also
destroys `global_mut`, which belongs to the whole library and is initialised once. What
a destroyed mutex does is undefined; here the calls go on as before.
-/
namespace Cs241.Drm

open Foundation

variable {T D : Type*}

structure Library (T D : Type*) where
  world : World T D
  /-- `global_mut` is initialised. -/
  globalMut : Bool

def Library.init : Library T D := { world := .init, globalMut := true }

inductive Call (T D : Type*)
  | op (a : Action T D)
  | destroy (drm : D)

variable [DecidableEq T] [DecidableEq D]

def drmDestroy (l : Library T D) (drm : D) : Library T D where
  world := { l.world with rag := l.world.rag.removeVertex (.inr drm)
                          mutex := Function.update l.world.mutex drm none }
  globalMut := false

/-- A drm is destroyed when no thread holds it or waits for it. No call uses it again, unless
`drm_init` makes another one at its address. -/
inductive LibStep : Library T D → Call T D → Library T D → Prop
  | op {l a w'} (h : Step l.world a w') : LibStep l (.op a) { l with world := w' }
  | destroy {l drm} (hmade : l.world.view.made drm) (hfree : l.world.mutex drm = none)
      (hidle : ∀ t, (l.world.phase t).pending ≠ some drm) :
      LibStep l (.destroy drm) (drmDestroy l drm)

/-- The world is seen as that of a run on the drms it has, and every call returns and does the
same in both. -/
def AsIfNever (w : World T D) : Prop :=
  ∃ as v, Run Step World.init as v ∧ (∀ a ∈ as, w.view.made a.drm) ∧ v.view = w.view ∧
    ∀ a w', Step w a w' →
      ∃ v', Step v a v' ∧ a.returned v = a.returned w ∧ v'.view = w'.view

/-- Whatever drms are hidden, some run without them leads to what is still seen. -/
structure Shadowed (l : Library T D) : Prop where
  inv : Inv l.world
  run : ∀ S : Set D, ∃ as v, Run Step World.init as v ∧ (∀ a ∈ as, a.drm ∉ S) ∧
    v.view = l.world.view.without S

section Steps

variable {l l' : Library T D} {w w' : World T D} {a : Action T D} {c : Call T D} {d : D}

theorem Inv.of_run {as : List (Action T D)} (h : Run Step World.init as w) : Inv w :=
  h.invariant inv_init fun hi hs => hi.step hs

omit [DecidableEq T] [DecidableEq D] in
/-- A drm that no thread holds or waits for has no edges. -/
theorem Inv.isolated (hi : Inv w) (hfree : w.mutex d = none)
    (hidle : ∀ t, (w.phase t).pending ≠ some d) {u v : T ⊕ D} (h : w.rag.Adj u v) :
    u ≠ .inr d ∧ v ≠ .inr d := by
  constructor
  · rintro rfl
    obtain ⟨t, -, howner, -⟩ := (hi.drm_adj d v).mp h
    exact absurd (hfree.symm.trans howner) (by simp)
  · rintro rfl
    cases u with
    | inl t =>
      obtain ⟨e, he, hpending⟩ := (hi.thread_adj t _).mp h
      exact hidle t (Sum.inr.inj he ▸ hpending)
    | inr e =>
      obtain ⟨t, ht, -⟩ := (hi.drm_adj e _).mp h
      cases ht

theorem Inv.adj_destroyed (hi : Inv w) (hfree : w.mutex d = none)
    (hidle : ∀ t, (w.phase t).pending ≠ some d) (u v : T ⊕ D) :
    (w.rag.removeVertex (.inr d)).Adj u v ↔ w.rag.Adj u v := by
  rw [FinDigraph.adj_removeVertex]
  exact ⟨And.left, fun h => ⟨h, hi.isolated hfree hidle h⟩⟩

theorem Inv.destroyed (hi : Inv l.world) (hfree : l.world.mutex d = none)
    (hidle : ∀ t, (l.world.phase t).pending ≠ some d) : Inv (drmDestroy l d).world := by
  have hmutex : Function.update l.world.mutex d none = l.world.mutex := by
    rw [← hfree, Function.update_eq_self]
  have hworld := hi.of_adj (hi.adj_destroyed hfree hidle)
  rw [← hi.visited] at hworld
  rw [drmDestroy, hmutex]
  exact hworld

omit [DecidableEq D] in
theorem mem_insert_of_ne {e : D} (he : e ≠ d) (S : Set D) : e ∈ insert d S ↔ e ∈ S := by
  rw [Set.mem_insert_iff, or_iff_right he]

omit [DecidableEq D] in
theorem Phase.hide_insert {p : Phase D} (h : p.pending ≠ some d) (S : Set D) :
    p.hide (insert d S) = p.hide S := by
  cases p with
  | running => rfl
  | locking e =>
    have he : e ≠ d := fun hed => h (congrArg some hed)
    simp only [Phase.hide]
    congr 1
    exact propext (mem_insert_of_ne he S)
  | recording e =>
    have he : e ≠ d := fun hed => h (congrArg some hed)
    simp only [Phase.hide]
    congr 1
    exact propext (mem_insert_of_ne he S)

omit [DecidableEq T] [DecidableEq D] in
theorem outside_insert {S : Set D} {u : T ⊕ D} (hu : u ≠ .inr d) :
    View.Outside (insert d S) u ↔ View.Outside S u := by
  cases u with
  | inl t => rfl
  | inr e =>
    have he : e ≠ d := fun hed => hu (congrArg _ hed)
    simp [View.Outside, he]

/-- What is seen without it does not change when a drm is destroyed. -/
theorem Inv.view_destroyed (hi : Inv l.world) (hfree : l.world.mutex d = none)
    (hidle : ∀ t, (l.world.phase t).pending ≠ some d) (S : Set D) :
    (drmDestroy l d).world.view.without S = l.world.view.without (insert d S) := by
  refine View.ext ?_ ?_ ?_ ?_
  · funext u v
    refine propext ((and_congr_left fun _ => hi.adj_destroyed hfree hidle u v).trans ?_)
    refine and_congr_right fun h => ?_
    obtain ⟨hu, hv⟩ := hi.isolated hfree hidle h
    rw [outside_insert hu, outside_insert hv]
  · funext e
    by_cases he : e = d
    · subst he
      simp [World.view, View.without, drmDestroy]
    · simp only [World.view, View.without, drmDestroy, Function.update_of_ne he]
      congr 1
      exact propext (mem_insert_of_ne he S).symm
  · funext t
    exact (Phase.hide_insert (hidle t) S).symm
  · funext e
    refine propext ?_
    simp only [World.view, View.without, drmDestroy, FinDigraph.mem_removeVertex,
      Set.mem_insert_iff, not_or, ne_eq, Sum.inr.injEq]
    exact and_assoc

theorem Shadowed.step (h : Shadowed l) (hs : LibStep l c l') : Shadowed l' := by
  cases hs with
  | @op a w' hstep =>
    refine ⟨h.inv.step hstep, fun S => ?_⟩
    obtain ⟨as, v, hrun, has, hview⟩ := h.run S
    have hseen := h.inv.step_view hstep
    by_cases hS : a.drm ∈ S
    · exact ⟨as, v, hrun, has, hview.trans (hseen.hidden hS).symm⟩
    · rcases hseen.shown hS with hshown | hsame
      · rw [← hview] at hshown
        obtain ⟨v', hv', hview', -⟩ := (Inv.of_run hrun).exists_step hshown
        refine ⟨as ++ [a], v', hrun.tail hv', ?_, hview'⟩
        intro b hb
        rcases List.mem_append.mp hb with hb | hb
        exacts [has b hb, List.mem_singleton.mp hb ▸ hS]
      · exact ⟨as, v, hrun, has, hview.trans hsame.symm⟩
  | @destroy d hmade hfree hidle =>
    refine ⟨h.inv.destroyed hfree hidle, fun S => ?_⟩
    obtain ⟨as, v, hrun, has, hview⟩ := h.run (insert d S)
    refine ⟨as, v, hrun, fun a ha hS => has a ha (Set.mem_insert_of_mem d hS), ?_⟩
    rw [hview, h.inv.view_destroyed hfree hidle]

omit [DecidableEq T] [DecidableEq D] in
/-- A view shows nothing of the drms that do not exist. -/
theorem Inv.without_unmade (hi : Inv w) : w.view.without { d | ¬ w.view.made d } = w.view := by
  have houtside : ∀ {u : T ⊕ D}, u ∈ w.rag.vertices →
      View.Outside { d | ¬ w.view.made d } u := by
    intro u hu
    cases u with
    | inl t => trivial
    | inr d => exact not_not.mpr hu
  have hpending : ∀ {t d}, (w.phase t).pending = some d → w.view.made d := by
    intro t d h
    exact ((hi.thread_adj t (.inr d)).mpr ⟨d, rfl, h⟩).right_mem
  refine View.ext ?_ ?_ ?_ ?_
  · funext u v
    exact propext ⟨And.left, fun h => ⟨h, houtside h.left_mem, houtside h.right_mem⟩⟩
  · funext d
    simp only [View.without]
    split_ifs with hd
    · exact (hi.unmade hd).symm
    · rfl
  · funext t
    simp only [View.without]
    cases hphase : w.view.phase t with
    | running => rfl
    | locking d => exact if_neg (not_not.mpr (hpending (congrArg Phase.pending hphase)))
    | recording d => exact if_neg (not_not.mpr (hpending (congrArg Phase.pending hphase)))
  · funext d
    exact propext ⟨And.left, fun h => ⟨h, not_not.mpr h⟩⟩

theorem Shadowed.asIfNever (h : Shadowed l) : AsIfNever l.world := by
  obtain ⟨as, v, hrun, has, hview⟩ := h.run { d | ¬ l.world.view.made d }
  rw [h.inv.without_unmade] at hview
  refine ⟨as, v, hrun, fun a ha => not_not.mp (has a ha), hview, fun a w' hstep => ?_⟩
  have hseen := h.inv.step_view hstep
  rw [← hview] at hseen
  obtain ⟨v', hv', hview', hreturned⟩ := (Inv.of_run hrun).exists_step hseen
  exact ⟨v', hv', hreturned, hview'⟩

theorem shadowed_init : Shadowed (Library.init : Library T D) := by
  refine ⟨inv_init, fun S => ⟨[], World.init, .refl, by simp, ?_⟩⟩
  refine View.ext ?_ ?_ rfl ?_
  · funext u v
    simp [World.view, View.without, Library.init, World.init, FinDigraph.Adj, FinDigraph.empty]
  · funext e
    simp [World.view, View.without, Library.init, World.init]
  · funext e
    simp [World.view, View.without, Library.init, World.init, FinDigraph.empty]

/-- `global_mut` stays initialised until the first call of `drm_destroy`. -/
theorem globalMut_iff {cs : List (Call T D)} (hr : Run LibStep Library.init cs l) :
    l.globalMut = true ↔ ∀ d, .destroy d ∉ cs := by
  induction hr with
  | refl => simp [Library.init]
  | @tail cs l c l' _ hs ih =>
    cases hs with
    | op h => simp [ih]
    | @destroy d hmade hfree hidle =>
      refine iff_of_false (by simp [drmDestroy]) fun h => h d (by simp)

end Steps

/-- After a drm has been destroyed, every call finds the world as if it had never existed. That
`global_mut` is initialised, too, holds for all later calls exactly if there are none. -/
theorem run_destroy_iff {cs : List (Call T D)} {l : Library T D}
    (hr : Run LibStep Library.init cs l) :
    ((∀ front c back m, cs = front ++ c :: back → (∃ d, .destroy d ∈ front) →
        Run LibStep Library.init front m → Run LibStep m (c :: back) l →
          m.globalMut = true ∧ AsIfNever m.world) ↔
      ∀ front d back, cs = front ++ .destroy d :: back → back = []) ∧
    AsIfNever l.world := by
  have hshadowed : ∀ {front : List (Call T D)} {m : Library T D},
      Run LibStep Library.init front m → Shadowed m :=
    fun hfront => hfront.invariant shadowed_init fun h hs => h.step hs
  refine ⟨⟨fun h front d back hcs => ?_, fun h front c back m hcs hd _ _ => ?_⟩,
    (hshadowed hr).asIfNever⟩
  · cases back with
    | nil => rfl
    | cons c back =>
      -- the call behind `drm_destroy` finds the mutex destroyed
      have hparts : cs = (front ++ [.destroy d]) ++ c :: back := by simp [hcs]
      rw [hparts] at hr
      obtain ⟨m, hfront, hback⟩ := hr.split
      obtain ⟨hmut, -⟩ := h _ c back m hparts ⟨d, by simp⟩ hfront hback
      exact absurd (by simp) ((globalMut_iff hfront).mp hmut d)
  · obtain ⟨d, hmem⟩ := hd
    obtain ⟨before, behind, rfl⟩ := List.append_of_mem hmem
    exact absurd (h before d (behind ++ c :: back) (by simp [hcs])) (by simp)

def twoDrms : Library ℕ ℕ := { world := drmInit (drmInit .init 0) 1, globalMut := true }

theorem run_twoDrms : Run LibStep Library.init [.op (.init 0), .op (.init 1), .destroy 0]
    (drmDestroy twoDrms 0) := by
  have hfirst : Step (World.init : World ℕ ℕ) (.init 0) (drmInit .init 0) := .init (by decide)
  have hsecond : Step (drmInit .init 0) (.init 1) twoDrms.world := .init (by decide)
  have hmade : Sum.inr 0 ∈ twoDrms.world.rag.vertices := by decide
  have hidle : ∀ t, (twoDrms.world.phase t).pending ≠ some 0 :=
    fun t => (Option.some_ne_none 0).symm
  exact .head (.op hfirst) <| .head (.op hsecond) <| .single (.destroy hmade rfl hidle)

/-- Two drms, of which one is destroyed. -/
theorem run_destroy_iff_two : AsIfNever (drmDestroy twoDrms 0).world :=
  (run_destroy_iff run_twoDrms).2

/-- A thread that then waits for the other one finds `global_mut` destroyed. -/
theorem not_run_destroy : ∃ m l : Library ℕ ℕ,
    Run LibStep Library.init [.op (.init 0), .op (.init 1), .destroy 0] m ∧
      LibStep m (.op (.request 1 0)) l ∧ m.globalMut = false := by
  have hmade : Sum.inr 1 ∈ (drmDestroy twoDrms 0).world.rag.vertices := by decide
  have hreturns : (drmWaitRequest (drmDestroy twoDrms 0).world 1 0).isSome := by decide +kernel
  obtain ⟨⟨ok, w⟩, h⟩ := Option.isSome_iff_exists.mp hreturns
  exact ⟨drmDestroy twoDrms 0, _, run_twoDrms, .op (.request rfl hmade h), rfl⟩

end Cs241.Drm
