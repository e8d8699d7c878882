import Mathlib.Data.Set.Insert
import Cs241.Drm.Cycles

/-!
# What a call sees of the world

The order of the vertices and edges, and the threads that are vertices, make no
difference to any call. Without them the calls are steps on the edges, the owners, the
phases and the drms there are, and the refusal of a request is that a cycle can be
reached. Hiding some drms hides the steps that concern them and keeps the others, up to
requests that were refused.
-/
namespace Cs241.Drm

open Foundation Relation

variable {T D : Type*}

def Action.drm : Action T D → D
  | .init drm => drm
  | .request drm _ => drm
  | .lock drm _ => drm
  | .record drm _ => drm
  | .post drm _ => drm

@[ext] structure View (T D : Type*) where
  adj : T ⊕ D → T ⊕ D → Prop
  mutex : D → Option T
  phase : T → Phase D
  made : D → Prop

def World.view (w : World T D) : View T D where
  adj := w.rag.Adj
  mutex := w.mutex
  phase := w.phase
  made drm := .inr drm ∈ w.rag.vertices

/-- What the call of an action returns with it: a request that is accepted goes on to wait. -/
def Action.returned [DecidableEq T] [DecidableEq D] (w : World T D) : Action T D → Option Bool
  | .init _ => none
  | .request drm thread =>
    (drmWaitRequest w drm thread).bind fun r => if r.1 then none else some false
  | .lock _ _ => none
  | .record _ _ => some true
  | .post drm thread => some (drmPost w drm thread).1

namespace View

/-- The edges with the one of a request. -/
def requested (x : View T D) (d : D) (t : T) (a b : T ⊕ D) : Prop :=
  x.adj a b ∨ (a = .inl t ∧ b = .inr d)

/-- No cycle can be reached from the thread that requests the drm. -/
def Accepts (x : View T D) (d : D) (t : T) : Prop :=
  ∀ u, ReflTransGen (x.requested d t) (.inl t) u → ¬ TransGen (x.requested d t) u u

section Updates

variable [DecidableEq T] [DecidableEq D] (x : View T D) (d : D) (t : T)

def created : View T D :=
  { x with mutex := Function.update x.mutex d none, made := fun e => e = d ∨ x.made e }

def waiting : View T D :=
  { x with adj := x.requested d t, phase := Function.update x.phase t (.locking d) }

def locked : View T D :=
  { x with mutex := Function.update x.mutex d (some t)
           phase := Function.update x.phase t (.recording d) }

/-- The edge of the request becomes one of ownership. -/
def recorded : View T D :=
  { x with adj := fun a b =>
             (x.adj a b ∧ ¬ (a = .inl t ∧ b = .inr d)) ∨ (a = .inr d ∧ b = .inl t)
           phase := Function.update x.phase t .running }

def released : View T D :=
  { x with adj := fun a b => x.adj a b ∧ ¬ (a = .inr d ∧ b = .inl t)
           mutex := Function.update x.mutex d none }

end Updates

/-- A step, with what is returned. -/
inductive Step [DecidableEq T] [DecidableEq D] :
    View T D → Action T D → Option Bool → View T D → Prop
  | init {x d} (hnew : ¬ x.made d) : Step x (.init d) none (x.created d)
  | accept {x d t} (hphase : x.phase t = .running) (hmade : x.made d) (h : x.Accepts d t) :
      Step x (.request d t) none (x.waiting d t)
  | refuse {x d t} (hphase : x.phase t = .running) (hmade : x.made d) (h : ¬ x.Accepts d t) :
      Step x (.request d t) (some false) x
  | lock {x d t} (hphase : x.phase t = .locking d) (hfree : x.mutex d = none) :
      Step x (.lock d t) none (x.locked d t)
  | record {x d t} (hphase : x.phase t = .recording d) :
      Step x (.record d t) (some true) (x.recorded d t)
  | post {x d t} (hphase : x.phase t = .running) (hmade : x.made d)
      (hown : x.adj (.inr d) (.inl t)) : Step x (.post d t) (some true) (x.released d t)
  | postRefused {x d t} (hphase : x.phase t = .running) (hmade : x.made d)
      (hown : ¬ x.adj (.inr d) (.inl t)) : Step x (.post d t) (some false) x

end View

/-! ## Worlds and their views -/

section Worlds

variable [DecidableEq T] [DecidableEq D] {w w' : World T D} {a : Action T D} {d : D} {t : T}
  {r : Option Bool} {y : View T D}

theorem requested_adj (hd : w.view.made d) : (requested w d t).Adj = w.view.requested d t := by
  funext a b
  exact propext (Inv.adj_requested hd a b)

theorem made_requested (e : D) :
    .inr e ∈ (requested w d t).vertices ↔ .inr e ∈ w.rag.vertices := by simp [requested]

/-- A request that is taken back has left nothing that is seen. -/
theorem Inv.view_refused (hi : Inv w) (hphase : w.phase t = .running) (hd : w.view.made d)
    (visited : Option (List (T ⊕ D))) :
    World.view { w with rag := (requested w d t).removeEdge (.inl t) (.inr d),
                        visited := visited } = w.view := by
  refine View.ext ?_ rfl rfl ?_
  · funext a b
    exact propext (hi.adj_refused hphase hd a b)
  · funext e
    exact propext (made_requested e)

theorem view_accepted (hd : w.view.made d) (visited : Option (List (T ⊕ D))) :
    World.view { w with rag := requested w d t, visited := visited,
                        phase := Function.update w.phase t (.locking d) } =
      w.view.waiting d t := by
  refine View.ext (requested_adj hd) rfl rfl ?_
  funext e
  exact propext (made_requested e)

/-- A request is accepted exactly if no cycle can be reached. -/
theorem Inv.request_spec (hi : Inv w) (hphase : w.phase t = .running) (hd : w.view.made d) :
    ∃ ok w', drmWaitRequest w d t = some (ok, w') ∧ (ok = true ↔ w.view.Accepts d t) ∧
      w'.view = if ok then w.view.waiting d t else w.view := by
  have hreturns := hi.request_returns hphase hd
  have hedge : w.view.requested d t (.inl t) (.inr d) := .inr ⟨rfl, rfl⟩
  unfold drmWaitRequest at hreturns ⊢
  dsimp only at hreturns ⊢
  rw [hi.visited] at hreturns ⊢
  split_ifs at hreturns ⊢ with hadj
  · -- the thread owns the drm, which closes a cycle of two edges
    rw [requested_adj hd] at hadj
    refine ⟨false, _, rfl, ?_, hi.view_refused hphase hd none⟩
    exact iff_of_false (by simp) fun h => h (.inl t) .refl (.tail (.single hedge) hadj)
  · rw [Option.isSome_map] at hreturns
    obtain ⟨⟨found, visited⟩, hc⟩ := Option.isSome_iff_exists.mp hreturns
    have hfound := containsCycle_found hc
    rw [requested_adj hd] at hfound
    rw [hc, Option.map_some]
    cases found with
    | true =>
      refine ⟨false, _, rfl, ?_, hi.view_refused hphase hd visited⟩
      obtain ⟨u, hreach, hcycle⟩ := hfound.mp rfl
      exact iff_of_false (by simp) fun h => h u hreach hcycle
    | false =>
      refine ⟨true, _, rfl, ?_, view_accepted hd visited⟩
      exact iff_of_true rfl fun u hreach hcycle => by simpa using hfound.mpr ⟨u, hreach, hcycle⟩

theorem view_drmInit : (drmInit w d).view = w.view.created d := by
  refine View.ext rfl rfl rfl ?_
  funext e
  simp [World.view, drmInit, View.created]

theorem Inv.view_drmWaitRecord (hi : Inv w) (hphase : w.phase t = .recording d) :
    (drmWaitRecord w d t).view = w.view.recorded d t := by
  refine View.ext ?_ rfl rfl ?_
  · funext a b
    exact propext (hi.adj_recorded hphase a b)
  · funext e
    simp [World.view, drmWaitRecord, FinDigraph.removeEdge, View.recorded]

theorem view_drmPost (h : w.rag.Adj (.inr d) (.inl t)) :
    (drmPost w d t).2.view = w.view.released d t := by
  have haccepted : ¬ (.inr d ∉ w.rag.vertices ∨ .inl t ∉ w.rag.vertices ∨
      ¬ w.rag.Adj (.inr d) (.inl t)) := by simp [h.left_mem, h.right_mem, h]
  rw [drmPost, if_neg haccepted]
  refine View.ext ?_ rfl rfl rfl
  funext a b
  exact propext FinDigraph.adj_removeEdge

/-- The view of a step is a step of the view. -/
theorem Inv.step_view (hi : Inv w) (hs : Step w a w') :
    View.Step w.view a (a.returned w) w'.view := by
  cases hs with
  | init hnew =>
    rw [view_drmInit]
    exact .init hnew
  | @request d t ok _ hphase hdrm h =>
    obtain ⟨ok', w'', h', hok, hview⟩ := hi.request_spec hphase hdrm
    obtain ⟨rfl, rfl⟩ := Prod.mk.inj (Option.some.inj (h'.symm.trans h))
    rw [hview, Action.returned, h, Option.bind_some]
    split_ifs with hacc
    · exact .accept hphase hdrm (hok.mp hacc)
    · exact .refuse hphase hdrm fun haccepts => hacc (hok.mpr haccepts)
  | lock hphase hfree => exact .lock hphase hfree
  | record hphase =>
    rw [hi.view_drmWaitRecord hphase]
    exact .record hphase
  | @post d t hphase hdrm =>
    rw [Action.returned]
    by_cases hown : w.rag.Adj (.inr d) (.inl t)
    · rw [view_drmPost hown, (drmPost_fst w d t).mpr hown]
      exact .post hphase hdrm hown
    · have hfalse := Bool.eq_false_iff.mpr (mt (drmPost_fst w d t).mp hown)
      rw [drmPost_refused hfalse, hfalse]
      exact .postRefused hphase hdrm hown

/-- And every step of the view is the view of a step. -/
theorem Inv.exists_step (hi : Inv w) (hs : View.Step w.view a r y) :
    ∃ w', Step w a w' ∧ w'.view = y ∧ a.returned w = r := by
  cases hs with
  | init hnew => exact ⟨_, .init hnew, view_drmInit, rfl⟩
  | @accept d t hphase hmade hacc =>
    obtain ⟨ok, w', h, hok, hview⟩ := hi.request_spec hphase hmade
    obtain rfl := hok.mpr hacc
    exact ⟨w', .request hphase hmade h, hview, by rw [Action.returned, h]; rfl⟩
  | @refuse d t hphase hmade hacc =>
    obtain ⟨ok, w', h, hok, hview⟩ := hi.request_spec hphase hmade
    obtain rfl := Bool.eq_false_iff.mpr (mt hok.mp hacc)
    exact ⟨w', .request hphase hmade h, hview, by rw [Action.returned, h]; rfl⟩
  | lock hphase hfree => exact ⟨_, .lock hphase hfree, rfl, rfl⟩
  | record hphase => exact ⟨_, .record hphase, hi.view_drmWaitRecord hphase, rfl⟩
  | @post d t hphase hmade hown =>
    exact ⟨_, .post hphase hmade, view_drmPost hown, congrArg some ((drmPost_fst w d t).mpr hown)⟩
  | @postRefused d t hphase hmade hown =>
    have hfalse := Bool.eq_false_iff.mpr (mt (drmPost_fst w d t).mp hown)
    exact ⟨_, .post hphase hmade, by rw [drmPost_refused hfalse], congrArg some hfalse⟩

end Worlds

/-! ## Hiding drms -/

open Classical in
/-- What a thread does, with nothing in place of what it does with a hidden drm. -/
noncomputable def Phase.hide (S : Set D) : Phase D → Phase D
  | .running => .running
  | .locking d => if d ∈ S then .running else .locking d
  | .recording d => if d ∈ S then .running else .recording d

namespace View

/-- A thread, or a drm that is not hidden. -/
def Outside (S : Set D) : T ⊕ D → Prop
  | .inl _ => True
  | .inr d => d ∉ S

open Classical in
/-- The view without the drms of a set, and without what threads do with them. -/
noncomputable def without (x : View T D) (S : Set D) : View T D where
  adj a b := x.adj a b ∧ Outside S a ∧ Outside S b
  mutex d := if d ∈ S then none else x.mutex d
  phase t := (x.phase t).hide S
  made d := x.made d ∧ d ∉ S

variable [DecidableEq T] [DecidableEq D] {x y : View T D} {a : Action T D} {r : Option Bool}
  {S : Set D} {d : D} {t : T}

/-! ### Updates of a phase -/

omit [DecidableEq D] in
theorem without_phase (x : View T D) (S : Set D) (t : T) (p : Phase D) :
    (View.without { x with phase := Function.update x.phase t p } S).phase =
      Function.update (x.without S).phase t (p.hide S) :=
  Function.comp_update (Phase.hide S) x.phase t p

omit [DecidableEq D] in
/-- A phase that looks like the one before is not seen. -/
theorem without_phase_hidden {p : Phase D} (h : p.hide S = (x.phase t).hide S) :
    (View.without { x with phase := Function.update x.phase t p } S).phase =
      (x.without S).phase := by
  rw [without_phase, h]
  exact Function.update_eq_self t _

omit [DecidableEq D] in
theorem without_phase_shown {p : Phase D} (h : p.hide S = p) :
    (View.without { x with phase := Function.update x.phase t p } S).phase =
      Function.update (x.without S).phase t p := by
  rw [without_phase, h]

/-! ### Updates of a drm that is not seen -/

section Hidden

variable (hd : d ∈ S)
include hd

omit [DecidableEq T] [DecidableEq D] in
theorem hide_locking : (Phase.locking d).hide S = .running := if_pos hd

omit [DecidableEq T] [DecidableEq D] in
theorem hide_recording : (Phase.recording d).hide S = .running := if_pos hd

omit [DecidableEq T] in
/-- The owner of a hidden drm is not seen. -/
theorem without_mutex_hidden (x : View T D) (owner : Option T) :
    (View.without { x with mutex := Function.update x.mutex d owner } S).mutex =
      (x.without S).mutex := by
  funext e
  by_cases he : e = d
  · simp [without, he, hd]
  · simp [without, he]

omit [DecidableEq T] in
theorem without_created_hidden : (x.created d).without S = x.without S := by
  refine View.ext rfl (without_mutex_hidden hd x none) rfl ?_
  funext e
  by_cases he : e = d
  · simp [without, he, hd]
  · simp [without, created, he]

omit [DecidableEq D] in
theorem without_waiting_hidden (hphase : x.phase t = .running) :
    (x.waiting d t).without S = x.without S := by
  have hlook : (Phase.locking d).hide S = (x.phase t).hide S := by
    rw [hide_locking hd, hphase, Phase.hide]
  refine View.ext ?_ rfl (without_phase_hidden hlook) rfl
  funext a b
  simp only [without, waiting, requested, eq_iff_iff]
  refine ⟨fun ⟨hab, hout⟩ => ⟨hab.resolve_right ?_, hout⟩, fun ⟨hab, hout⟩ => ⟨.inl hab, hout⟩⟩
  rintro ⟨-, rfl⟩
  exact hout.2 hd

theorem without_locked_hidden (hphase : x.phase t = .locking d) :
    (x.locked d t).without S = x.without S := by
  have hlook : (Phase.recording d).hide S = (x.phase t).hide S := by
    rw [hide_recording hd, hphase, hide_locking hd]
  exact View.ext rfl (without_mutex_hidden hd x (some t)) (without_phase_hidden hlook) rfl

omit [DecidableEq D] in
theorem without_recorded_hidden (hphase : x.phase t = .recording d) :
    (x.recorded d t).without S = x.without S := by
  have hlook : Phase.running.hide S = (x.phase t).hide S := by
    rw [hphase, hide_recording hd, Phase.hide]
  refine View.ext ?_ rfl (without_phase_hidden hlook) rfl
  funext a b
  simp only [without, recorded, eq_iff_iff]
  constructor
  · rintro ⟨⟨hab, -⟩ | ⟨rfl, -⟩, hout⟩
    · exact ⟨hab, hout⟩
    · exact absurd hd hout.1
  · rintro ⟨hab, hout⟩
    refine ⟨.inl ⟨hab, ?_⟩, hout⟩
    rintro ⟨-, rfl⟩
    exact hout.2 hd

omit [DecidableEq T] in
theorem without_released_hidden : (x.released d t).without S = x.without S := by
  refine View.ext ?_ (without_mutex_hidden hd x none) rfl rfl
  funext a b
  simp only [without, released, eq_iff_iff]
  refine ⟨fun ⟨hab, hout⟩ => ⟨hab.1, hout⟩, fun ⟨hab, hout⟩ => ⟨⟨hab, ?_⟩, hout⟩⟩
  rintro ⟨rfl, -⟩
  exact hout.1 hd

end Hidden

/-! ### Updates of a drm that is seen -/

section Shown

variable (hd : d ∉ S)
include hd

omit [DecidableEq T] in
theorem without_mutex_shown (x : View T D) (owner : Option T) :
    (View.without { x with mutex := Function.update x.mutex d owner } S).mutex =
      Function.update (x.without S).mutex d owner := by
  funext e
  by_cases he : e = d
  · subst he
    simp [without, hd]
  · simp [without, he]

omit [DecidableEq T] in
theorem without_created : (x.created d).without S = (x.without S).created d := by
  refine View.ext rfl (without_mutex_shown hd x none) rfl ?_
  funext e
  by_cases he : e = d
  · simp [without, created, he, hd]
  · simp [without, created, he]

omit [DecidableEq D] in
theorem without_waiting : (x.waiting d t).without S = (x.without S).waiting d t := by
  refine View.ext ?_ rfl (without_phase_shown (if_neg hd)) rfl
  funext a b
  simp only [without, waiting, requested, eq_iff_iff]
  constructor
  · rintro ⟨hab | hab, hout⟩
    exacts [.inl ⟨hab, hout⟩, .inr hab]
  · rintro (⟨hab, hout⟩ | ⟨rfl, rfl⟩)
    exacts [⟨.inl hab, hout⟩, ⟨.inr ⟨rfl, rfl⟩, trivial, hd⟩]

theorem without_locked : (x.locked d t).without S = (x.without S).locked d t :=
  View.ext rfl (without_mutex_shown hd x (some t)) (without_phase_shown (if_neg hd)) rfl

omit [DecidableEq D] in
theorem without_recorded : (x.recorded d t).without S = (x.without S).recorded d t := by
  refine View.ext ?_ rfl (without_phase_shown rfl) rfl
  funext a b
  simp only [without, recorded, eq_iff_iff]
  constructor
  · rintro ⟨⟨hab, hne⟩ | hab, hout⟩
    exacts [.inl ⟨⟨hab, hout⟩, hne⟩, .inr hab]
  · rintro (⟨⟨hab, hout⟩, hne⟩ | ⟨rfl, rfl⟩)
    exacts [⟨.inl ⟨hab, hne⟩, hout⟩, ⟨.inr ⟨rfl, rfl⟩, hd, trivial⟩]

omit [DecidableEq T] in
theorem without_released : (x.released d t).without S = (x.without S).released d t := by
  refine View.ext ?_ (without_mutex_shown hd x none) rfl rfl
  funext a b
  simp only [without, released, eq_iff_iff]
  exact and_right_comm

end Shown

/-- Steps that concern a hidden drm are not seen. -/
theorem Step.hidden (h : Step x a r y) (hS : a.drm ∈ S) : y.without S = x.without S := by
  cases h with
  | init hnew => exact without_created_hidden hS
  | accept hphase hmade h => exact without_waiting_hidden hS hphase
  | refuse hphase hmade h => rfl
  | lock hphase hfree => exact without_locked_hidden hS hphase
  | record hphase => exact without_recorded_hidden hS hphase
  | post hphase hmade hown => exact without_released_hidden hS
  | postRefused hphase hmade hown => rfl

omit [DecidableEq T] [DecidableEq D] in
/-- A request that is accepted is accepted where fewer edges are seen, too. -/
theorem Accepts.without (h : x.Accepts d t) : (x.without S).Accepts d t := by
  have hsub : ∀ a b, (x.without S).requested d t a b → x.requested d t a b := by
    rintro a b (hab | hab)
    exacts [.inl hab.1, .inr hab]
  intro u hreach hcycle
  exact h u (ReflTransGen.mono hsub _ _ hreach) (TransGen.mono hsub _ _ hcycle)

/-- The other steps stay, apart from refusals. -/
theorem Step.shown (h : Step x a r y) (hS : a.drm ∉ S) :
    Step (x.without S) a r (y.without S) ∨ y.without S = x.without S := by
  cases h with
  | @init d hnew =>
    have hd : d ∉ S := hS
    rw [without_created hd]
    exact .inl (.init fun hmade => hnew hmade.1)
  | @accept d t hphase hmade h =>
    have hd : d ∉ S := hS
    have hphase' : (x.without S).phase t = .running := by simp [View.without, hphase, Phase.hide]
    rw [without_waiting hd]
    exact .inl (.accept hphase' ⟨hmade, hd⟩ h.without)
  | refuse hphase hmade h => exact .inr rfl
  | @lock d t hphase hfree =>
    have hd : d ∉ S := hS
    have hphase' : (x.without S).phase t = .locking d := by
      simp [View.without, hphase, Phase.hide, hd]
    rw [without_locked hd]
    exact .inl (.lock hphase' (by simp [View.without, hfree]))
  | @record d t hphase =>
    have hd : d ∉ S := hS
    have hphase' : (x.without S).phase t = .recording d := by
      simp [View.without, hphase, Phase.hide, hd]
    rw [without_recorded hd]
    exact .inl (.record hphase')
  | @post d t hphase hmade hown =>
    have hd : d ∉ S := hS
    have hphase' : (x.without S).phase t = .running := by simp [View.without, hphase, Phase.hide]
    rw [without_released hd]
    exact .inl (.post hphase' ⟨hmade, hd⟩ ⟨hown, hd, trivial⟩)
  | postRefused hphase hmade hown => exact .inr rfl

end View

end Cs241.Drm
