import Cs241.Drm.Views

/-!
# No request is refused in vain, and some thread can go on

A request is refused if a path in the resource graph leads back to the thread. Such a path
goes through threads that are blocked, so it is a circular wait once the thread waits, too;
the refusals are exactly the ones that prevent one. Since there is none, the threads that a
blocked thread waits for end with one that is not blocked.
-/
namespace Cs241.Drm

open Foundation Relation

variable {T D : Type*} {w : World T D} {t u a b : T} {d e : D}

/-- The world in which the thread is blocked on a request that was accepted. -/
def blockedOn [DecidableEq T] (w : World T D) (t : T) (d : D) : World T D :=
  { w with phase := Function.update w.phase t (.locking d) }

section Requests

variable [DecidableEq T]

theorem blockedOn_self : (blockedOn w t d).phase t = .locking d := Function.update_self ..

theorem blockedOn_of_ne (h : a ≠ t) : (blockedOn w t d).phase a = w.phase a :=
  Function.update_of_ne h ..

/-- A path in the graph with the request is a chain of threads that wait for each other; from a
drm it goes on at the owner. -/
theorem Inv.chain_of_path (hi : Inv w) (hphase : w.phase t = .running) {v : T ⊕ D}
    (h : TransGen (w.view.requested d t) v (.inl b)) :
    (∀ a, v = .inl a → TransGen (WaitsFor (blockedOn w t d)) a b) ∧
      ∀ e, v = .inr e → ∃ u, w.rag.Adj (.inr e) (.inl u) ∧
        ReflTransGen (WaitsFor (blockedOn w t d)) u b := by
  induction h using TransGen.head_induction_on with
  | single hedge =>
    constructor
    · rintro a rfl
      rcases hedge with hadj | ⟨-, hfalse⟩
      · obtain ⟨e, hfalse, -⟩ := (hi.thread_adj a _).mp hadj
        cases hfalse
      · cases hfalse
    · rintro e rfl
      rcases hedge with hadj | ⟨hfalse, -⟩
      · exact ⟨b, hadj, .refl⟩
      · cases hfalse
  | head hedge hpath ih =>
    constructor
    · rintro a rfl
      rcases hedge with hadj | ⟨hthread, hdrm⟩
      · obtain ⟨e, rfl, hpending⟩ := (hi.thread_adj a _).mp hadj
        obtain ⟨u, howner, hrest⟩ := ih.2 e rfl
        obtain ⟨_, hu, hmutex, hnot⟩ := (hi.drm_adj e _).mp howner
        obtain rfl := Sum.inl.inj hu
        have hne : a ≠ t := by
          rintro rfl
          rw [hphase] at hpending
          cases hpending
        have hlocking : w.phase a = .locking e := by
          cases hpa : w.phase a with
          | running =>
            rw [hpa] at hpending
            cases hpending
          | locking e' =>
            rw [hpa] at hpending
            exact congrArg _ (Option.some.inj hpending)
          | recording e' =>
            -- such a thread owns the drm, and the graph does not have the edge yet
            rw [hpa] at hpending
            obtain rfl := Option.some.inj hpending
            obtain rfl := Option.some.inj ((hi.recording hpa).symm.trans hmutex)
            exact absurd hpa hnot
        have hwaits : WaitsFor (blockedOn w t d) a u :=
          ⟨e, (blockedOn_of_ne hne).trans hlocking, hmutex⟩
        exact .head' hwaits hrest
      · obtain rfl := Sum.inl.inj hthread
        obtain ⟨u, howner, hrest⟩ := ih.2 d hdrm
        obtain ⟨_, hu, hmutex, -⟩ := (hi.drm_adj d _).mp howner
        obtain rfl := Sum.inl.inj hu
        exact .head' ⟨d, blockedOn_self, hmutex⟩ hrest
    · rintro e rfl
      rcases hedge with hadj | ⟨hfalse, -⟩
      · obtain ⟨u, rfl, -⟩ := (hi.drm_adj e _).mp hadj
        exact ⟨u, hadj, (ih.1 u rfl).to_reflTransGen⟩
      · cases hfalse

/-- A chain that ends at a blocked thread is a path. -/
theorem Inv.path_of_chain (hi : Inv w) (hphase : w.phase t = .running)
    (h : TransGen (WaitsFor (blockedOn w t d)) a b)
    (hb : ∃ e, (blockedOn w t d).phase b = .locking e) :
    TransGen (w.view.requested d t) (.inl a) (.inl b) := by
  have hlink : ∀ {a b : T}, WaitsFor (blockedOn w t d) a b →
      (∃ e, (blockedOn w t d).phase b = .locking e) →
      TransGen (w.view.requested d t) (.inl a) (.inl b) := by
    rintro a b ⟨e, hlocking, hmutex⟩ ⟨e', hb⟩
    have hhold : w.rag.Adj (.inr e) (.inl b) := by
      refine (hi.drm_adj e _).mpr ⟨b, rfl, hmutex, fun hrecording => ?_⟩
      by_cases hbt : b = t
      · rw [hbt, hphase] at hrecording
        cases hrecording
      · rw [blockedOn_of_ne hbt, hrecording] at hb
        cases hb
    have hwait : w.view.requested d t (.inl a) (.inr e) := by
      by_cases hat : a = t
      · subst hat
        rw [blockedOn_self] at hlocking
        injection hlocking with hde
        exact .inr ⟨rfl, congrArg _ hde.symm⟩
      · rw [blockedOn_of_ne hat] at hlocking
        exact .inl ((hi.thread_adj a _).mpr ⟨e, rfl, by rw [hlocking]; rfl⟩)
    exact .tail (.single hwait) (.inl hhold)
  induction h using TransGen.head_induction_on with
  | single hab => exact hlink hab hb
  | head hac hcb ih =>
    obtain ⟨_, ⟨e, hlocking, -⟩, -⟩ := TransGen.head'_iff.mp hcb
    exact (hlink hac ⟨e, hlocking⟩).trans ih

/-- A request is refused exactly if waiting would close a circle of waiting threads. -/
theorem run_refused_iff [DecidableEq D] {as : List (Action T D)} (hr : Run Step World.init as w)
    (hphase : w.phase t = .running) (hd : .inr d ∈ w.rag.vertices) :
    ∃ ok w', drmWaitRequest w d t = some (ok, w') ∧
      (ok = false ↔ TransGen (WaitsFor (blockedOn w t d)) t t) := by
  have hi : Inv w := hr.invariant inv_init fun hi hs => hi.step hs
  obtain ⟨ok, w', hcall, hok, -⟩ := hi.request_spec hphase hd
  refine ⟨ok, w', hcall, ?_⟩
  rw [← Bool.not_eq_true, hok]
  constructor
  · intro hrefused
    obtain ⟨v, hcycle⟩ : ∃ v, TransGen (w.view.requested d t) v v := by
      by_contra hnone
      exact hrefused fun v _ hcycle => hnone ⟨v, hcycle⟩
    have hclosed : TransGen (w.view.requested d t) (.inl t) (.inl t) := by
      rw [← requested_adj hd] at hcycle ⊢
      rcases FinDigraph.transGen_addEdge (fun a b => (Inv.adj_requested hd a b).mp) hcycle with
        hold | ⟨hto, hfrom⟩
      · exact absurd hold (hi.acyclic v)
      · exact hfrom.trans_left hto
    exact (hi.chain_of_path hphase hclosed).1 t rfl
  · intro hchain haccepts
    exact haccepts _ .refl (hi.path_of_chain hphase hchain ⟨d, blockedOn_self⟩)

end Requests

/-! ## Progress -/

/-- The thread has something to do, whatever the others do. -/
def CanGoOn (w : World T D) (t : T) : Prop :=
  w.phase t = .running ∨ (∃ d, w.phase t = .recording d) ∨
    ∃ d, w.phase t = .locking d ∧ w.mutex d = none

theorem canGoOn_or_waitsFor (w : World T D) (t : T) : CanGoOn w t ∨ ∃ u, WaitsFor w t u := by
  cases hphase : w.phase t with
  | running => exact .inl (.inl hphase)
  | recording d => exact .inl (.inr (.inl ⟨d, hphase⟩))
  | locking d =>
    cases hmutex : w.mutex d with
    | none => exact .inl (.inr (.inr ⟨d, hphase, hmutex⟩))
    | some u => exact .inr ⟨u, d, hphase, hmutex⟩

/-- The threads that a thread waits for end with one that can go on. -/
theorem Inv.exists_canGoOn (hi : Inv w) (t : T) :
    ∃ u, ReflTransGen (WaitsFor w) t u ∧ CanGoOn w u := by
  by_contra hnone
  have hwaits : ∀ u, ReflTransGen (WaitsFor w) t u → ∃ v, WaitsFor w u v := fun u hu =>
    (canGoOn_or_waitsFor w u).resolve_left fun hgo => hnone ⟨u, hu, hgo⟩
  have hlock : ∀ {u d}, w.phase u = .locking d → w.rag.Adj (.inl u) (.inr d) := fun {u d} hphase =>
    (hi.thread_adj u _).mpr ⟨d, rfl, by rw [hphase]; rfl⟩
  -- the threads on the way and the drms between them
  let onWay : T ⊕ D → Prop := fun v => ∃ u d, ReflTransGen (WaitsFor w) t u ∧
    w.phase u = .locking d ∧ (v = .inl u ∨ v = .inr d)
  have hmem : ∀ v, onWay v → v ∈ w.rag.vertices := by
    rintro v ⟨u, d, -, hphase, rfl | rfl⟩
    · exact (hlock hphase).left_mem
    · exact (hlock hphase).right_mem
  have hstart : ∃ v, onWay v := by
    obtain ⟨v, d, hphase, -⟩ := hwaits t .refl
    exact ⟨_, t, d, .refl, hphase, .inl rfl⟩
  obtain ⟨v, ⟨u, d, hu, hphase, hv⟩, hsink⟩ :=
    FinDigraph.exists_sink hmem (fun v _ => hi.acyclic v) hstart
  rcases hv with rfl | rfl
  · exact hsink _ (hlock hphase) ⟨u, d, hu, hphase, .inr rfl⟩
  · obtain ⟨o, d', hphase', howner⟩ := hwaits u hu
    have hdd : d' = d := by
      rw [hphase] at hphase'
      injection hphase' with heq
      exact heq.symm
    subst hdd
    have ho : ReflTransGen (WaitsFor w) t o := hu.tail ⟨d', hphase, howner⟩
    obtain ⟨_, e, hlocking, -⟩ := hwaits o ho
    have hedge : w.rag.Adj (.inr d') (.inl o) :=
      (hi.drm_adj d' _).mpr ⟨o, rfl, howner, by rw [hlocking]; exact nofun⟩
    exact hsink _ hedge ⟨o, e, ho, hlocking, .inl rfl⟩

/-- In every reachable state, whatever a thread waits for, at the end of the threads that wait for
each other there is one that runs, or that is about to get or to record a free drm. -/
theorem run_exists_canGoOn [DecidableEq T] [DecidableEq D] {as : List (Action T D)}
    (hr : Run Step World.init as w) (t : T) :
    ∃ u, ReflTransGen (WaitsFor w) t u ∧ (w.phase u = .running ∨
      (∃ d, w.phase u = .recording d ∧ Step w (.record d u) (drmWaitRecord w d u)) ∨
        ∃ d, w.phase u = .locking d ∧ Step w (.lock d u) (drmWaitLock w d u)) := by
  have hi : Inv w := hr.invariant inv_init fun hi hs => hi.step hs
  obtain ⟨u, hu, hgo⟩ := hi.exists_canGoOn t
  refine ⟨u, hu, ?_⟩
  rcases hgo with hrunning | ⟨d, hrecording⟩ | ⟨d, hlocking, hfree⟩
  · exact .inl hrunning
  · exact .inr (.inl ⟨d, hrecording, .record hrecording⟩)
  · exact .inr (.inr ⟨d, hlocking, .lock hlocking hfree⟩)

/-! ## Two threads -/

/-- Thread 1 is blocked on the drm that thread 0 has. -/
theorem exists_blocked : ∃ (as : List (Action ℕ ℕ)) (w : World ℕ ℕ), Run Step World.init as w ∧
    WaitsFor w 1 0 ∧ w.phase 0 = .running ∧ .inr 0 ∈ w.rag.vertices := by
  let w₁ : World ℕ ℕ := drmInit World.init 0
  let w₂ : World ℕ ℕ :=
    { w₁ with rag := requested w₁ 0 0, phase := Function.update w₁.phase 0 (.locking 0) }
  let w₃ := drmWaitRecord (drmWaitLock w₂ 0 0) 0 0
  have h₁ : drmWaitRequest w₁ 0 0 = some (true, w₂) := rfl
  have h₃ : (drmWaitRequest w₃ 0 1).map (fun r =>
      (r.2.phase 1, r.2.mutex 0, r.2.phase 0, decide (.inr 0 ∈ r.2.rag.vertices))) =
      some (.locking 0, some 0, .running, true) := by decide +kernel
  obtain ⟨⟨ok, w⟩, h, hw⟩ := Option.map_eq_some_iff.mp h₃
  simp only [Prod.mk.injEq, decide_eq_true_eq] at hw
  obtain ⟨hphase, howner, hrunning, hmade⟩ := hw
  have hr : Run Step World.init [.init 0, .request 0 0, .lock 0 0, .record 0 0, .request 0 1] w :=
    .head (.init (by decide)) <| .head (.request rfl (by decide) h₁) <| .head (.lock rfl rfl) <|
      .head (.record rfl) <| .single (.request rfl (by decide) h)
  exact ⟨_, w, hr, ⟨0, hphase, howner⟩, hrunning, hmade⟩

/-- Thread 0 asks for the drm that it has. -/
theorem run_refused_iff_again : ∃ w : World ℕ ℕ, WaitsFor w 1 0 ∧
    ∃ ok w', drmWaitRequest w 0 0 = some (ok, w') ∧
      (ok = false ↔ TransGen (WaitsFor (blockedOn w 0 0)) 0 0) := by
  obtain ⟨as, w, hr, hwaits, hrunning, hmade⟩ := exists_blocked
  exact ⟨w, hwaits, run_refused_iff hr hrunning hmade⟩

/-- Thread 1 waits for thread 0, which runs. -/
theorem run_exists_canGoOn_blocked : ∃ w : World ℕ ℕ, WaitsFor w 1 0 ∧
    ∃ u, ReflTransGen (WaitsFor w) 1 u ∧ (w.phase u = .running ∨
      (∃ d, w.phase u = .recording d ∧ Step w (.record d u) (drmWaitRecord w d u)) ∨
        ∃ d, w.phase u = .locking d ∧ Step w (.lock d u) (drmWaitLock w d u)) := by
  obtain ⟨as, w, hr, hwaits, -, -⟩ := exists_blocked
  exact ⟨w, hwaits, run_exists_canGoOn hr 1⟩

end Cs241.Drm
