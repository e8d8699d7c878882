import Cs241.Scheduler.Averages

/-!
# Whose turn it is

With first come, first served, the jobs finish in the order in which they came. With
round robin, an evicted job goes behind all that wait, since no job was dispatched later;
so no job gets the CPU twice while another one waits. A new job has never been dispatched
and goes ahead of those that have been, but for the same reason it does so only once.
-/
namespace Cs241.Scheduler

open Foundation

variable {J R : Type*}

namespace Event

/-- The job that comes with the event. -/
def comer : Event J R → Option J
  | arrived job _ _ => some job
  | _ => none

/-- The job that the event gives the CPU. -/
def dispatched : Event J R → Option J
  | quantum _ returned => returned
  | _ => none

/-- The job that the event ends. -/
def leaver : Event J R → Option J
  | finished job _ => some job
  | _ => none

end Event

variable [LinearOrder R] [AddCommGroup R] [DecidableEq J] {s : Scheme}
  {history : List (Event J R)} {job other : J} {time : R} {w w' : World J R} {e : Event J R}

/-! ## The queue after a call -/

theorem lastDispatch_le (hpos : 0 ≤ time)
    (htime : ∀ e ∈ history, e.time ≤ time) : lastDispatch history job ≤ time := by
  induction history with
  | nil => exact hpos
  | cons e history ih =>
    have hrest : lastDispatch history job ≤ time :=
      ih fun e he => htime e (List.mem_cons_of_mem _ he)
    cases e with
    | arrived => exact hrest
    | finished => exact hrest
    | quantum t returned =>
      rw [lastDispatch]
      split_ifs
      · exact htime _ List.mem_cons_self
      · exact hrest

/-- The running job was dispatched last. -/
theorem lastDispatch_le_running (hsorted : Sorted history) (hpos : ∀ e ∈ history, 0 ≤ e.time)
    (hjob : running history = some job) :
    lastDispatch history other ≤ lastDispatch history job := by
  induction history with
  | nil => cases hjob
  | cons e history ih =>
    obtain ⟨htime, hrest⟩ := List.pairwise_cons.mp hsorted
    have hpos' := fun e he => hpos e (List.mem_cons_of_mem _ he)
    cases e with
    | arrived => exact ih hrest hpos' hjob
    | finished => cases hjob
    | quantum t returned =>
      obtain rfl : returned = some job := hjob
      rw [lastDispatch, lastDispatch, if_pos rfl]
      split_ifs
      · exact le_rfl
      · exact lastDispatch_le (hpos _ List.mem_cons_self) htime

omit [LinearOrder R] [AddCommGroup R] in
theorem arrived_of_arrival {x : R × SchedulerInfo R} (h : arrival history job = some x) :
    .arrived job x.1 x.2 ∈ history := by
  obtain ⟨e, he, harrived⟩ := List.exists_of_findSome?_eq_some h
  cases e with
  | arrived other time schedData =>
    obtain ⟨rfl, heq⟩ := Option.ite_none_right_eq_some.mp harrived
    obtain rfl := Option.some.inj heq
    exact he
  | quantum => cases harrived
  | finished => cases harrived

theorem dispatch_queue {P : Priqueue J} {g g' : Globals J R} {returned : Option J}
    (h : dispatch P g time = some (returned, g')) : returned.toList ++ g'.pqueue = g.pqueue := by
  rw [dispatch] at h
  cases hq : g.pqueue with
  | nil =>
    rw [hq, P.poll_nil] at h
    obtain ⟨rfl, rfl⟩ := Prod.mk.inj (Option.some.inj h)
    exact hq
  | cons job q =>
    rw [hq, P.poll_cons] at h
    obtain ⟨info, -, heq⟩ := Option.map_eq_some_iff.mp h
    obtain ⟨rfl, rfl⟩ := Prod.mk.inj heq
    rfl

/-- With round robin the evicted job goes to the end. -/
theorem Inv.evict_queue {P : Priqueue J} {g : Globals J R} (h : Inv .rr w)
    (hsorted : Sorted w.history) (hpos : ∀ e ∈ w.history, 0 ≤ e.time)
    (hcall : Scheduler.evict P w.globals time (Scheduler.running w.history) = some g) :
    g.pqueue = w.globals.pqueue ++ (Scheduler.running w.history).toList := by
  cases hr : Scheduler.running w.history with
  | none =>
    rw [hr] at hcall
    obtain rfl := Option.some.inj hcall
    rw [Option.toList_none, List.append_nil]
  | some job =>
    obtain ⟨info, hinfo, hdate⟩ := h.onCpu job hr
    rw [hr, evict_eq P hinfo] at hcall
    obtain rfl := Option.some.inj hcall
    apply Priqueue.offer_eq_append
    intro other hother
    have hne : other ≠ job := fun heq => ((h.mem other).mp hother).2 (heq ▸ hr)
    obtain ⟨info', hinfo', hdate'⟩ := h.waiting other hother time
    have hinfo'' : Globals.info (w.globals.setMetadata job
        { info with ut := info.ut + (time - info.rrTime) }) other = info' :=
      Globals.info_eq ((Function.update_of_ne hne ..).trans hinfo')
    have hle : info'.rrTime ≤ info.rrTime := by
      rw [← hdate'.dispatched rfl, ← (hdate time).dispatched rfl]
      exact lastDispatch_le_running hsorted hpos hr
    rw [Globals.compare, hinfo'', Globals.info_eq (Function.update_self ..),
      show (w.globals.setMetadata job _).pqueueScheme = .rr from h.scheme]
    show ¬ 0 < compareBy JobInfo.rrTime (fun _ _ => 0) info' _
    rw [compareBy_pos]
    rintro (hlt | ⟨-, hlt⟩)
    · exact absurd hle (not_le.mpr hlt)
    · exact absurd hlt (lt_irrefl 0)

theorem Inv.quantum_queue {P : Priqueue J} {g : Globals J R} {returned : Option J} (h : Inv .rr w)
    (hsorted : Sorted w.history) (hpos : ∀ e ∈ w.history, 0 ≤ e.time)
    (hcall : schedulerQuantumExpired P w.globals (Scheduler.running w.history) time =
      some (returned, g)) :
    returned.toList ++ g.pqueue = w.globals.pqueue ++ (Scheduler.running w.history).toList := by
  rw [schedulerQuantumExpired.eq_def, h.scheme,
    if_pos (show Scheme.rr.preemptive from rfl)] at hcall
  obtain ⟨g', hevict, hdispatch⟩ := Option.bind_eq_some_iff.mp hcall
  rw [dispatch_queue hdispatch, h.evict_queue hsorted hpos hevict]

/-! ## First come, first served -/

/-- A new job goes to the end, since none that waits has come later. -/
theorem Inv.newJob_queue (P : Priqueue J) (h : Inv .fcfs w)
    (htime : ∀ e ∈ w.history, e.time ≤ time) (hnew : arrival w.history job = none)
    (jobNumber : ℤ) (schedData : SchedulerInfo R) :
    (schedulerNewJob P w.globals job jobNumber time schedData).pqueue =
      w.globals.pqueue ++ [job] := by
  apply Priqueue.offer_eq_append
  intro other hother
  have hne : other ≠ job := by
    rintro rfl
    simpa [hnew] using ((h.mem other).mp hother).1.1
  obtain ⟨info, hinfo, hdate⟩ := h.waiting other hother time
  have hle : info.xxtime ≤ time := htime _ (arrived_of_arrival hdate.arrival)
  rw [Globals.compare, Globals.info_eq ((Function.update_of_ne hne ..).trans hinfo),
    Globals.info_eq (Function.update_self ..),
    show (w.globals.setMetadata job _).pqueueScheme = .fcfs from h.scheme]
  show ¬ 0 < compareBy JobInfo.xxtime (fun _ _ => 0) info _
  rw [compareBy_pos]
  rintro (hlt | ⟨-, hlt⟩)
  · exact absurd hle (not_le.mpr hlt)
  · exact absurd hlt (lt_irrefl 0)

/-- The jobs that have finished, the one that runs and those that wait are in the order in which
they came. -/
def InTurn (w : World J R) : Prop :=
  w.history.reverse.filterMap Event.leaver ++ (running w.history).toList ++ w.globals.pqueue =
    w.history.reverse.filterMap Event.comer

theorem step_inTurn {P : Priqueue J} {a : Action J R} (hinv : Inv .fcfs w) (h : InTurn w)
    (hstep : Step P w a w') : InTurn w' := by
  rw [InTurn] at h
  cases hstep with
  | newJob hnew htime =>
    rw [InTurn, hinv.newJob_queue P htime hnew]
    simp only [List.reverse_cons, List.filterMap_append, ← h]
    simp [List.filterMap_cons, Event.leaver, Event.comer, running]
  | @quantumExpired time returned g htime hcall =>
    rw [schedulerQuantumExpired.eq_def, hinv.scheme,
      if_neg (show ¬ Scheme.fcfs.preemptive by decide)] at hcall
    rw [InTurn, List.reverse_cons, List.filterMap_append, List.filterMap_append, ← h]
    cases hr : running w.history with
    | none =>
      rw [hr] at hcall
      rw [← dispatch_queue hcall]
      simp [List.filterMap_cons, Event.leaver, Event.comer, running]
    | some job =>
      rw [hr] at hcall
      obtain ⟨rfl, rfl⟩ := Prod.mk.inj (Option.some.inj hcall)
      simp [List.filterMap_cons, Event.leaver, Event.comer, running]
  | @jobFinished job time g htime hrunning hcall =>
    obtain ⟨x, -, rfl⟩ := Option.map_eq_some_iff.mp hcall
    rw [InTurn, List.reverse_cons, List.filterMap_append, List.filterMap_append, ← h, hrunning]
    simp [List.filterMap_cons, Event.leaver, Event.comer, running]

/-! ## Round robin -/

/-- `other` does not get the CPU before `job`: it waits behind it, it has the CPU, or it is done. -/
def Behind (w : World J R) (job other : J) : Prop :=
  [job, other].Sublist w.globals.pqueue ∨ running w.history = some other ∨
    ∃ time, .finished other time ∈ w.history

/-- While a job waits, no other gets the CPU twice, since it waits behind it afterwards. -/
def Fair (w : World J R) : Prop :=
  ∀ later earlier job, w.history = later ++ earlier → (arrival earlier job).isSome →
    Unfinished w.history job → job ∉ later.filterMap Event.dispatched →
      (later.filterMap Event.dispatched).Nodup ∧
        ∀ other ∈ later.filterMap Event.dispatched, Behind w job other

omit [LinearOrder R] [AddCommGroup R] in
theorem arrival_append {later earlier : List (Event J R)} (h : (arrival earlier job).isSome) :
    (arrival (later ++ earlier) job).isSome := by
  rw [arrival, List.findSome?_append]
  cases later.findSome? _ with
  | none => exact h
  | some x => rfl

omit [LinearOrder R] [AddCommGroup R] in
/-- What an event has to keep for the jobs that wait before and behind it. -/
theorem Fair.cons (h : Fair w) (hhistory : w'.history = e :: w.history)
    (hnext : ∀ turns job, Unfinished w.history job → job ∉ e.dispatched.toList ++ turns →
      turns.Nodup → (∀ other ∈ turns, Behind w job other) →
        (e.dispatched.toList ++ turns).Nodup ∧
          ∀ other ∈ e.dispatched.toList ++ turns, Behind w' job other) : Fair w' := by
  intro later earlier job heq harrived hun hwaits
  rw [hhistory] at heq hun
  cases later with
  | nil => exact ⟨List.nodup_nil, fun other hother => absurd hother List.not_mem_nil⟩
  | cons e' later =>
    obtain ⟨rfl, hrest⟩ := List.cons.inj heq
    have hturns : (e :: later).filterMap Event.dispatched =
        e.dispatched.toList ++ later.filterMap Event.dispatched := by
      cases he : e.dispatched <;> simp [he]
    rw [hturns] at hwaits ⊢
    have hun' : Unfinished w.history job :=
      ⟨hrest ▸ arrival_append harrived, fun time hmem => hun.2 time (List.mem_cons_of_mem _ hmem)⟩
    obtain ⟨hnodup, hbehind⟩ := h later earlier job hrest harrived hun'
      fun hmem => hwaits (List.mem_append_right _ hmem)
    exact hnext _ job hun' hwaits hnodup hbehind

/-- A job that waits is in the queue behind an eviction, in front of those that are behind it. -/
theorem Behind.evict (hinv : Inv s w) (hun : Unfinished w.history job) (hne : other ≠ job)
    (h : Behind w job other) :
    [job, other].Sublist (w.globals.pqueue ++ (running w.history).toList) ∨
      ∃ time, .finished other time ∈ w.history := by
  rcases h with hqueue | hrunning | hfinished
  · exact .inl (hqueue.trans (List.sublist_append_left _ _))
  · have hjob : job ∈ w.globals.pqueue := by
      rw [hinv.mem, hrunning]
      exact ⟨hun, fun heq => hne (Option.some.inj heq)⟩
    rw [hrunning]
    exact .inl ((List.singleton_sublist.mpr hjob).append (List.Sublist.refl [other]))
  · exact .inr hfinished

theorem step_fair {P : Priqueue J} {a : Action J R} (hinv : Inv .rr w) (h : Fair w)
    (hsorted : Sorted w.history) (hpos : ∀ e ∈ w.history, 0 ≤ e.time) (hstep : Step P w a w') :
    Fair w' := by
  have hinv' := step_inv P hinv hstep
  cases hstep with
  | @newJob job' jobNumber time schedData hnew htime =>
    refine h.cons rfl fun turns job hun hnot hnodup hbehind => ⟨hnodup, fun other hother => ?_⟩
    have hnotin : job' ∉ w.globals.pqueue := by
      intro hmem
      simpa [hnew] using ((hinv.mem job').mp hmem).1.1
    rcases hbehind other hother with hqueue | hrunning | ⟨t, hfinished⟩
    · apply Or.inl
      apply hqueue.trans
      apply InOrder.sublist_offer (consistent_compare _)
      exact InOrder.metadata hinv.order rfl fun other ho =>
        Function.update_of_ne (ne_of_mem_of_not_mem ho hnotin) ..
    · exact .inr (.inl hrunning)
    · exact .inr (.inr ⟨t, List.mem_cons_of_mem _ hfinished⟩)
  | @quantumExpired time returned g htime hcall =>
    have hqueue := hinv.quantum_queue hsorted hpos hcall
    refine h.cons rfl fun turns job hun hnot hnodup hbehind => ?_
    have hevict : ∀ other ∈ turns, [job, other].Sublist (returned.toList ++ g.pqueue) ∨
        ∃ time, .finished other time ∈ w.history := by
      intro other hother
      rw [hqueue]
      apply (hbehind other hother).evict hinv hun
      rintro rfl
      exact hnot (List.mem_append_right _ hother)
    cases returned with
    | none =>
      refine ⟨hnodup, fun other hother => ?_⟩
      rcases hevict other hother with hsub | ⟨t, hfinished⟩
      · exact .inl hsub
      · exact .inr (.inr ⟨t, List.mem_cons_of_mem _ hfinished⟩)
    | some first =>
      have hjob : job ≠ first := by
        rintro rfl
        exact hnot List.mem_cons_self
      have hbehind' : ∀ other ∈ turns, [job, other].Sublist g.pqueue ∨
          ∃ time, .finished other time ∈ w.history := by
        intro other hother
        refine (hevict other hother).imp_left fun hsub => ?_
        rcases List.sublist_cons_iff.mp hsub with hsub | ⟨rest, heq, -⟩
        · exact hsub
        · exact absurd (List.cons.inj heq).1 hjob
      have hfirst : first ∉ turns := by
        intro hmem
        rcases hbehind' first hmem with hsub | ⟨t, hfinished⟩
        · have hwaits : first ∈ g.pqueue := hsub.subset (List.mem_cons_of_mem _ List.mem_cons_self)
          exact ((hinv'.mem first).mp hwaits).2 rfl
        · exact (hinv'.running first rfl).2 t (List.mem_cons_of_mem _ hfinished)
      refine ⟨List.nodup_cons.mpr ⟨hfirst, hnodup⟩, fun other hother => ?_⟩
      rcases List.mem_cons.mp hother with rfl | hother
      · exact .inr (.inl rfl)
      · rcases hbehind' other hother with hsub | ⟨t, hfinished⟩
        · exact .inl hsub
        · exact .inr (.inr ⟨t, List.mem_cons_of_mem _ hfinished⟩)
  | @jobFinished job' time g htime hrunning hcall =>
    obtain ⟨x, -, rfl⟩ := Option.map_eq_some_iff.mp hcall
    refine h.cons rfl fun turns job hun hnot hnodup hbehind => ⟨hnodup, fun other hother => ?_⟩
    rcases hbehind other hother with hqueue | hrunning' | ⟨t, hfinished⟩
    · exact .inl hqueue
    · obtain rfl := Option.some.inj (hrunning.symm.trans hrunning')
      exact .inr (.inr ⟨time, List.mem_cons_self⟩)
    · exact .inr (.inr ⟨t, List.mem_cons_of_mem _ hfinished⟩)

/-! ## Every run -/

theorem step_sorted {P : Priqueue J} {a : Action J R} (h : Sorted w.history)
    (hstep : Step P w a w') : Sorted w'.history := by
  cases hstep with
  | newJob _ htime => exact h.cons htime
  | quantumExpired htime _ => exact h.cons htime
  | jobFinished htime _ _ => exact h.cons htime

theorem init_inv (s : Scheme) : Inv s (.init s : World J R) where
  scheme := rfl
  nodup := List.nodup_nil
  mem job := by simp [World.init, schedulerStartUp, Unfinished, arrival]
  running job hjob := by cases hjob
  order := List.Pairwise.nil
  waiting job hjob := by simp [World.init, schedulerStartUp] at hjob
  onCpu job hjob := by cases hjob
  unknown job _ := ⟨rfl, fun now => rfl, fun time => List.not_mem_nil⟩

/-- First come, first served: the jobs that have finished are the first that came, in their order;
then comes the one that runs, and the others wait in the order in which they came. -/
theorem run_inTurn {P : Priqueue J} {as : List (Action J R)}
    (h : Run (Step P) (.init .fcfs) as w) :
    w.history.reverse.filterMap Event.leaver ++ (running w.history).toList ++ w.globals.pqueue =
      w.history.reverse.filterMap Event.comer := by
  have hinit : Inv .fcfs (.init .fcfs : World J R) ∧ InTurn (.init .fcfs : World J R) :=
    ⟨init_inv .fcfs, rfl⟩
  exact (h.invariant (P := fun w => Inv .fcfs w ∧ InTurn w) hinit fun hi hs =>
    ⟨step_inv P hi.1 hs, step_inTurn hi.1 hi.2 hs⟩).2

/-- Round robin, with times that are not negative: while a job waits, no other job gets the CPU
twice. -/
theorem run_fair {P : Priqueue J} {as : List (Action J R)} {later earlier : List (Event J R)}
    (h : Run (Step P) (.init .rr) as w) (hpos : ∀ e ∈ w.history, 0 ≤ e.time)
    (heq : w.history = later ++ earlier) (harrived : (arrival earlier job).isSome)
    (hun : Unfinished w.history job) (hwaits : job ∉ later.filterMap Event.dispatched) :
    (later.filterMap Event.dispatched).Nodup := by
  have hinit : Inv .rr (.init .rr : World J R) ∧ Sorted (World.init .rr : World J R).history ∧
      ((∀ e ∈ (World.init .rr : World J R).history, 0 ≤ e.time) →
        Fair (.init .rr : World J R)) := by
    refine ⟨init_inv .rr, List.Pairwise.nil, fun _ later earlier job heq harrived => ?_⟩
    obtain ⟨rfl, rfl⟩ := List.append_eq_nil_iff.mp heq.symm
    cases harrived
  have hstep {w w' : World J R} {a : Action J R}
      (h : Inv .rr w ∧ Sorted w.history ∧ ((∀ e ∈ w.history, 0 ≤ e.time) → Fair w))
      (hstep : Step P w a w') :
      Inv .rr w' ∧ Sorted w'.history ∧ ((∀ e ∈ w'.history, 0 ≤ e.time) → Fair w') := by
    obtain ⟨hinv, hsorted, hfair⟩ := h
    refine ⟨step_inv P hinv hstep, step_sorted hsorted hstep, fun hpos => ?_⟩
    have hpos' : ∀ e ∈ w.history, 0 ≤ e.time := by
      obtain ⟨e, he⟩ : ∃ e, w'.history = e :: w.history := by
        cases hstep <;> exact ⟨_, rfl⟩
      exact fun e' he' => hpos e' (he ▸ List.mem_cons_of_mem e he')
    exact step_fair hinv (hfair hpos') hsorted hpos' hstep
  obtain ⟨-, -, hfair⟩ := h.invariant
    (P := fun w => Inv .rr w ∧ Sorted w.history ∧ ((∀ e ∈ w.history, 0 ≤ e.time) → Fair w))
    hinit hstep
  exact (hfair hpos later earlier job heq harrived hun hwaits).1

/-- Job 2 comes while job 1 runs, and job 1 keeps the CPU at the end of the quantum. -/
theorem run_inTurn_two : ∃ w : World ℕ ℤ, w.globals.pqueue = [2] ∧
    w.history.reverse.filterMap Event.leaver ++ (running w.history).toList ++ w.globals.pqueue =
      w.history.reverse.filterMap Event.comer := by
  have hstart : Run (Step .insertion) (.init .fcfs) [] (.init .fcfs : World ℕ ℤ) := .refl
  have hfirst := hstart.tail (a := .newJob 1 0 0 { runningTime := 10, priority := 2 })
    (.newJob rfl (by simp [World.init]))
  have hquantum := hfirst.tail (a := .quantumExpired 0)
    (.quantumExpired (by simp [World.init, Event.time]) rfl)
  have hsecond := hquantum.tail (a := .newJob 2 1 1 { runningTime := 5, priority := 1 })
    (.newJob rfl (by simp [World.init, Event.time]))
  have hrun := hsecond.tail (a := .quantumExpired 2)
    (.quantumExpired (by simp [World.init, Event.time]) rfl)
  exact ⟨_, rfl, run_inTurn hrun⟩

/-- Job 3 waits while jobs 1 and 2 get the CPU; job 1 is then behind it. -/
theorem run_fair_three : ∃ (as : List (Action ℕ ℤ)) (w : World ℕ ℤ) (later : List (Event ℕ ℤ)),
    Run (Step .insertion) (.init .rr) as w ∧ w.globals.pqueue = [3, 1] ∧
      later = w.history.take 2 ∧ later.filterMap Event.dispatched = [2, 1] ∧
        (later.filterMap Event.dispatched).Nodup := by
  have hstart : Run (Step .insertion) (.init .rr) [] (.init .rr : World ℕ ℤ) := .refl
  have hfirst := hstart.tail (a := .newJob 1 0 0 { runningTime := 10, priority := 2 })
    (.newJob rfl (by simp [World.init]))
  have hsecond := hfirst.tail (a := .newJob 2 1 0 { runningTime := 5, priority := 1 })
    (.newJob rfl (by simp [World.init, Event.time]))
  have hthird := hsecond.tail (a := .newJob 3 2 0 { runningTime := 5, priority := 1 })
    (.newJob rfl (by simp [World.init, Event.time]))
  have hquantum := hthird.tail (a := .quantumExpired 0)
    (.quantumExpired (by simp [World.init, Event.time]) rfl)
  have hrun := hquantum.tail (a := .quantumExpired 1)
    (.quantumExpired (by simp [World.init, Event.time]) rfl)
  have hfair := @run_fair ℕ ℤ _ _ _ 3 _ _ _ [.quantum 1 (some 2), .quantum 0 (some 1)] _ hrun
    (by simp [World.init, Event.time]) rfl rfl (by simp [Unfinished, arrival, World.init])
    (by simp [Event.dispatched])
  exact ⟨_, _, _, hrun, rfl, rfl, rfl, hfair⟩

end Cs241.Scheduler
