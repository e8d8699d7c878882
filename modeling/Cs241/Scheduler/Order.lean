import Cs241.Scheduler.Model

/-!
# Which job is chosen

The metadata of a waiting job says what the history of the run says: its arrival
and what was declared always, the CPU time it has received and its last dispatch
in the schemes that evict jobs. Nothing of this changes while the job waits, so
that the queue stays in order and its front is least.
-/
namespace Cs241.Scheduler

open Foundation

variable {J R : Type*} [LinearOrder R] [AddCommGroup R] {s : Scheme}

theorem consistent_comparisionFunc (s : Scheme) :
    Consistent (comparisionFunc s : JobInfo R → JobInfo R → ℤ) := by
  have htie : Consistent (breakTie : JobInfo R → JobInfo R → ℤ) := consistent_equal.compareBy
  cases s with
  | fcfs => exact htie
  | pri => exact htie.compareBy
  | ppri => exact htie.compareBy
  | psrtf => exact htie.compareBy
  | rr => exact consistent_equal.compareBy
  | sjf => exact htie.compareBy

theorem consistent_compare (g : Globals J R) : Consistent g.compare :=
  ⟨(consistent_comparisionFunc g.pqueueScheme).trans,
    (consistent_comparisionFunc g.pqueueScheme).total⟩

/-- What a comparison function reads of the metadata is the standing of the job. -/
structure Agrees (s : Scheme) (info : JobInfo R) (a : Standing R) : Prop where
  arrived : info.xxtime = a.arrived
  priority : info.priority = a.declared.priority
  runningTime : info.rt = a.declared.runningTime
  received : s.preemptive → info.ut = a.received
  dispatched : s.preemptive → info.rrTime = a.dispatched

omit [AddCommGroup R] in
theorem comparerFcfs_pos {x y : JobInfo R} {a b : Standing R} (hx : Agrees s x a)
    (hy : Agrees s y b) (h : a.arrived < b.arrived) : 0 < comparerFcfs y x :=
  compareBy_pos.mpr (.inl (by rw [hx.arrived, hy.arrived]; exact h))

omit [AddCommGroup R] in
theorem compareBy_breakTie_pos {β : Type*} [LinearOrder β] (key : JobInfo R → β) {x y : JobInfo R}
    {a b : Standing R} (hx : Agrees s x a) (hy : Agrees s y b)
    (h : key x < key y ∨ key x = key y ∧ a.arrived < b.arrived) : 0 < compareBy key breakTie y x :=
  compareBy_pos.mpr (h.imp_right fun htie => ⟨htie.1.symm, comparerFcfs_pos hx hy htie.2⟩)

theorem comparisionFunc_pos {x y : JobInfo R} {a b : Standing R} (hx : Agrees s x a)
    (hy : Agrees s y b) (h : Precedes s a b) : 0 < comparisionFunc s y x := by
  cases s with
  | fcfs => exact comparerFcfs_pos hx hy h
  | pri =>
    apply compareBy_breakTie_pos JobInfo.priority hx hy
    rwa [hx.priority, hy.priority]
  | ppri =>
    apply compareBy_breakTie_pos JobInfo.priority hx hy
    rwa [hx.priority, hy.priority]
  | psrtf =>
    apply compareBy_breakTie_pos (fun a : JobInfo R => a.rt - a.ut) hx hy
    rwa [hx.runningTime, hy.runningTime, hx.received rfl, hy.received rfl]
  | rr =>
    have hlt : x.rrTime < y.rrTime := by
      rwa [hx.dispatched rfl, hy.dispatched rfl]
    show 0 < compareBy JobInfo.rrTime (fun _ _ => 0) y x
    exact compareBy_pos.mpr (.inl hlt)
  | sjf =>
    apply compareBy_breakTie_pos JobInfo.rt hx hy
    rwa [hx.runningTime, hy.runningTime]

variable [DecidableEq J] {history : List (Event J R)} {job other : J} {info : JobInfo R} {now : R}

/-- The metadata of `job` as the history has it, with the CPU time received until `now`. -/
structure UpToDate (s : Scheme) (history : List (Event J R)) (now : R) (job : J)
    (info : JobInfo R) : Prop where
  arrival : arrival history job =
    some (info.xxtime, { runningTime := info.rt, priority := info.priority })
  received : s.preemptive → cpuTime history job now = info.ut
  dispatched : s.preemptive → lastDispatch history job = info.rrTime

omit [LinearOrder R] in
theorem UpToDate.agrees (h : UpToDate s history now job info) {a : Standing R}
    (ha : a ∈ standing history now job) : Agrees s info a := by
  simp only [standing, h.arrival, Option.map_some, Option.mem_some_iff] at ha
  subst ha
  exact ⟨rfl, rfl, rfl, fun hs => (h.received hs).symm, fun hs => (h.dispatched hs).symm⟩

/-- The state when the CPU is free at `now`: all unfinished jobs wait, in the order of their
standing. -/
structure Waiting (s : Scheme) (history : List (Event J R)) (now : R) (g : Globals J R) : Prop where
  scheme : g.pqueueScheme = s
  nodup : g.pqueue.Nodup
  mem : ∀ job, job ∈ g.pqueue ↔ Unfinished history job
  order : InOrder g.compare g.pqueue
  metadata : ∀ job, Unfinished history job →
    ∃ info, g.metadata job = some info ∧ UpToDate s history now job info

/-- A job that was never added has had no CPU time and has not finished. -/
def Unknown (history : List (Event J R)) : Prop :=
  ∀ job, arrival history job = none → lastDispatch history job = 0 ∧
    (∀ now, cpuTime history job now = 0) ∧ ∀ time, .finished job time ∉ history

/-- The state between two calls. -/
structure Inv (s : Scheme) (w : World J R) : Prop where
  scheme : w.globals.pqueueScheme = s
  nodup : w.globals.pqueue.Nodup
  mem : ∀ job, job ∈ w.globals.pqueue ↔
    Unfinished w.history job ∧ running w.history ≠ some job
  running : ∀ job, running w.history = some job → Unfinished w.history job
  order : InOrder w.globals.compare w.globals.pqueue
  waiting : ∀ job ∈ w.globals.pqueue, ∀ now,
    ∃ info, w.globals.metadata job = some info ∧ UpToDate s w.history now job info
  onCpu : ∀ job, Scheduler.running w.history = some job →
    ∃ info, w.globals.metadata job = some info ∧
    ∀ now, UpToDate s w.history now job { info with ut := info.ut + (now - info.rrTime) }
  unknown : Unknown w.history

omit [LinearOrder R] [DecidableEq J] in
theorem Globals.info_eq {g : Globals J R} (h : g.metadata job = some info) : g.info job = info := by
  rw [Globals.info, h, Option.getD_some]

/-- The front of the queue is least when the CPU is free. -/
theorem Waiting.least {g : Globals J R} {q : List J} (h : Waiting s history now g)
    (hq : g.pqueue = job :: q) : Least s history now (Unfinished history) job := by
  have hjob : Unfinished history job := (h.mem job).mp (hq ▸ List.mem_cons_self)
  refine ⟨hjob, fun other hother a ha b hb hprecedes => ?_⟩
  obtain ⟨x, hx, hxdate⟩ := h.metadata other hother
  obtain ⟨y, hy, hydate⟩ := h.metadata job hjob
  have hfront : ¬ 0 < g.compare job other :=
    InOrder.head_least (consistent_compare g) (hq ▸ h.order) other (hq ▸ (h.mem other).mpr hother)
  rw [Globals.compare, Globals.info_eq hx, Globals.info_eq hy, h.scheme] at hfront
  exact hfront (comparisionFunc_pos (hxdate.agrees ha) (hydate.agrees hb) hprecedes)

omit [DecidableEq J] in
/-- The order of a queue depends on the metadata of its own jobs. -/
theorem InOrder.metadata {g g' : Globals J R} {q : List J} (h : InOrder g.compare q)
    (hscheme : g'.pqueueScheme = g.pqueueScheme)
    (hmetadata : ∀ job ∈ q, g'.metadata job = g.metadata job) : InOrder g'.compare q :=
  h.congr fun a ha b hb => by
    simp only [Globals.compare, Globals.info, hscheme, hmetadata a ha, hmetadata b hb]

/-- Offering a job that is not in the queue, with new metadata. -/
theorem priqueueOffer_spec (P : Priqueue J) {g : Globals J R} (h : InOrder g.compare g.pqueue)
    (hnd : g.pqueue.Nodup) (hjob : job ∉ g.pqueue) (info : JobInfo R) :
    let g' := priqueueOffer P (g.setMetadata job info) job
    InOrder g'.compare g'.pqueue ∧ g'.pqueue.Nodup ∧
      (∀ other, other ∈ g'.pqueue ↔ other = job ∨ other ∈ g.pqueue) := by
  obtain ⟨horder, hperm⟩ := InOrder.offer (P := P)
    (consistent_compare (g.setMetadata job info)) (InOrder.metadata h rfl fun other ho =>
      Function.update_of_ne (ne_of_mem_of_not_mem ho hjob) ..) job
  refine ⟨horder, ?_, fun other => ?_⟩
  · exact hperm.nodup_iff.mpr (List.nodup_cons.mpr ⟨hjob, hnd⟩)
  · exact hperm.mem_iff.trans List.mem_cons

omit [LinearOrder R] [AddCommGroup R] in
theorem unfinished_quantum {returned : Option J} {time : R} :
    Unfinished (.quantum time returned :: history) job ↔ Unfinished history job := by
  simp [Unfinished, arrival]

omit [LinearOrder R] in
theorem UpToDate.quantum {returned : Option J} {time : R} (h : UpToDate s history time job info)
    (hne : returned ≠ some job) : UpToDate s (.quantum time returned :: history) now job info where
  arrival := h.arrival
  received hs := by
    rw [cpuTime_quantum, h.received hs, if_neg hne, add_zero]
  dispatched hs := by
    rw [lastDispatch, if_neg hne, h.dispatched hs]

omit [LinearOrder R] in
/-- The dispatched job has the CPU from now on. -/
theorem UpToDate.dispatch {time st : R} (h : UpToDate s history time job info) :
    UpToDate s (.quantum time (some job) :: history) now job
      { info with rrTime := time, st := st, ut := info.ut + (now - time) } where
  arrival := h.arrival
  received hs := by
    rw [cpuTime_quantum, h.received hs, if_pos rfl]
  dispatched _ := by
    rw [lastDispatch, if_pos rfl]

omit [LinearOrder R] in
theorem Unknown.quantum {returned : Option J} {time : R} (h : Unknown history)
    (hreturned : ∀ job, returned = some job → (arrival history job).isSome) :
    Unknown (.quantum time returned :: history) := by
  intro job hjob
  have hjob : arrival history job = none := hjob
  have hne : returned ≠ some job := fun heq => by simpa [hjob] using hreturned job heq
  obtain ⟨hlast, hcpu, hfinished⟩ := h job hjob
  refine ⟨by rw [lastDispatch, if_neg hne, hlast], fun now => ?_, by simpa using hfinished⟩
  rw [cpuTime_quantum, hcpu, if_neg hne, add_zero]

theorem dispatch_spec (P : Priqueue J) {g : Globals J R} {time : R}
    (h : Waiting s history time g) (hunknown : Unknown history) :
    ∃ returned g', dispatch P g time = some (returned, g') ∧
      LeastUnfinished s history time returned ∧
      Inv s { globals := g', history := .quantum time returned :: history } := by
  cases hq : g.pqueue with
  | nil =>
    have hnone : ∀ job, ¬ Unfinished history job := fun job hjob => by
      simpa [hq] using (h.mem job).mpr hjob
    refine ⟨none, g, by simp [dispatch, hq, P.poll_nil], hnone, ?_⟩
    exact
      { scheme := h.scheme
        nodup := h.nodup
        mem := fun job => by simp [unfinished_quantum, h.mem, running]
        running := fun job hjob => by cases hjob
        order := h.order
        waiting := fun job hjob => by simp [hq] at hjob
        onCpu := fun job hjob => by cases hjob
        unknown := hunknown.quantum (by simp) }
  | cons job q =>
    have hjob : Unfinished history job := (h.mem job).mp (hq ▸ List.mem_cons_self)
    obtain ⟨info, hinfo, hdate⟩ := h.metadata job hjob
    obtain ⟨hnotin, hnd⟩ := List.nodup_cons.mp (hq ▸ h.nodup)
    have hdispatch : dispatch P g time = some (some job, { g with pqueue := q }.setMetadata job
        { info with rrTime := time, st := if info.ut = 0 then time else info.st }) := by
      simp [dispatch, hq, P.poll_cons, hinfo]
    refine ⟨some job, _, hdispatch, h.least hq, ?_⟩
    have hmem : ∀ other, other ∈ q ↔ Unfinished history other ∧ other ≠ job := by
      intro other
      rw [← h.mem, hq, List.mem_cons]
      refine ⟨fun ho => ⟨.inr ho, ne_of_mem_of_not_mem ho hnotin⟩, fun ho => ?_⟩
      exact ho.1.resolve_left ho.2
    exact
      { scheme := h.scheme
        nodup := hnd
        mem := fun other => by
          rw [unfinished_quantum]
          exact (hmem other).trans (and_congr_right fun _ => by simp [running, eq_comm])
        running := fun other ho => by
          obtain rfl : job = other := Option.some.inj ho
          exact unfinished_quantum.mpr hjob
        order := by
          have hrest : InOrder { g with pqueue := q }.compare q := by
            have hall := h.order
            rw [hq] at hall
            exact (List.pairwise_cons.mp hall).2
          exact InOrder.metadata hrest rfl fun other ho =>
            Function.update_of_ne (ne_of_mem_of_not_mem ho hnotin) ..
        waiting := fun other ho now => by
          obtain ⟨hun, hne⟩ := (hmem other).mp ho
          obtain ⟨info', hinfo', hdate'⟩ := h.metadata other hun
          refine ⟨info', ?_, hdate'.quantum (by simpa using hne.symm)⟩
          simpa [Globals.setMetadata, hne] using hinfo'
        onCpu := fun other ho => by
          obtain rfl : job = other := Option.some.inj ho
          exact ⟨_, by simp [Globals.setMetadata]; rfl, fun now => hdate.dispatch⟩
        unknown := hunknown.quantum fun other ho => by
          obtain rfl : job = other := Option.some.inj ho
          exact hjob.1 }

/-- Between two calls, when no job has the CPU, all unfinished jobs wait. -/
theorem Inv.free {w : World J R} (h : Inv s w) (hnone : Scheduler.running w.history = none)
    (time : R) : Waiting s w.history time w.globals where
  scheme := h.scheme
  nodup := h.nodup
  mem job := by
    rw [h.mem, hnone]
    simp
  order := h.order
  metadata job hjob := h.waiting job ((h.mem job).mpr ⟨hjob, by simp [hnone]⟩) time

theorem evict_eq (P : Priqueue J) {g : Globals J R} (hinfo : g.metadata job = some info)
    (time : R) :
    evict P g time (some job) = some
      (priqueueOffer P
        (g.setMetadata job { info with ut := info.ut + (time - info.rrTime) }) job) := by
  simp only [evict, hinfo, Option.map_some]

/-- The evicted job waits with the others, and its CPU time is up to date. -/
theorem Inv.evict (P : Priqueue J) {w : World J R} (h : Inv s w)
    (hjob : Scheduler.running w.history = some job) (time : R) :
    ∃ g, evict P w.globals time (some job) = some g ∧ Waiting s w.history time g := by
  obtain ⟨info, hinfo, hdate⟩ := h.onCpu job hjob
  have hnotin : job ∉ w.globals.pqueue := fun hmem => ((h.mem job).mp hmem).2 hjob
  obtain ⟨horder, hnd, hmem⟩ := priqueueOffer_spec P h.order h.nodup hnotin
    { info with ut := info.ut + (time - info.rrTime) }
  refine ⟨_, evict_eq P hinfo time, ?_⟩
  exact
    { scheme := h.scheme
      nodup := hnd
      mem := fun other => by
        rw [hmem, h.mem, hjob]
        refine ⟨fun ho => ?_, fun ho => ?_⟩
        · rcases ho with rfl | ho
          · exact h.running other hjob
          · exact ho.1
        · rcases eq_or_ne other job with rfl | hne
          · exact .inl rfl
          · exact .inr ⟨ho, by simpa using hne.symm⟩
      order := horder
      metadata := fun other ho => by
        rcases eq_or_ne other job with rfl | hne
        · exact ⟨_, Function.update_self .., hdate time⟩
        · have hin : other ∈ w.globals.pqueue :=
            (h.mem other).mpr ⟨ho, by simpa [hjob] using hne.symm⟩
          obtain ⟨info', hinfo', hdate'⟩ := h.waiting other hin time
          exact ⟨info', (Function.update_of_ne hne ..).trans hinfo', hdate'⟩ }

omit [LinearOrder R] in
/-- A scheme that evicts no job reads nothing but what was declared. -/
theorem UpToDate.of_arrival (hs : ¬ s.preemptive) (h : Scheduler.arrival history job =
      some (info.xxtime, { runningTime := info.rt, priority := info.priority })) :
    UpToDate s history now job info :=
  ⟨h, fun h => absurd h hs, fun h => absurd h hs⟩

/-- A job that is not evicted keeps the CPU. -/
theorem Inv.keep {w : World J R} (h : Inv s w) (hs : ¬ s.preemptive)
    (hjob : Scheduler.running w.history = some job) (time : R) :
    Inv s { w with history := .quantum time (some job) :: w.history } where
  scheme := h.scheme
  nodup := h.nodup
  mem other := by
    rw [unfinished_quantum, h.mem, hjob]
    rfl
  running other ho := unfinished_quantum.mpr (h.running other (hjob.trans ho))
  order := h.order
  waiting other ho now := by
    obtain ⟨info, hinfo, hdate⟩ := h.waiting other ho now
    exact ⟨info, hinfo, .of_arrival hs hdate.arrival⟩
  onCpu other ho := by
    obtain ⟨info, hinfo, hdate⟩ := h.onCpu other (hjob.trans ho)
    exact ⟨info, hinfo, fun now => .of_arrival hs (hdate now).arrival⟩
  unknown := h.unknown.quantum fun other ho => by
    obtain rfl : job = other := Option.some.inj ho
    exact (h.running job hjob).1

/-- The end of a quantum is answered as the scheme asks. -/
theorem schedulerQuantumExpired_spec (P : Priqueue J) {w : World J R} (h : Inv s w) (time : R) :
    ∃ returned g, schedulerQuantumExpired P w.globals (Scheduler.running w.history) time =
        some (returned, g) ∧ Chosen s w.history time returned ∧
      Inv s { globals := g, history := .quantum time returned :: w.history } := by
  by_cases hs : s.preemptive
  · have hwaiting : ∃ g, Scheduler.evict P w.globals time (Scheduler.running w.history) = some g ∧
        Waiting s w.history time g := by
      cases hr : Scheduler.running w.history with
      | none => exact ⟨w.globals, rfl, h.free hr time⟩
      | some job => exact h.evict P hr time
    obtain ⟨g, hg, hwait⟩ := hwaiting
    obtain ⟨returned, g', hdispatch, hleast, hinv⟩ := dispatch_spec P hwait h.unknown
    refine ⟨returned, g', ?_, ?_, hinv⟩
    · rw [schedulerQuantumExpired.eq_def, h.scheme, if_pos hs, hg, Option.bind_some, hdispatch]
    · rw [Chosen, if_pos (.inl hs)]
      exact hleast
  · cases hr : Scheduler.running w.history with
    | none =>
      obtain ⟨returned, g', hdispatch, hleast, hinv⟩ :=
        dispatch_spec P (h.free hr time) h.unknown
      refine ⟨returned, g', ?_, ?_, hinv⟩
      · rw [schedulerQuantumExpired, h.scheme, if_neg hs]
        exact hdispatch
      · rw [Chosen, if_pos (.inr hr)]
        exact hleast
    | some job =>
      refine ⟨some job, w.globals, ?_, ?_, h.keep hs hr time⟩
      · rw [schedulerQuantumExpired, h.scheme, if_neg hs]
      · rw [Chosen, if_neg (by simp [hs, hr]), hr]

omit [LinearOrder R] [AddCommGroup R] in
theorem arrival_arrived {time : R} {schedData : SchedulerInfo R} :
    arrival (.arrived other time schedData :: history) job =
      if other = job then some (time, schedData) else arrival history job := by
  by_cases h : other = job <;> simp [arrival, h]

omit [LinearOrder R] [AddCommGroup R] in
theorem unfinished_finished {time : R} :
    Unfinished (.finished other time :: history) job ↔ Unfinished history job ∧ other ≠ job := by
  simp only [Unfinished, arrival, List.findSome?_cons, List.mem_cons, not_or]
  constructor
  · rintro ⟨harr, hfin⟩
    exact ⟨⟨harr, fun t => (hfin t).2⟩, fun heq => (hfin time).1 (heq ▸ rfl)⟩
  · rintro ⟨⟨harr, hfin⟩, hne⟩
    refine ⟨harr, fun t => ⟨fun heq => hne ?_, hfin t⟩⟩
    injection heq with hjob
    exact hjob.symm

omit [LinearOrder R] in
theorem unfinished_arrived {time : R} {schedData : SchedulerInfo R} (hunknown : Unknown history)
    (hnew : arrival history other = none) :
    Unfinished (.arrived other time schedData :: history) job ↔
      job = other ∨ Unfinished history job := by
  rcases eq_or_ne other job with rfl | hne
  · simpa [Unfinished, arrival_arrived] using (hunknown other hnew).2.2
  · simp [Unfinished, arrival_arrived, hne, hne.symm]

omit [LinearOrder R] in
theorem UpToDate.arrived {time : R} {schedData : SchedulerInfo R}
    (h : UpToDate s history time job info) (hne : other ≠ job)
    (hrunning : running history ≠ some job) :
    UpToDate s (.arrived other time schedData :: history) now job info where
  arrival := by rw [arrival_arrived, if_neg hne, h.arrival]
  received hs := by rw [cpuTime_arrived, h.received hs, if_neg hrunning, add_zero]
  dispatched := h.dispatched

omit [LinearOrder R] in
/-- The job that has the CPU goes on receiving time while another one comes. -/
theorem UpToDate.arrived_running {time : R} {schedData : SchedulerInfo R}
    (h : UpToDate s history time job { info with ut := info.ut + (time - info.rrTime) })
    (hne : other ≠ job) (hrunning : running history = some job) :
    UpToDate s (.arrived other time schedData :: history) now job
      { info with ut := info.ut + (now - info.rrTime) } where
  arrival := by rw [arrival_arrived, if_neg hne, h.arrival]
  received hs := by
    rw [cpuTime_arrived, h.received hs, if_pos hrunning, add_assoc, sub_add_sub_cancel']
  dispatched := h.dispatched

omit [LinearOrder R] in
theorem Unknown.arrived {time : R} {schedData : SchedulerInfo R} (h : Unknown history)
    (hrunning : ∀ job, running history = some job → Unfinished history job) :
    Unknown (.arrived other time schedData :: history) := by
  intro job hjob
  rw [arrival_arrived] at hjob
  split_ifs at hjob with heq
  obtain ⟨hlast, hcpu, hfinished⟩ := h job hjob
  refine ⟨hlast, fun now => ?_, by simpa using hfinished⟩
  have hne : running history ≠ some job := fun hr => by simpa [hjob] using (hrunning job hr).1
  rw [cpuTime_arrived, hcpu, if_neg hne, add_zero]

theorem schedulerNewJob_spec (P : Priqueue J) {w : World J R} (h : Inv s w)
    (hnew : arrival w.history job = none) (jobNumber : ℤ) (time : R)
    (schedData : SchedulerInfo R) :
    Inv s { globals := schedulerNewJob P w.globals job jobNumber time schedData
            history := .arrived job time schedData :: w.history } := by
  have hunfinished : ¬ Unfinished w.history job := fun hun => by simpa [hnew] using hun.1
  have hne : ∀ other, Unfinished w.history other → job ≠ other :=
    fun other ho heq => hunfinished (heq ▸ ho)
  have hnotin : job ∉ w.globals.pqueue := fun hmem => hunfinished ((h.mem job).mp hmem).1
  have hidle : Scheduler.running w.history ≠ some job := fun hr => hunfinished (h.running job hr)
  obtain ⟨horder, hnd, hmem⟩ := priqueueOffer_spec P h.order h.nodup hnotin
    { xxtime := time, priority := schedData.priority, id := jobNumber,
      rt := schedData.runningTime, st := 0, rrTime := 0, ut := 0, et := 0 }
  obtain ⟨hlast, hcpu, -⟩ := h.unknown job hnew
  exact
    { scheme := h.scheme
      nodup := hnd
      mem := fun other => by
        apply (hmem other).trans
        rw [unfinished_arrived h.unknown hnew, h.mem]
        refine ⟨?_, fun ho => ho.1.imp_right fun hun => ⟨hun, ho.2⟩⟩
        rintro (rfl | ho)
        · exact ⟨.inl rfl, hidle⟩
        · exact ⟨.inr ho.1, ho.2⟩
      running := fun other ho =>
        (unfinished_arrived h.unknown hnew).mpr (.inr (h.running other ho))
      order := horder
      waiting := fun other ho now => by
        rcases (hmem other).mp ho with rfl | ho
        · refine ⟨_, Function.update_self .., ?_, fun _ => ?_, fun _ => hlast⟩
          · rw [arrival_arrived, if_pos rfl]
          · rw [cpuTime_arrived, hcpu, if_neg hidle, add_zero]
        · obtain ⟨hun, hr⟩ := (h.mem other).mp ho
          obtain ⟨info, hinfo, hdate⟩ := h.waiting other ho time
          exact ⟨info, (Function.update_of_ne (hne other hun).symm ..).trans hinfo,
            hdate.arrived (hne other hun) hr⟩
      onCpu := fun other ho => by
        have hother := hne other (h.running other ho)
        obtain ⟨info, hinfo, hdate⟩ := h.onCpu other ho
        exact ⟨info, (Function.update_of_ne hother.symm ..).trans hinfo,
          fun now => (hdate time).arrived_running hother ho⟩
      unknown := h.unknown.arrived h.running }

theorem schedulerJobFinished_spec {w : World J R} (h : Inv s w)
    (hjob : Scheduler.running w.history = some job) (time : R) :
    ∃ g, schedulerJobFinished w.globals job time = some g ∧
      Inv s { globals := g, history := .finished job time :: w.history } := by
  obtain ⟨info, hinfo, -⟩ := h.onCpu job hjob
  have hne : ∀ other ∈ w.globals.pqueue, other ≠ job := fun other ho heq =>
    ((h.mem other).mp ho).2 (heq ▸ hjob)
  refine ⟨_, by rw [schedulerJobFinished, hinfo, Option.map_some], ?_⟩
  exact
    { scheme := h.scheme
      nodup := h.nodup
      mem := fun other => by
        rw [unfinished_finished, h.mem, hjob]
        simp [Scheduler.running]
      running := fun other ho => by cases ho
      order := InOrder.metadata h.order rfl fun other ho => Function.update_of_ne (hne other ho) ..
      waiting := fun other ho now => by
        obtain ⟨info', hinfo', hdate⟩ := h.waiting other ho time
        refine ⟨info', (Function.update_of_ne (hne other ho) ..).trans hinfo', hdate.arrival,
          fun hs => ?_, hdate.dispatched⟩
        rw [cpuTime_finished, hdate.received hs]
      onCpu := fun other ho => by cases ho
      unknown := fun other ho => by
        obtain ⟨hlast, hcpu, hfinished⟩ := h.unknown other ho
        refine ⟨hlast, fun now => by rw [cpuTime_finished, hcpu], fun t ht => ?_⟩
        rcases List.mem_cons.mp ht with heq | ht
        · injection heq with heq
          have hsome := (h.running job hjob).1
          rw [← heq] at hsome
          simp [show arrival w.history other = none from ho] at hsome
        · exact hfinished t ht }

theorem step_inv (P : Priqueue J) {w w' : World J R} {a : Action J R} (h : Inv s w)
    (hstep : Step P w a w') : Inv s w' := by
  cases hstep with
  | newJob hnew _ => exact schedulerNewJob_spec P h hnew _ _ _
  | @quantumExpired time returned g _ hcall =>
    obtain ⟨returned', g', hcall', -, hinv⟩ := schedulerQuantumExpired_spec P h time
    obtain ⟨rfl, rfl⟩ := Prod.mk.inj (Option.some.inj (hcall'.symm.trans hcall))
    exact hinv
  | @jobFinished job time g _ hrunning hcall =>
    obtain ⟨g', hcall', hinv⟩ := schedulerJobFinished_spec h hrunning time
    obtain rfl := Option.some.inj (hcall'.symm.trans hcall)
    exact hinv

/-- In every run of every scheme each unfinished job is in exactly one of the queue and the CPU, and
the end of a quantum is answered with the job that comes first by the history of the run. -/
theorem run_chosen (P : Priqueue J) {as : List (Action J R)} {w : World J R}
    (h : Run (Step P) (.init s) as w) :
    w.globals.pqueue.Nodup ∧
      (∀ job, Unfinished w.history job ↔
        job ∈ w.globals.pqueue ∧ running w.history ≠ some job ∨
        job ∉ w.globals.pqueue ∧ running w.history = some job) ∧
      ∀ time, ∃ returned g, schedulerQuantumExpired P w.globals (running w.history) time =
        some (returned, g) ∧ Chosen s w.history time returned := by
  have hinv : Inv s w := by
    refine h.invariant (P := Inv s) ?_ (step_inv P)
    exact
      { scheme := rfl
        nodup := List.nodup_nil
        mem := fun job => by simp [World.init, schedulerStartUp, Unfinished, arrival]
        running := fun job hjob => by cases hjob
        order := List.Pairwise.nil
        waiting := fun job hjob => by simp [World.init, schedulerStartUp] at hjob
        onCpu := fun job hjob => by cases hjob
        unknown := fun job _ => ⟨rfl, fun now => rfl, fun time => List.not_mem_nil⟩ }
  refine ⟨hinv.nodup, fun job => ?_, fun time => ?_⟩
  · rw [hinv.mem]
    refine ⟨fun hun => ?_, fun hcases => ?_⟩
    · by_cases hr : running w.history = some job
      · exact .inr ⟨fun hmem => hmem.2 hr, hr⟩
      · exact .inl ⟨⟨hun, hr⟩, hr⟩
    · rcases hcases with hwaits | hruns
      · exact hwaits.1.1
      · exact hinv.running job hruns.2
  · obtain ⟨returned, g, hcall, hchosen, -⟩ := schedulerQuantumExpired_spec P hinv time
    exact ⟨returned, g, hcall, hchosen⟩

/-- With preemptive priorities a more urgent job takes the CPU at the end of the quantum. -/
theorem run_chosen_urgent : ∃ w : World ℕ ℤ,
    running w.history = some 1 ∧ w.globals.pqueue = [2] ∧
    w.globals.pqueue.Nodup ∧
      (∀ job, Unfinished w.history job ↔
        job ∈ w.globals.pqueue ∧ running w.history ≠ some job ∨
        job ∉ w.globals.pqueue ∧ running w.history = some job) ∧
      ∀ time, ∃ returned g, schedulerQuantumExpired .insertion w.globals (running w.history) time =
        some (returned, g) ∧ Chosen .ppri w.history time returned := by
  have hstart : Run (Step .insertion) (.init .ppri) [] (.init .ppri : World ℕ ℤ) := .refl
  have hfirst := hstart.tail (a := .newJob 1 0 0 { runningTime := 10, priority := 2 })
    (.newJob rfl (by simp [World.init]))
  have hquantum := hfirst.tail (a := .quantumExpired 0)
    (.quantumExpired (by simp [World.init, Event.time]) rfl)
  have hrun := hquantum.tail (a := .newJob 2 1 1 { runningTime := 10, priority := 1 })
    (.newJob rfl (by simp [World.init, Event.time]))
  exact ⟨_, rfl, rfl, run_chosen .insertion hrun⟩

end Cs241.Scheduler
