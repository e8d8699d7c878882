import Cs241.Foundation.Monitor

/-!
# The reusable barrier of `critical_concurrency/barrier.c`

`barrier_wait` counts the threads that have come. The last one broadcasts and
starts the next round; every other one waits once and goes on when
`pthread_cond_wait` returns, whatever the reason for that is.
-/
namespace Cs241.Critical

open Foundation Foundation.Monitor

structure Barrier where
  nThreads : ℕ
  count : ℕ
  timesUsed : ℕ

def barrierInit (numThreads : ℕ) : Barrier :=
  { nThreads := numThreads, count := 0, timesUsed := 0 }

/-- `barrier_wait` up to its wait or its return. -/
def barrierEnter (b : Barrier) : Stretch Barrier ℤ :=
  let b := { b with count := b.count + 1 }
  if b.count = b.nThreads then
    .leave { b with count := 0, timesUsed := b.timesUsed + 1 } 0 .every
  else .wait b

/-- `barrier_wait` after its wait: nothing is tested again. -/
def barrierResume (b : Barrier) : Stretch Barrier ℤ := .leave b 0 .nobody

def barrierMonitor : Monitor Barrier Unit ℤ Unit :=
  { enter := fun b _ _ => some (barrierEnter b), resume := fun b _ _ => some (barrierResume b) }

theorem barrierEnter_wait {b b' : Barrier} (h : barrierEnter b = .wait b') :
    b' = { b with count := b.count + 1 } := by
  simp only [barrierEnter] at h
  split_ifs at h
  exact (Stretch.wait.inj h).symm

theorem barrierEnter_leave {b b' : Barrier} {r : ℤ} {wake : Wake}
    (h : barrierEnter b = .leave b' r wake) :
    b.count + 1 = b.nThreads ∧ wake = .every ∧
      b' = { b with count := 0, timesUsed := b.timesUsed + 1 } := by
  simp only [barrierEnter] at h
  split_ifs at h with hfull
  obtain ⟨rfl, -, rfl⟩ := Stretch.leave.inj h
  exact ⟨hfull, rfl, rfl⟩

abbrev BarrierWorld (T : Type*) := World T Barrier Unit ℤ

variable {T : Type*} [DecidableEq T]

def Event.isEntry (t : T) : Event T Unit ℤ → Bool
  | .called u _ => u = t
  | _ => false

def Event.isReturn (t : T) : Event T Unit ℤ → Bool
  | .returned u _ _ => u = t
  | _ => false

/-- How often `t` has entered `barrier_wait`. -/
def entries (log : List (Event T Unit ℤ)) (t : T) : ℕ := log.countP (Event.isEntry t)

/-- How often `t` has returned from `barrier_wait`. -/
def returns (log : List (Event T Unit ℤ)) (t : T) : ℕ := log.countP (Event.isReturn t)

/-- When a thread has returned from its `r`-th call, all threads have entered their `r`-th. -/
def RoundsInStep (w : BarrierWorld T) : Prop := ∀ t u, returns w.log t ≤ entries w.log u

/-- Nobody goes on after `pthread_cond_wait` before a broadcast has come. -/
def Broadcast (w : BarrierWorld T) : Action T Unit Unit → Prop
  | .run t _ _ => w.phase t ≠ .awake () false
  | _ => True

section Counting

variable {log : List (Event T Unit ℤ)} {t u : T} {r : ℤ}

theorem entries_called : entries (log ++ [.called t ()]) u =
    entries log u + if t = u then 1 else 0 := by
  simp [entries, Event.isEntry]

theorem entries_returned : entries (log ++ [.returned t () r]) u = entries log u := by
  simp [entries, Event.isEntry]

theorem returns_called : returns (log ++ [.called t ()]) u = returns log u := by
  simp [returns, Event.isReturn]

theorem returns_returned : returns (log ++ [.returned t () r]) u =
    returns log u + if t = u then 1 else 0 := by
  simp [returns, Event.isReturn]

end Counting

/-- In round `g`, counted from zero: a thread that has not come yet is where it was after round
`g`, and one that was woken by the broadcast of the last round has not left that round. -/
def Placed (g entries returns : ℕ) : Phase Unit → Prop
  | .outside => entries = g ∧ returns = g
  | .awake _ true => entries = g ∧ returns + 1 = g
  | _ => entries = g + 1 ∧ returns = g

/-- A thread that has come and for which no broadcast has come. -/
def Phase.waits : Phase Unit → Bool
  | .asleep _ => true
  | .awake _ woken => !woken
  | _ => false

variable [Fintype T]

structure RoundInv (w : BarrierWorld T) : Prop where
  nThreads : w.shared.nThreads = Fintype.card T
  count : w.shared.count = (Finset.univ.filter fun t => Phase.waits (w.phase t)).card
  placed : ∀ t, Placed w.shared.timesUsed (entries w.log t) (returns w.log t) (w.phase t)

theorem RoundInv.inStep {w : BarrierWorld T} (hI : RoundInv w) : RoundsInStep w := by
  have hplaced : ∀ t,
      returns w.log t ≤ w.shared.timesUsed ∧ w.shared.timesUsed ≤ entries w.log t := by
    intro t
    have ht := hI.placed t
    generalize w.phase t = p at ht
    rcases p with _ | _ | _ | ⟨_, _ | _⟩ <;> simp only [Placed] at ht <;> omega
  intro t u
  exact (hplaced t).1.trans (hplaced u).2

theorem card_waits_update (phase : T → Phase Unit) (t : T) (p : Phase Unit) :
    (Finset.univ.filter fun v => Phase.waits (Function.update phase t p v)).card +
        (if Phase.waits (phase t) then 1 else 0) =
      (Finset.univ.filter fun v => Phase.waits (phase v)).card + (if Phase.waits p then 1 else 0) :=
  card_filter_update (fun p => Phase.waits p) phase t p

/-- One thread moves and the round stays the same. -/
theorem RoundInv.move {w w' : BarrierWorld T} {t : T} {p : Phase Unit} (hI : RoundInv w)
    (hphase : w'.phase = Function.update w.phase t p)
    (hthreads : w'.shared.nThreads = w.shared.nThreads)
    (htimes : w'.shared.timesUsed = w.shared.timesUsed)
    (hcount : w'.shared.count + (if Phase.waits (w.phase t) then 1 else 0) =
      w.shared.count + (if Phase.waits p then 1 else 0))
    (hlog : ∀ u, u ≠ t → entries w'.log u = entries w.log u ∧ returns w'.log u = returns w.log u)
    (hplaced : Placed w.shared.timesUsed (entries w'.log t) (returns w'.log t) p) :
    RoundInv w' := by
  refine ⟨hthreads.trans hI.nThreads, ?_, fun u => ?_⟩
  · have hcard := card_waits_update w.phase t p
    rw [hphase]
    have := hI.count
    omega
  · rw [htimes, hphase]
    rcases eq_or_ne u t with rfl | hne
    · simpa using hplaced
    · obtain ⟨hentries, hreturns⟩ := hlog u hne
      rw [Function.update_of_ne hne, hentries, hreturns]
      exact hI.placed u

/-- If all others wait when `t` comes, they all do. -/
theorem RoundInv.all_wait {w : BarrierWorld T} {t : T} (hI : RoundInv w)
    (ht : w.phase t = .calling ()) (hfull : w.shared.count + 1 = w.shared.nThreads) :
    ∀ u, u ≠ t → Phase.waits (w.phase u) := by
  have hsub : (Finset.univ.filter fun v => Phase.waits (w.phase v)) ⊆ Finset.univ.erase t := by
    intro v hv
    refine Finset.mem_erase.mpr ⟨fun heq => ?_, Finset.mem_univ v⟩
    have hwaits := (Finset.mem_filter.mp hv).2
    rw [heq, ht] at hwaits
    cases hwaits
  have hcard : (Finset.univ.erase t).card ≤
      (Finset.univ.filter fun v => Phase.waits (w.phase v)).card := by
    have := hI.count
    have := hI.nThreads
    rw [Finset.card_erase_of_mem (Finset.mem_univ t), Finset.card_univ]
    omega
  have heq := Finset.eq_of_subset_of_card_le hsub hcard
  intro u hu
  have hmem : u ∈ Finset.univ.filter fun v => Phase.waits (w.phase v) :=
    heq ▸ Finset.mem_erase.mpr ⟨hu, Finset.mem_univ u⟩
  exact (Finset.mem_filter.mp hmem).2

/-- The last thread to come starts the next round. -/
theorem RoundInv.release {w : BarrierWorld T} {t : T} {r : ℤ} (hI : RoundInv w)
    (ht : w.phase t = .calling ()) (hfull : w.shared.count + 1 = w.shared.nThreads) :
    RoundInv { shared := { w.shared with count := 0, timesUsed := w.shared.timesUsed + 1 }
               phase := Function.update (Wake.phases w.phase .every none) t .outside
               log := w.log ++ [.returned t () r] } := by
  have hall := hI.all_wait ht hfull
  have hwoken : ∀ u, u ≠ t → ∃ c, (w.phase u).wake = .awake c true := by
    intro u hu
    have hwaits := hall u hu
    cases hp : w.phase u <;> simp_all [Phase.waits, Phase.wake]
  refine ⟨hI.nThreads, ?_, fun u => ?_⟩
  · refine (Finset.card_eq_zero.mpr (Finset.filter_eq_empty_iff.mpr fun u _ => ?_)).symm
    rcases eq_or_ne u t with rfl | hne
    · simp [Phase.waits]
    · obtain ⟨c, hc⟩ := hwoken u hne
      simp [hne, Wake.phases, hc, Phase.waits]
  · rw [entries_returned, returns_returned]
    have hu := hI.placed u
    rcases eq_or_ne u t with rfl | hne
    · rw [ht] at hu
      simp only [Placed, Function.update_self, if_true] at hu ⊢
      omega
    · obtain ⟨c, hc⟩ := hwoken u hne
      have hwaits := hall u hne
      have hcame : entries w.log u = w.shared.timesUsed + 1 ∧
          returns w.log u = w.shared.timesUsed := by
        generalize w.phase u = p at hu hwaits
        rcases p with _ | _ | _ | ⟨_, _ | _⟩ <;> simp_all [Placed, Phase.waits]
      simp only [Function.update_of_ne hne, Wake.phases, hc, Placed, if_neg hne.symm]
      omega

theorem step_roundInv {w w' : BarrierWorld T} {a : Action T Unit Unit} (hI : RoundInv w)
    (h : Guarded (Step barrierMonitor) Broadcast w a w') : RoundInv w' := by
  obtain ⟨hbroadcast, hstep⟩ := h
  cases hstep with
  | @call t c hout =>
    have ht := hI.placed t
    rw [hout] at ht
    refine hI.move (t := t) (p := .calling c) rfl rfl rfl (by simp [hout, Phase.waits])
      (fun u hu => ?_) ?_
    · rw [entries_called, returns_called, if_neg hu.symm]
      exact ⟨rfl, rfl⟩
    · rw [entries_called, returns_called, if_pos rfl]
      simp only [Placed] at ht ⊢
      omega
  | @wait t x c s hs =>
    rcases stretch_cases hs with ⟨hp, henter⟩ | ⟨_, _, hresume⟩
    · obtain rfl := barrierEnter_wait (Option.some.inj henter)
      have ht := hI.placed t
      rw [hp] at ht
      refine hI.move (t := t) (p := .asleep c) rfl rfl rfl ?_ (fun _ _ => ⟨rfl, rfl⟩) ht
      simp [hp, Phase.waits]
    · cases Option.some.inj hresume
  | @leave t x u c s r wake hs hu =>
    rcases stretch_cases hs with ⟨hp, henter⟩ | ⟨woken, hp, hresume⟩
    · obtain ⟨hfull, rfl, rfl⟩ := barrierEnter_leave (Option.some.inj henter)
      obtain rfl : u = none := hu
      exact hI.release hp hfull
    · obtain ⟨rfl, rfl, rfl⟩ := Stretch.leave.inj (Option.some.inj hresume)
      obtain rfl : woken = true := by
        cases woken with
        | true => rfl
        | false => exact absurd hp hbroadcast
      have ht := hI.placed t
      rw [hp] at ht
      refine hI.move (t := t) (p := .outside) rfl rfl rfl (by simp [hp, Phase.waits])
        (fun v hv => ?_) ?_
      · rw [entries_returned, returns_returned, if_neg hv.symm]
        exact ⟨rfl, rfl⟩
      · rw [entries_returned, returns_returned, if_pos rfl]
        exact ht
  | @spurious t c hasleep =>
    have ht := hI.placed t
    rw [hasleep] at ht
    exact hI.move (t := t) (p := .awake c false) rfl rfl rfl (by simp [hasleep, Phase.waits])
      (fun _ _ => ⟨rfl, rfl⟩) ht

/-- As long as nobody goes on without a broadcast, no thread returns from its `r`-th call before
all threads have entered theirs, for any number of threads and rounds. -/
theorem run_roundsInStep {as : List (Action T Unit Unit)} {w : BarrierWorld T}
    (h : Run (Guarded (Step barrierMonitor) Broadcast)
      (.init (barrierInit (Fintype.card T))) as w) :
    RoundsInStep w := by
  refine (h.invariant (P := RoundInv) ⟨rfl, ?_, fun t => ⟨rfl, rfl⟩⟩ step_roundInv).inStep
  refine (Finset.card_eq_zero.mpr (Finset.filter_eq_empty_iff.mpr fun u _ => ?_)).symm
  simp [World.init, Phase.waits]

/-! ## No deadlock -/

/-- The threads that have been called and have not come yet. -/
def coming (phase : T → Phase Unit) : Finset T := Finset.univ.filter fun t => phase t = .calling ()

def sleepers (phase : T → Phase Unit) : Finset T := Finset.univ.filter fun t => (phase t).isAsleep

theorem card_coming_update (phase : T → Phase Unit) (t : T) (p : Phase Unit) :
    (coming (Function.update phase t p)).card + (if phase t = .calling () then 1 else 0) =
      (coming phase).card + (if p = .calling () then 1 else 0) :=
  card_filter_update (fun p : Phase Unit => p = .calling ()) phase t p

theorem card_sleepers_update (phase : T → Phase Unit) (t : T) (p : Phase Unit) :
    (sleepers (Function.update phase t p)).card + (if (phase t).isAsleep then 1 else 0) =
      (sleepers phase).card + (if p.isAsleep then 1 else 0) :=
  card_filter_update (fun p : Phase Unit => p.isAsleep = true) phase t p

/-- Every call is counted once, and every sleeper in the round that has not been full yet. -/
structure Counted (w : BarrierWorld T) : Prop where
  nThreads : w.shared.nThreads = Fintype.card T
  calls : called w.log (fun _ => true) =
    Fintype.card T * w.shared.timesUsed + w.shared.count + (coming w.phase).card
  asleep : (sleepers w.phase).card ≤ w.shared.count
  open_ : w.shared.count < Fintype.card T

theorem Counted.step {w w' : BarrierWorld T} {a : Action T Unit Unit} (hI : Counted w)
    (h : Step barrierMonitor w a w') : Counted w' := by
  obtain ⟨hthreads, hcalls, hasleep, hopen⟩ := hI
  cases h with
  | @call t c hout =>
    have hcoming := card_coming_update w.phase t (.calling c)
    have hsleepers := card_sleepers_update w.phase t (.calling c)
    simp only [hout, reduceCtorEq, if_false, if_true, Phase.isAsleep, Bool.false_eq_true]
      at hcoming hsleepers
    refine ⟨hthreads, ?_, hsleepers.le.trans hasleep, hopen⟩
    rw [called_called, hcalls, if_pos rfl]
    dsimp only
    omega
  | @wait t x c s hs =>
    rcases stretch_cases hs with ⟨hp, henter⟩ | ⟨_, _, hresume⟩
    · obtain rfl := barrierEnter_wait (Option.some.inj henter)
      have hnotFull : w.shared.count + 1 ≠ w.shared.nThreads := by
        intro hfull
        simp [barrierMonitor, barrierEnter, hfull] at henter
      have hcoming := card_coming_update w.phase t (.asleep c)
      have hsleepers := card_sleepers_update w.phase t (.asleep c)
      simp only [hp, reduceCtorEq, if_false, if_true, Phase.isAsleep, Bool.false_eq_true]
        at hcoming hsleepers
      refine ⟨hthreads, ?_, ?_, ?_⟩
      · dsimp only
        omega
      · dsimp only
        omega
      · dsimp only
        omega
    · cases Option.some.inj hresume
  | @leave t x u c s r wake hs hu =>
    rcases stretch_cases hs with ⟨hp, henter⟩ | ⟨woken, hp, hresume⟩
    · obtain ⟨hfull, rfl, rfl⟩ := barrierEnter_leave (Option.some.inj henter)
      have hcoming := card_coming_update (Wake.phases w.phase .every u) t .outside
      have hsame : coming (Wake.phases w.phase .every u) = coming w.phase := by
        refine Finset.filter_congr fun v _ => ?_
        cases hv : w.phase v <;> simp [Wake.phases, hv, Phase.wake]
      have hnobody : sleepers (Function.update (Wake.phases w.phase .every u) t .outside) = ∅ := by
        refine Finset.filter_eq_empty_iff.mpr fun v _ hv => ?_
        obtain ⟨d, hd⟩ := Phase.isAsleep_iff.mp hv
        exact absurd (asleep_of_update hd (by simp)).2 (Phase.wake_ne_asleep _ d)
      have ht : Wake.phases w.phase .every u t = .calling () := by
        show (w.phase t).wake = .calling ()
        rw [hp]
        rfl
      rw [hsame, if_pos ht, if_neg (by simp)] at hcoming
      refine ⟨hthreads, ?_, ?_, ?_⟩
      · rw [called_returned, hcalls]
        dsimp only
        rw [Nat.mul_add_one]
        omega
      · rw [hnobody]
        exact Nat.zero_le _
      · dsimp only
        omega
    · obtain ⟨rfl, rfl, rfl⟩ := Stretch.leave.inj (Option.some.inj hresume)
      have hcoming := card_coming_update w.phase t .outside
      have hsleepers := card_sleepers_update w.phase t .outside
      simp only [hp, reduceCtorEq, if_false, Phase.isAsleep, Bool.false_eq_true]
        at hcoming hsleepers
      refine ⟨hthreads, ?_, hsleepers.le.trans hasleep, hopen⟩
      rw [called_returned, hcalls]
      dsimp only [Wake.phases]
      omega
  | @spurious t c hsleeps =>
    have hcoming := card_coming_update w.phase t (.awake c false)
    have hsleepers := card_sleepers_update w.phase t (.awake c false)
    simp only [hsleeps, reduceCtorEq, if_false, if_true, Phase.isAsleep, Bool.false_eq_true]
      at hcoming hsleepers
    refine ⟨hthreads, ?_, ?_, hopen⟩
    · dsimp only
      omega
    · dsimp only
      omega

/-- The barrier never blocks all its threads, also when `pthread_cond_wait` returns on its own: it
opens once for every `n` threads that come, and fewer than `n` ever sleep. -/
theorem run_opens [Nonempty T] {as : List (Action T Unit Unit)} {w : BarrierWorld T}
    (h : Run (Step barrierMonitor) (.init (barrierInit (Fintype.card T))) as w) :
    called w.log (fun _ => true) =
        Fintype.card T * w.shared.timesUsed + w.shared.count + (coming w.phase).card ∧
      (sleepers w.phase).card ≤ w.shared.count ∧ w.shared.count < Fintype.card T ∧
      ∃ t, ¬ (w.phase t).isAsleep := by
  have hinit : Counted (.init (barrierInit (Fintype.card T)) : BarrierWorld T) := by
    refine ⟨rfl, ?_, ?_, Fintype.card_pos⟩
    · simp [World.init, called, barrierInit, coming]
    · simp [World.init, barrierInit, sleepers, Phase.isAsleep]
  obtain ⟨-, hcalls, hasleep, hopen⟩ := h.invariant hinit fun hI hs => hI.step hs
  refine ⟨hcalls, hasleep, hopen, ?_⟩
  by_contra hall
  have huniv : sleepers w.phase = Finset.univ :=
    Finset.filter_true_of_mem fun t _ => by_contra fun ht => hall ⟨t, ht⟩
  rw [huniv, Finset.card_univ] at hasleep
  exact absurd hasleep (not_le.mpr hopen)

/-- One of two threads sleeps, after the other one was woken without a broadcast and left. -/
theorem run_opens_early : ∃ w : BarrierWorld (Fin 2), w.phase 1 = .asleep () ∧
    called w.log (fun _ => true) =
        Fintype.card (Fin 2) * w.shared.timesUsed + w.shared.count + (coming w.phase).card ∧
      (sleepers w.phase).card ≤ w.shared.count ∧ w.shared.count < Fintype.card (Fin 2) ∧
      ∃ t, ¬ (w.phase t).isAsleep := by
  have hfold : (([.call 0 (), .run 0 () none, .spurious 0, .run 0 () none, .call 0 (),
      .run 0 () none, .call 1 (), .run 1 () none] : List (Action (Fin 2) Unit Unit)).foldlM
        (fun w a => if True then barrierMonitor.next w a else none)
        (.init (barrierInit (Fintype.card (Fin 2))))).map (fun w => decide (w.phase 1 = .asleep ())) =
      some true := by
    decide
  obtain ⟨w, hw, hasleep⟩ := Option.map_eq_some_iff.mp hfold
  have hrun := (Run.of_foldlM hw).mono fun h => step_of_next h.2
  exact ⟨w, of_decide_eq_true hasleep, run_opens hrun⟩

instance (w : BarrierWorld T) (a : Action T Unit Unit) : Decidable (Broadcast w a) :=
  match a with
  | .run t _ _ => inferInstanceAs (Decidable (w.phase t ≠ .awake () false))
  | .call _ _ => inferInstanceAs (Decidable True)
  | .spurious _ => inferInstanceAs (Decidable True)

instance (w : BarrierWorld T) : Decidable (RoundsInStep w) := by
  unfold RoundsInStep
  infer_instance

/-- Two threads meet; the first one is woken by the second and has returned from its first call. -/
theorem run_roundsInStep_meet :
    ∃ w : BarrierWorld (Fin 2), returns w.log 0 = 1 ∧ RoundsInStep w := by
  have hfold : (([.call 0 (), .run 0 () none, .call 1 (), .run 1 () none, .run 0 () none] :
      List (Action (Fin 2) Unit Unit)).foldlM
        (fun w a => if Broadcast w a then barrierMonitor.next w a else none)
        (.init (barrierInit (Fintype.card (Fin 2))))).map (fun w => returns w.log 0) = some 1 := by
    decide
  obtain ⟨w, hw, hreturns⟩ := Option.map_eq_some_iff.mp hfold
  have hrun : Run (Guarded (Step barrierMonitor) Broadcast)
      (.init (barrierInit (Fintype.card (Fin 2)))) _ w :=
    (Run.of_foldlM hw).mono fun h => ⟨h.1, step_of_next h.2⟩
  exact ⟨w, hreturns, run_roundsInStep hrun⟩

/-- A thread returns although the other one never came: `pthread_cond_wait` returned on its own. -/
theorem run_early : ∃ w : BarrierWorld (Fin 2), Run (Step barrierMonitor)
    (.init (barrierInit (Fintype.card (Fin 2))))
    [.call 0 (), .run 0 () none, .spurious 0, .run 0 () none] w ∧ ¬ RoundsInStep w := by
  have hfold : (([.call 0 (), .run 0 () none, .spurious 0, .run 0 () none] :
      List (Action (Fin 2) Unit Unit)).foldlM
        (fun w a => if True then barrierMonitor.next w a else none)
        (.init (barrierInit (Fintype.card (Fin 2))))).map (fun w => decide (RoundsInStep w)) =
      some false := by
    decide
  obtain ⟨w, hw, hearly⟩ := Option.map_eq_some_iff.mp hfold
  exact ⟨w, (Run.of_foldlM hw).mono fun h => step_of_next h.2, of_decide_eq_false hearly⟩

end Cs241.Critical
