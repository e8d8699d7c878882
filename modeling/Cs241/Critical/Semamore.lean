import Mathlib.Algebra.Order.Ring.Int
import Cs241.Foundation.Monitor

/-!
# The semaphore of `critical_concurrency/semamore.c`

A counter between zero and a largest value. `semm_wait` and `semm_post` wait on
one condition variable for the counter to leave either end, and each signals one
sleeping thread after its change.
-/
namespace Cs241.Critical

open Foundation Foundation.Monitor

structure Semamore where
  value : ℤ
  maxVal : ℤ
deriving DecidableEq

inductive SemmCall
  | wait
  | post
deriving DecidableEq

instance : Fintype SemmCall := ⟨{.wait, .post}, by intro c; cases c <;> simp⟩

def semmInit (value maxVal : ℤ) : Semamore := { value := value, maxVal := maxVal }

/-- A stretch of `semm_wait`. -/
def semmWait (s : Semamore) : Stretch Semamore Unit :=
  if s.value = 0 then .wait s
  else .leave { s with value := s.value - 1 } () .one

/-- A stretch of `semm_post`. -/
def semmPost (s : Semamore) : Stretch Semamore Unit :=
  if s.value = s.maxVal then .wait s
  else .leave { s with value := s.value + 1 } () .one

def semmStretch (s : Semamore) : SemmCall → Stretch Semamore Unit
  | .wait => semmWait s
  | .post => semmPost s

/-- Both calls test again after a wait. -/
def semamoreMonitor : Monitor Semamore SemmCall Unit Unit :=
  { enter := fun s c _ => some (semmStretch s c), resume := fun s c _ => some (semmStretch s c) }

abbrev SemmWorld (T : Type*) := World T Semamore SemmCall Unit

/-- How many calls of a kind could be completed one after the other. -/
def Semamore.units (s : Semamore) : SemmCall → ℤ
  | .wait => s.value
  | .post => s.maxVal - s.value

def SemmCall.other : SemmCall → SemmCall
  | .wait => .post
  | .post => .wait

/-- All threads inside a call are asleep, although one of them could go on. -/
def Stuck {T : Type*} (w : SemmWorld T) : Prop :=
  (∀ t, w.phase t = .outside ∨ ∃ c, w.phase t = .asleep c) ∧
    ∃ t c, w.phase t = .asleep c ∧ 0 < w.shared.units c

instance {T : Type*} [Fintype T] (w : SemmWorld T) : Decidable (Stuck w) :=
  inferInstanceAs (Decidable ((∀ t, w.phase t = .outside ∨ ∃ c, w.phase t = .asleep c) ∧
    ∃ t c, w.phase t = .asleep c ∧ 0 < w.shared.units c))

theorem semmStretch_wait {s s' : Semamore} {c : SemmCall} (h : semmStretch s c = .wait s') :
    s' = s ∧ s.units c = 0 := by
  cases c with
  | wait =>
    simp only [semmStretch, semmWait] at h
    split_ifs at h with hzero
    exact ⟨(Stretch.wait.inj h).symm, hzero⟩
  | post =>
    simp only [semmStretch, semmPost] at h
    split_ifs at h with hmax
    exact ⟨(Stretch.wait.inj h).symm, by simp [Semamore.units, hmax]⟩

/-- A completed call takes one unit of its own kind and makes one of the other. -/
theorem semmStretch_leave {s s' : Semamore} {c : SemmCall} {wake : Wake}
    (h : semmStretch s c = .leave s' () wake) :
    wake = .one ∧ s.units c ≠ 0 ∧ s'.units c = s.units c - 1 ∧
      s'.units c.other = s.units c.other + 1 := by
  cases c with
  | wait =>
    simp only [semmStretch, semmWait] at h
    split_ifs at h with hzero
    obtain ⟨rfl, -, rfl⟩ := Stretch.leave.inj h
    refine ⟨rfl, hzero, rfl, ?_⟩
    simp only [Semamore.units, SemmCall.other]
    omega
  | post =>
    simp only [semmStretch, semmPost] at h
    split_ifs at h with hmax
    obtain ⟨rfl, -, rfl⟩ := Stretch.leave.inj h
    refine ⟨rfl, sub_ne_zero.mpr (Ne.symm hmax), ?_, rfl⟩
    simp only [Semamore.units]
    omega

theorem SemmCall.other_ne (c : SemmCall) : c.other ≠ c := by
  cases c <;> simp [SemmCall.other]

theorem SemmCall.eq_or_other (c d : SemmCall) : d = c ∨ d = c.other := by
  cases c <;> cases d <;> simp [SemmCall.other]

theorem semmStretch_of_runs {s : Semamore} {c : SemmCall} {x : Unit} {e : Stretch Semamore Unit}
    (h : semamoreMonitor.Runs s c x e) : semmStretch s c = e := by
  rcases h with h | h <;> exact Option.some.inj h

variable {T : Type*} [DecidableEq T] [Fintype T]

/-- The signal is not wasted: if it goes to a sleeper of the signaller's own call while one of the
other call sleeps, then the threads of the other call that are awake can use up its units, the
new one included. -/
def SignalReaches (w : SemmWorld T) : Action T SemmCall Unit → Prop
  | .run t _ (some u) => ∀ c, (w.phase t).atMutex = some c → w.phase u = .asleep c →
      (∃ v, w.phase v = .asleep c.other) →
      w.shared.units c.other + 1 ≤ (awakeIn w.phase c.other).card
  | _ => True

instance (w : SemmWorld T) (a : Action T SemmCall Unit) : Decidable (SignalReaches w a) :=
  match a with
  | .run t _ (some u) => inferInstanceAs (Decidable (∀ c, (w.phase t).atMutex = some c →
      w.phase u = .asleep c → (∃ v, w.phase v = .asleep c.other) →
      w.shared.units c.other + 1 ≤ (awakeIn w.phase c.other).card))
  | .run _ _ none => inferInstanceAs (Decidable True)
  | .call _ _ => inferInstanceAs (Decidable True)
  | .spurious _ => inferInstanceAs (Decidable True)

/-- Where a call has sleepers, those of it that are awake can use up its units. -/
def Covered (s : Semamore) (phase : T → Phase SemmCall) : Prop :=
  ∀ c, (∃ t, phase t = .asleep c) → s.units c ≤ (awakeIn phase c).card

/-- A thread that gets to the mutex keeps the calls covered. -/
theorem Covered.arrive {s : Semamore} {phase : T → Phase SemmCall} {t : T} {p : Phase SemmCall}
    (hI : Covered s phase) (hat : (phase t).atMutex = none) (hp : ∀ c, p ≠ .asleep c) :
    Covered s (Function.update phase t p) := by
  rintro c ⟨v, hv⟩
  have hbefore := hI c ⟨v, (asleep_of_update hv (hp c)).2⟩
  have hcard := card_awakeIn_update phase t p c
  simp only [hat, reduceCtorEq, if_false] at hcard
  omega

theorem Covered.wait {s : Semamore} {phase : T → Phase SemmCall} {t : T} {c : SemmCall}
    (hI : Covered s phase) (hat : (phase t).atMutex = some c) (hunits : s.units c = 0) :
    Covered s (Function.update phase t (.asleep c)) := by
  rintro d ⟨v, hv⟩
  rcases eq_or_ne d c with rfl | hdc
  · omega
  · have hbefore := hI d ⟨v, (asleep_of_update hv (by simp [hdc.symm])).2⟩
    have hcard := card_awakeIn_update phase t (.asleep c) d
    simp only [hat, Option.some.injEq, hdc.symm, if_false] at hcard
    omega

/-- Waking a sleeper of the call `d` adds one thread to those of `d` that are awake. -/
theorem card_awakeIn_wake {phase : T → Phase SemmCall} {u : T} {d : SemmCall}
    (hu : phase u = .asleep d) (c : SemmCall) :
    (awakeIn (Function.update phase u (phase u).wake) c).card =
      (awakeIn phase c).card + (if d = c then 1 else 0) := by
  have hcard := card_awakeIn_update phase u (phase u).wake c
  simpa [hu, Phase.wake, Phase.atMutex] using hcard

/-- A completed call that signals `u` keeps the calls covered. -/
theorem Covered.signal {s s' : Semamore} {phase : T → Phase SemmCall} {t u : T} {c d : SemmCall}
    (hI : Covered s phase) (hat : (phase t).atMutex = some c) (hu : phase u = .asleep d)
    (hown : s'.units c = s.units c - 1) (hother : s'.units c.other = s.units c.other + 1)
    (hreach : d = c → (∃ v, phase v = .asleep c.other) →
      s.units c.other + 1 ≤ (awakeIn phase c.other).card) :
    Covered s' (Function.update (Wake.phases phase .one (some u)) t .outside) := by
  have hut : t ≠ u := fun heq => by simp [heq, hu, Phase.atMutex] at hat
  rintro e ⟨v, hv⟩
  obtain ⟨hvt, hv⟩ := asleep_of_update hv (by simp)
  obtain ⟨hvu, hv⟩ := asleep_of_update hv (Phase.wake_ne_asleep _ e)
  have hbefore := hI e ⟨v, hv⟩
  have hleft := card_awakeIn_update (Function.update phase u (phase u).wake) t .outside e
  rw [card_awakeIn_wake hu, Function.update_of_ne hut, hat] at hleft
  simp only [Phase.atMutex, Option.some.injEq, reduceCtorEq, if_false] at hleft
  show s'.units e ≤ (awakeIn (Function.update (Function.update phase u (phase u).wake) t
    .outside) e).card
  rcases SemmCall.eq_or_other c e with rfl | rfl
  · -- the signaller leaves and takes its unit along
    rw [if_pos rfl] at hleft
    split_ifs at hleft <;> omega
  · rw [if_neg (SemmCall.other_ne c).symm] at hleft
    rcases SemmCall.eq_or_other c d with rfl | rfl
    · have := hreach rfl ⟨v, hv⟩
      rw [if_neg (SemmCall.other_ne d).symm] at hleft
      omega
    · rw [if_pos rfl] at hleft
      omega

theorem step_covered {w w' : SemmWorld T} {a : Action T SemmCall Unit}
    (hI : Covered w.shared w.phase) (h : Guarded (Step semamoreMonitor) SignalReaches w a w') :
    Covered w'.shared w'.phase := by
  obtain ⟨hreach, hstep⟩ := h
  cases hstep with
  | call hout => exact hI.arrive (by simp [hout, Phase.atMutex]) (by simp)
  | @wait t x c s hs =>
    obtain ⟨rfl, hunits⟩ := semmStretch_wait (semmStretch_of_runs (runs_of_stretch hs))
    exact hI.wait (atMutex_of_stretch hs) hunits
  | @leave t x u c s r wake hs hu =>
    have hat := atMutex_of_stretch hs
    obtain ⟨rfl, -, hown, hother⟩ := semmStretch_leave (semmStretch_of_runs (runs_of_stretch hs))
    cases u with
    | none =>
      rintro e ⟨v, hv⟩
      exact absurd (Phase.isAsleep_iff.mpr ⟨e, (asleep_of_update hv (by simp)).2⟩) (hu v)
    | some u =>
      obtain ⟨d, hd⟩ := Phase.isAsleep_iff.mp hu
      exact hI.signal hat hd hown hother fun hdc => hreach c hat (hdc ▸ hd)
  | spurious hasleep => exact hI.arrive (by simp [hasleep, Phase.atMutex]) (by simp)

/-- In a run whose signals all reach, the threads inside the two calls are never all asleep while
one of them could go on. -/
theorem run_not_stuck {value maxVal : ℤ} {as : List (Action T SemmCall Unit)} {w : SemmWorld T}
    (h : Run (Guarded (Step semamoreMonitor) SignalReaches) (.init (semmInit value maxVal)) as w) :
    ¬ Stuck w := by
  have hcovered : Covered w.shared w.phase := by
    refine h.invariant (P := fun w => Covered w.shared w.phase) ?_ step_covered
    rintro c ⟨t, ht⟩
    simp [World.init] at ht
  rintro ⟨hasleep, t, c, ht, hpos⟩
  have hnone : awakeIn w.phase c = ∅ := by
    apply Finset.filter_eq_empty_iff.mpr
    intro v _ hv
    rcases hasleep v with hout | ⟨d, hd⟩
    · simp [hout, Phase.atMutex] at hv
    · simp [hd, Phase.atMutex] at hv
  have hle := hcovered c ⟨t, ht⟩
  rw [hnone, Finset.card_empty] at hle
  omega

/-- A waiter sleeps until a post wakes it. -/
theorem run_not_stuck_woken :
    ∃ w : SemmWorld (Fin 2), w.phase 0 = .awake .wait true ∧ ¬ Stuck w := by
  have hfold : (([.call 0 .wait, .run 0 () none, .call 1 .post, .run 1 () (some 0)] :
      List (Action (Fin 2) SemmCall Unit)).foldlM
        (fun w a => if SignalReaches w a then semamoreMonitor.next w a else none)
        (.init (semmInit 0 1))).map (fun w => decide (w.phase 0 = .awake .wait true)) =
      some true := by
    decide
  obtain ⟨w, hw, hwoken⟩ := Option.map_eq_some_iff.mp hfold
  have hrun : Run (Guarded (Step semamoreMonitor) SignalReaches) (.init (semmInit 0 1)) _ w :=
    (Run.of_foldlM hw).mono fun h => ⟨h.1, step_of_next h.2⟩
  exact ⟨w, of_decide_eq_true hwoken, run_not_stuck hrun⟩

/-- With two waiters asleep, a post wakes the first and the next post sleeps; the first waiter
signals the second one, which has to sleep again, and the poster sleeps on although there is
room. -/
theorem run_stuck : ∃ w : SemmWorld (Fin 3), Run (Step semamoreMonitor) (.init (semmInit 0 1))
    [.call 0 .wait, .run 0 () none, .call 1 .wait, .run 1 () none,
      .call 2 .post, .run 2 () (some 0), .call 2 .post, .run 2 () none,
      .run 0 () (some 1), .run 1 () none] w ∧ Stuck w := by
  have hfold : (([.call 0 .wait, .run 0 () none, .call 1 .wait, .run 1 () none,
      .call 2 .post, .run 2 () (some 0), .call 2 .post, .run 2 () none,
      .run 0 () (some 1), .run 1 () none] : List (Action (Fin 3) SemmCall Unit)).foldlM
        (fun w a => if True then semamoreMonitor.next w a else none)
        (.init (semmInit 0 1))).map (fun w => decide (Stuck w)) = some true := by
    decide
  obtain ⟨w, hw, hstuck⟩ := Option.map_eq_some_iff.mp hfold
  exact ⟨w, (Run.of_foldlM hw).mono fun h => step_of_next h.2, of_decide_eq_true hstuck⟩

omit [Fintype T] in
/-- The counter stays between its ends. -/
theorem run_units_nonneg {value maxVal : ℤ} {as : List (Action T SemmCall Unit)} {w : SemmWorld T}
    (hvalue : 0 ≤ value ∧ value ≤ maxVal)
    (h : Run (Step semamoreMonitor) (.init (semmInit value maxVal)) as w) :
    ∀ c, 0 ≤ w.shared.units c := by
  refine run_shared (I := fun s _ => ∀ c, 0 ≤ s.units c) h ?_ (fun hI => hI) ?_ ?_
  · intro c
    cases c
    · exact hvalue.1
    · exact sub_nonneg.mpr hvalue.2
  · intro s log c _ s' hI hwait
    obtain ⟨rfl, -⟩ := semmStretch_wait (semmStretch_of_runs hwait)
    exact hI
  · intro s log t c _ s' r wake hI hleave d
    obtain ⟨-, hne, hown, hother⟩ := semmStretch_leave (semmStretch_of_runs hleave)
    have hc := hI c
    have hd := hI c.other
    rcases SemmCall.eq_or_other c d with rfl | rfl <;> omega

/-! ## Completed calls -/

omit [Fintype T] in
theorem run_units_eq {value maxVal : ℤ} {as : List (Action T SemmCall Unit)} {w : SemmWorld T}
    (h : Run (Step semamoreMonitor) (.init (semmInit value maxVal)) as w) (c : SemmCall) :
    w.shared.units c = (semmInit value maxVal).units c +
      completed w.log (· == c.other) - completed w.log (· == c) := by
  refine run_shared (I := fun s log => ∀ c, s.units c =
    (semmInit value maxVal).units c + completed log (· == c.other) - completed log (· == c)) h
      ?_ ?_ ?_ ?_ c
  · intro c
    simp [completed]
  · intro s log t d hI c
    rw [completed_called, completed_called]
    exact hI c
  · intro s log d _ s' hI hwait
    obtain ⟨rfl, -⟩ := semmStretch_wait (semmStretch_of_runs hwait)
    exact hI
  · intro s log t d _ s' r wake hI hleave c
    obtain ⟨-, -, hown, hother⟩ := semmStretch_leave (semmStretch_of_runs hleave)
    have hc := hI c
    rw [completed_returned, completed_returned]
    rcases SemmCall.eq_or_other d c with rfl | rfl
    · have hne : ¬ (c == c.other) = true := by simp [(SemmCall.other_ne c).symm]
      rw [if_neg hne, if_pos (beq_self_eq_true c)]
      push_cast
      omega
    · have hsame : (d == d.other.other) = true := by cases d <;> rfl
      have hne : ¬ (d == d.other) = true := by simp [(SemmCall.other_ne d).symm]
      rw [if_pos hsame, if_neg hne]
      push_cast
      omega

omit [Fintype T] in
/-- Nothing is lost or made: each completed call takes one unit of its kind and gives one to the
other, and no call takes a unit that is not there. -/
theorem run_units {value maxVal : ℤ} {as : List (Action T SemmCall Unit)} {w : SemmWorld T}
    (hvalue : 0 ≤ value ∧ value ≤ maxVal)
    (h : Run (Step semamoreMonitor) (.init (semmInit value maxVal)) as w) (c : SemmCall) :
    w.shared.units c =
        (semmInit value maxVal).units c + completed w.log (· == c.other) - completed w.log (· == c) ∧
      0 ≤ w.shared.units c :=
  ⟨run_units_eq h c, run_units_nonneg hvalue h c⟩

/-- A post is made while one thread sleeps in a wait, and the waiter goes on. -/
theorem run_units_handoff : ∃ w : SemmWorld (Fin 2), completed w.log (· == .wait) = 1 ∧
    completed w.log (· == .post) = 1 ∧ w.shared.units .wait = (semmInit 0 1).units .wait +
      completed w.log (· == SemmCall.wait.other) - completed w.log (· == .wait) ∧
        0 ≤ w.shared.units .wait := by
  have hfold : (([.call 0 .wait, .run 0 () none, .call 1 .post, .run 1 () (some 0),
      .run 0 () none] : List (Action (Fin 2) SemmCall Unit)).foldlM
        (fun w a => if True then semamoreMonitor.next w a else none)
        (.init (semmInit 0 1))).map (fun w => (completed w.log (· == .wait),
          completed w.log (· == .post))) = some (1, 1) := by
    decide
  obtain ⟨w, hw, hcompleted⟩ := Option.map_eq_some_iff.mp hfold
  obtain ⟨hwaits, hposts⟩ := Prod.mk.inj hcompleted
  have hrun := (Run.of_foldlM hw).mono fun h => step_of_next h.2
  exact ⟨w, hwaits, hposts, run_units (by decide) hrun .wait⟩

/-- As long as not more posts are made than the counter has room for, no post sleeps, and none of
the signals is wasted. -/
theorem run_ordinary {value maxVal : ℤ} {as : List (Action T SemmCall Unit)} {w : SemmWorld T}
    (h : Run (Step semamoreMonitor) (.init (semmInit value maxVal)) as w)
    (hposts : value + called w.log (· == .post) ≤ maxVal) :
    (∀ t, w.phase t ≠ .asleep .post) ∧
      ((∃ t, w.phase t = .asleep .wait) → w.shared.value ≤ (awakeIn w.phase .wait).card) := by
  have hinv : (∀ t, w.phase t ≠ .asleep .post) ∧ Covered w.shared w.phase := by
    induction h with
    | refl =>
      refine ⟨fun t ht => absurd ht (by simp [World.init]), ?_⟩
      rintro c ⟨t, ht⟩
      cases ht
    | @tail as w a w' hrun hstep ih =>
      have hcalled : called w.log (· == .post) ≤ called w'.log (· == .post) := hstep.called_le _
      obtain ⟨hnone, hcovered⟩ := ih (by omega)
      -- A post that has not returned finds room.
      have hroom : ∀ t, (w.phase t).current = some .post → w.shared.units .post ≠ 0 := by
        intro t ht hzero
        have hopen := run_called hrun (· == .post)
        have hinside : 0 < (inside w.phase (· == .post)).card :=
          Finset.card_pos.mpr ⟨t, Finset.mem_filter.mpr ⟨Finset.mem_univ t, by simp [ht]⟩⟩
        have hunits := run_units_eq hrun .post
        simp only [Semamore.units, semmInit, SemmCall.other] at hunits hzero
        omega
      have hreach : SignalReaches w a := by
        cases a with
        | call => trivial
        | spurious => trivial
        | run t x u =>
          cases u with
          | none => trivial
          | some u =>
            rintro c - hu ⟨v, hv⟩
            cases c with
            | wait => exact absurd hv (hnone v)
            | post => exact absurd hu (hnone u)
      refine ⟨fun t ht => ?_, step_covered hcovered ⟨hreach, hstep⟩⟩
      cases hstep with
      | call => exact hnone t (asleep_of_update ht (by simp)).2
      | @wait u x d s hs =>
        rcases eq_or_ne t u with rfl | hne
        · obtain rfl : d = .post := by simpa using ht
          have hunits := (semmStretch_wait (semmStretch_of_runs (runs_of_stretch hs))).2
          exact hroom t (Phase.current_of_atMutex (atMutex_of_stretch hs)) hunits
        · exact hnone t (by simpa [hne] using ht)
      | leave hs hu =>
        exact hnone t (Wake.asleep_of_phases (asleep_of_update ht (by simp)).2)
      | spurious => exact hnone t (asleep_of_update ht (by simp)).2
  refine ⟨hinv.1, fun hsleeps => ?_⟩
  exact hinv.2 .wait hsleeps

/-- One of two waiters has been woken, the other one sleeps. -/
theorem run_ordinary_two : ∃ w : SemmWorld (Fin 3), w.phase 1 = .asleep .wait ∧
    w.shared.value = 1 ∧ (∀ t, w.phase t ≠ .asleep .post) ∧
      ((∃ t, w.phase t = .asleep .wait) → w.shared.value ≤ (awakeIn w.phase .wait).card) := by
  have hfold : (([.call 0 .wait, .run 0 () none, .call 1 .wait, .run 1 () none, .call 2 .post,
      .run 2 () (some 0)] : List (Action (Fin 3) SemmCall Unit)).foldlM
        (fun w a => if True then semamoreMonitor.next w a else none)
        (.init (semmInit 0 1))).map (fun w => (decide (w.phase 1 = .asleep .wait),
          w.shared.value, called w.log (· == .post))) = some (true, 1, 1) := by
    decide
  obtain ⟨w, hw, hstate⟩ := Option.map_eq_some_iff.mp hfold
  obtain ⟨hasleep, hrest⟩ := Prod.mk.inj hstate
  obtain ⟨hvalue, hposts⟩ := Prod.mk.inj hrest
  have hrun := (Run.of_foldlM hw).mono fun h => step_of_next h.2
  exact ⟨w, of_decide_eq_true hasleep, hvalue,
    run_ordinary hrun (by rw [hposts]; decide)⟩

end Cs241.Critical
