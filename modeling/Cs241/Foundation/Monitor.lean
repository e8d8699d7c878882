import Mathlib.Algebra.BigOperators.Ring.Finset
import Mathlib.Data.Fintype.Basic
import Mathlib.Logic.Function.Basic
import Cs241.Foundation.Runs

/-!
# Monitors

A monitor is a shared state under one mutex with one condition variable. A call
into it runs in stretches that hold the mutex: a stretch ends in
`pthread_cond_wait`, or returns from the call after having woken nobody, one
sleeping thread or every one. Each stretch is one step, threads take their
steps in any order, and `pthread_cond_wait` may also return on its own.
-/
namespace Cs241.Foundation

namespace Monitor

/-- Whom a stretch wakes: nobody, or `pthread_cond_signal`, or `pthread_cond_broadcast`. -/
inductive Wake
  | nobody
  | one
  | every

/-- How a stretch with the mutex held ends, with the shared state it leaves. -/
inductive Stretch (σ R : Type*)
  | wait (s : σ)
  | leave (s : σ) (r : R) (wake : Wake)

/-- Where a thread is. A thread that left `pthread_cond_wait` is awake; `woken` says whether a
signal or a broadcast has come since it went to sleep. -/
inductive Phase (C : Type*)
  | outside
  | calling (c : C)
  | asleep (c : C)
  | awake (c : C) (woken : Bool)
deriving DecidableEq

inductive Event (T C R : Type*)
  | called (t : T) (c : C)
  | returned (t : T) (c : C) (r : R)

structure World (T σ C R : Type*) where
  shared : σ
  phase : T → Phase C
  log : List (Event T C R)

/-- `run t x u` is a stretch of `t`, and its signal, if it sends one, wakes `u`. -/
inductive Action (T C X : Type*)
  | call (t : T) (c : C)
  | run (t : T) (x : X) (u : Option T)
  | spurious (t : T)

end Monitor

/-- The stretch at the start of a call and the one after `pthread_cond_wait`. A value of `X` is
what the environment chooses in it; `none` if it cannot choose so, or if the stretch faults. -/
structure Monitor (σ C R X : Type*) where
  enter : σ → C → X → Option (Monitor.Stretch σ R)
  resume : σ → C → X → Option (Monitor.Stretch σ R)

namespace Monitor

variable {T σ C R X : Type*}

def World.init (s : σ) : World T σ C R :=
  { shared := s, phase := fun _ => .outside, log := [] }

/-- The call of a thread that is at the mutex. -/
def Phase.atMutex : Phase C → Option C
  | .calling c => some c
  | .awake c _ => some c
  | _ => none

/-- The call that a thread is in. -/
def Phase.current : Phase C → Option C
  | .outside => none
  | .calling c => some c
  | .asleep c => some c
  | .awake c _ => some c

theorem Phase.current_of_atMutex {p : Phase C} {c : C} (h : p.atMutex = some c) :
    p.current = some c := by
  cases p with
  | outside => cases h
  | calling => exact h
  | asleep => cases h
  | awake => exact h

def Phase.isAsleep : Phase C → Bool
  | .asleep _ => true
  | _ => false

theorem Phase.isAsleep_iff {p : Phase C} : p.isAsleep ↔ ∃ c, p = .asleep c := by
  cases p <;> simp [Phase.isAsleep]

def Phase.wake : Phase C → Phase C
  | .asleep c => .awake c true
  | .awake c _ => .awake c true
  | p => p

@[simp] theorem Phase.wake_ne_asleep (p : Phase C) (c : C) : p.wake ≠ .asleep c := by
  cases p <;> simp [Phase.wake]

@[simp] theorem Phase.current_wake (p : Phase C) : p.wake.current = p.current := by
  cases p <;> rfl

/-- The thread that a signal may wake: a sleeping one, and none only if none sleeps. -/
def Wake.Chooses (phase : T → Phase C) : Wake → Option T → Prop
  | .one, some u => (phase u).isAsleep
  | .one, none => ∀ u, ¬ (phase u).isAsleep
  | _, u => u = none

instance [Fintype T] [DecidableEq T] (phase : T → Phase C) (wake : Wake) (u : Option T) :
    Decidable (wake.Chooses phase u) :=
  match wake, u with
  | .one, some u => inferInstanceAs (Decidable ((phase u).isAsleep = true))
  | .one, none => inferInstanceAs (Decidable (∀ u, ¬ (phase u).isAsleep))
  | .nobody, u => inferInstanceAs (Decidable (u = none))
  | .every, u => inferInstanceAs (Decidable (u = none))

/-- A stretch that a thread in the call `c` can run, before or after a wait. -/
def Runs (m : Monitor σ C R X) (s : σ) (c : C) (x : X) (e : Stretch σ R) : Prop :=
  m.enter s c x = some e ∨ m.resume s c x = some e

/-- The stretch of a thread that is at the mutex. -/
def stretch (m : Monitor σ C R X) (s : σ) (x : X) : Phase C → Option (C × Stretch σ R)
  | .calling c => (m.enter s c x).map (c, ·)
  | .awake c _ => (m.resume s c x).map (c, ·)
  | _ => none

theorem stretch_cases {m : Monitor σ C R X} {s : σ} {x : X} {p : Phase C} {c : C}
    {e : Stretch σ R} (h : m.stretch s x p = some (c, e)) :
    (p = .calling c ∧ m.enter s c x = some e) ∨ ∃ b, p = .awake c b ∧ m.resume s c x = some e := by
  cases p with
  | outside => simp [stretch] at h
  | asleep d => simp [stretch] at h
  | calling d =>
    obtain ⟨e', he, heq⟩ := Option.map_eq_some_iff.mp h
    obtain ⟨rfl, rfl⟩ := Prod.mk.inj heq
    exact .inl ⟨rfl, he⟩
  | awake d b =>
    obtain ⟨e', he, heq⟩ := Option.map_eq_some_iff.mp h
    obtain ⟨rfl, rfl⟩ := Prod.mk.inj heq
    exact .inr ⟨b, rfl, he⟩

theorem runs_of_stretch {m : Monitor σ C R X} {s : σ} {x : X} {p : Phase C} {c : C}
    {e : Stretch σ R} (h : m.stretch s x p = some (c, e)) : m.Runs s c x e := by
  rcases stretch_cases h with ⟨-, he⟩ | ⟨_, -, he⟩
  · exact .inl he
  · exact .inr he

theorem atMutex_of_stretch {m : Monitor σ C R X} {s : σ} {x : X} {p : Phase C} {c : C}
    {e : Stretch σ R} (h : m.stretch s x p = some (c, e)) : p.atMutex = some c := by
  rcases stretch_cases h with ⟨rfl, -⟩ | ⟨_, rfl, -⟩ <;> rfl

variable [DecidableEq T]

def Wake.phases (phase : T → Phase C) : Wake → Option T → T → Phase C
  | .every, _ => fun t => (phase t).wake
  | .one, some u => Function.update phase u (phase u).wake
  | _, _ => phase

/-- One step of one thread. -/
inductive Step (m : Monitor σ C R X) : World T σ C R → Action T C X → World T σ C R → Prop
  | call {w t c} (hout : w.phase t = .outside) :
      Step m w (.call t c)
        { w with phase := Function.update w.phase t (.calling c), log := w.log ++ [.called t c] }
  | wait {w t x c s} (hs : m.stretch w.shared x (w.phase t) = some (c, .wait s)) :
      Step m w (.run t x none)
        { w with shared := s, phase := Function.update w.phase t (.asleep c) }
  | leave {w t x u c s r wake} (hs : m.stretch w.shared x (w.phase t) = some (c, .leave s r wake))
      (hu : wake.Chooses w.phase u) :
      Step m w (.run t x u)
        { shared := s
          phase := Function.update (wake.phases w.phase u) t .outside
          log := w.log ++ [.returned t c r] }
  | spurious {w t c} (hasleep : w.phase t = .asleep c) :
      Step m w (.spurious t) { w with phase := Function.update w.phase t (.awake c false) }

/-- The step that an action asks for, computed. -/
def next [Fintype T] (m : Monitor σ C R X) (w : World T σ C R) :
    Action T C X → Option (World T σ C R)
  | .call t c =>
    match w.phase t with
    | .outside =>
      some { w with phase := Function.update w.phase t (.calling c), log := w.log ++ [.called t c] }
    | _ => none
  | .run t x u =>
    match m.stretch w.shared x (w.phase t) with
    | some (c, .wait s) =>
      if u.isNone then some { w with shared := s, phase := Function.update w.phase t (.asleep c) }
      else none
    | some (c, .leave s r wake) =>
      if wake.Chooses w.phase u then
        some { shared := s
               phase := Function.update (wake.phases w.phase u) t .outside
               log := w.log ++ [.returned t c r] }
      else none
    | none => none
  | .spurious t =>
    match w.phase t with
    | .asleep c => some { w with phase := Function.update w.phase t (.awake c false) }
    | _ => none

theorem step_of_next [Fintype T] {m : Monitor σ C R X} {w w' : World T σ C R}
    {a : Action T C X} (h : m.next w a = some w') : Step m w a w' := by
  cases a with
  | call t c =>
    simp only [next] at h
    split at h
    · obtain rfl := Option.some.inj h
      exact .call ‹_›
    · cases h
  | run t x u =>
    simp only [next] at h
    split at h
    · split_ifs at h with hu
      obtain rfl := Option.isNone_iff_eq_none.mp hu
      obtain rfl := Option.some.inj h
      exact .wait ‹_›
    · split_ifs at h with hu
      obtain rfl := Option.some.inj h
      exact .leave ‹_› hu
    · cases h
  | spurious t =>
    simp only [next] at h
    split at h
    · obtain rfl := Option.some.inj h
      exact .spurious ‹_›
    · cases h

variable {m : Monitor σ C R X} {as : List (Action T C X)} {s₀ : σ} {w : World T σ C R}

/-- What every stretch keeps of the shared state and the log holds in every run. -/
theorem run_shared {I : σ → List (Event T C R) → Prop} (h : Run (Step m) (.init s₀) as w)
    (h₀ : I s₀ []) (hcall : ∀ {s log t c}, I s log → I s (log ++ [.called t c]))
    (hwait : ∀ {s log c x s'}, I s log → m.Runs s c x (.wait s') → I s' log)
    (hleave : ∀ {s log t c x s' r wake}, I s log → m.Runs s c x (.leave s' r wake) →
      I s' (log ++ [.returned t c r])) : I w.shared w.log := by
  refine h.invariant (P := fun w => I w.shared w.log) h₀ fun {w _ _} hI hstep => ?_
  cases hstep with
  | call _ => exact hcall hI
  | wait hs => exact hwait hI (runs_of_stretch hs)
  | leave hs _ => exact hleave hI (runs_of_stretch hs)
  | spurious _ => exact hI

theorem asleep_of_update {phase : T → Phase C} {t u : T} {c : C} {p : Phase C}
    (h : Function.update phase u p t = .asleep c) (hp : p ≠ .asleep c) :
    t ≠ u ∧ phase t = .asleep c := by
  rcases eq_or_ne t u with rfl | hne
  · exact absurd (by simpa using h) hp
  · exact ⟨hne, by simpa [hne] using h⟩

/-- No wakeup is lost where a thread waits only when it is blocked, without a change, and every
other stretch wakes every sleeper: in each state reached a sleeping thread is blocked. -/
theorem run_asleep {Blocked : σ → C → Prop} (h : Run (Step m) (.init s₀) as w)
    (hwait : ∀ {s c x s'}, m.Runs s c x (.wait s') → s' = s ∧ Blocked s c)
    (hleave : ∀ {s c x s' r wake}, m.Runs s c x (.leave s' r wake) → wake = .every) :
    ∀ t c, w.phase t = .asleep c → Blocked w.shared c := by
  refine h.invariant (P := fun w => ∀ t c, w.phase t = .asleep c → Blocked w.shared c)
    (fun t c hc => by simp [World.init] at hc) fun {w _ _} hI hstep t c hc => ?_
  cases hstep with
  | call _ => exact hI t c (asleep_of_update hc (by simp)).2
  | @wait u x d s hs =>
    obtain ⟨rfl, hblocked⟩ := hwait (runs_of_stretch hs)
    rcases eq_or_ne t u with rfl | hne
    · obtain rfl : d = c := by simpa using hc
      exact hblocked
    · exact hI t c (by simpa [hne] using hc)
  | leave hs _ =>
    obtain rfl := hleave (runs_of_stretch hs)
    exact absurd (asleep_of_update hc (by simp)).2 (Phase.wake_ne_asleep _ c)
  | spurious _ => exact hI t c (asleep_of_update hc (by simp)).2

/-- How the number of threads with a property changes when one thread moves. -/
theorem card_filter_update [Fintype T] {β : Type*} (P : β → Prop) [DecidablePred P] (f : T → β)
    (t : T) (b : β) :
    (Finset.univ.filter fun v => P (Function.update f t b v)).card + (if P (f t) then 1 else 0) =
      (Finset.univ.filter fun v => P (f v)).card + (if P b then 1 else 0) := by
  have hrest : ∑ v ∈ Finset.univ.erase t, (if P (Function.update f t b v) then 1 else 0) =
      ∑ v ∈ Finset.univ.erase t, (if P (f v) then 1 else 0) :=
    Finset.sum_congr rfl fun v hv => by rw [Function.update_of_ne (Finset.ne_of_mem_erase hv)]
  rw [Finset.card_filter, Finset.card_filter, ← Finset.add_sum_erase _ _ (Finset.mem_univ t),
    ← Finset.add_sum_erase _ (fun v => if P (f v) then 1 else 0) (Finset.mem_univ t), hrest,
    Function.update_self]
  omega

/-- The threads in the call `c` that are not asleep. -/
def awakeIn [Fintype T] [DecidableEq C] (phase : T → Phase C) (c : C) : Finset T :=
  Finset.univ.filter fun t => (phase t).atMutex = some c

theorem card_awakeIn_update [Fintype T] [DecidableEq C] (phase : T → Phase C) (t : T)
    (p : Phase C) (c : C) :
    (awakeIn (Function.update phase t p) c).card +
        (if (phase t).atMutex = some c then 1 else 0) =
      (awakeIn phase c).card + (if p.atMutex = some c then 1 else 0) :=
  card_filter_update (fun p : Phase C => p.atMutex = some c) phase t p

/-! ## Calls and returns -/

theorem Wake.asleep_of_phases {phase : T → Phase C} {wake : Wake} {u : Option T} {t : T} {c : C}
    (h : wake.phases phase u t = .asleep c) : phase t = .asleep c := by
  cases wake with
  | nobody => exact h
  | every => exact absurd h (Phase.wake_ne_asleep _ c)
  | one =>
    cases u with
    | none => exact h
    | some u => exact (asleep_of_update h (Phase.wake_ne_asleep _ c)).2

theorem Wake.current_phases {phase : T → Phase C} {wake : Wake} {u : Option T} {t : T} :
    (wake.phases phase u t).current = (phase t).current := by
  cases wake with
  | nobody => rfl
  | every => exact Phase.current_wake _
  | one =>
    cases u with
    | none => rfl
    | some u =>
      rcases eq_or_ne t u with rfl | hne
      · simp [Wake.phases]
      · simp [Wake.phases, hne]

section Calls

/-- A call with the property `P`. -/
def Event.calls (P : C → Bool) : Event T C R → Bool
  | .called _ c => P c
  | _ => false

def Event.returns (P : C → Bool) : Event T C R → Bool
  | .returned _ c _ => P c
  | _ => false

/-- How many calls with the property `P` were made. -/
def called (log : List (Event T C R)) (P : C → Bool) : ℕ := log.countP (Event.calls P)

/-- How many of them returned. -/
def completed (log : List (Event T C R)) (P : C → Bool) : ℕ := log.countP (Event.returns P)

/-- The threads inside such a call. -/
def inside [Fintype T] (phase : T → Phase C) (P : C → Bool) : Finset T :=
  Finset.univ.filter fun t => (phase t).current.any P

variable {log : List (Event T C R)} {t : T} {c : C} {r : R} {P : C → Bool}

omit [DecidableEq T] in
theorem called_called : called (log ++ [.called t c]) P = called log P + if P c then 1 else 0 := by
  cases hP : P c <;> simp [called, Event.calls, hP]

omit [DecidableEq T] in
theorem called_returned : called (log ++ [.returned t c r]) P = called log P := by
  simp [called, Event.calls]

omit [DecidableEq T] in
theorem completed_called : completed (log ++ [.called t c]) P = completed log P := by
  simp [completed, Event.returns]

omit [DecidableEq T] in
theorem completed_returned :
    completed (log ++ [.returned t c r]) P = completed log P + if P c then 1 else 0 := by
  cases hP : P c <;> simp [completed, Event.returns, hP]

theorem Step.called_le {w w' : World T σ C R} {a : Action T C X} (h : Step m w a w')
    (P : C → Bool) : called w.log P ≤ called w'.log P := by
  cases h with
  | call =>
    rw [called_called]
    exact Nat.le_add_right _ _
  | wait => exact le_rfl
  | leave => exact called_returned.ge
  | spurious => exact le_rfl

theorem card_inside_update [Fintype T] (phase : T → Phase C) (t : T) (p : Phase C) (P : C → Bool) :
    (inside (Function.update phase t p) P).card + (if (phase t).current.any P then 1 else 0) =
      (inside phase P).card + (if p.current.any P then 1 else 0) :=
  card_filter_update (fun p : Phase C => p.current.any P = true) phase t p

/-- A call that was made has returned, or a thread is inside. -/
theorem run_called [Fintype T] (h : Run (Step m) (.init s₀) as w) (P : C → Bool) :
    called w.log P = completed w.log P + (inside w.phase P).card := by
  refine h.invariant (P := fun w => called w.log P = completed w.log P + (inside w.phase P).card)
    ?_ fun {w w' a} hI hstep => ?_
  · have hnobody : inside (World.init s₀ : World T σ C R).phase P = ∅ :=
      Finset.filter_eq_empty_iff.mpr fun t _ => by simp [World.init, Phase.current]
    rw [hnobody]
    rfl
  · cases hstep with
    | @call t c hout =>
      have hcard := card_inside_update w.phase t (.calling c) P
      rw [hout] at hcard
      dsimp only
      rw [called_called, completed_called]
      cases hP : P c <;> simp [Phase.current, hP] at hcard ⊢ <;> omega
    | @wait t x c s hs =>
      have hcard := card_inside_update w.phase t (.asleep c) P
      rw [Phase.current_of_atMutex (atMutex_of_stretch hs)] at hcard
      dsimp only
      rw [hI, ← Nat.add_right_cancel hcard]
    | @leave t x u c s r wake hs hu =>
      have hcard := card_inside_update (wake.phases w.phase u) t .outside P
      have hsame : inside (wake.phases w.phase u) P = inside w.phase P := by
        simp only [inside, Wake.current_phases]
      rw [hsame, Wake.current_phases, Phase.current_of_atMutex (atMutex_of_stretch hs)] at hcard
      dsimp only
      rw [called_returned, completed_returned]
      cases hP : P c <;> simp [Phase.current, hP] at hcard ⊢ <;> omega
    | @spurious t c hasleep =>
      have hcard := card_inside_update w.phase t (.awake c false) P
      rw [hasleep] at hcard
      dsimp only
      rw [hI, ← Nat.add_right_cancel hcard]

end Calls

end Monitor

end Cs241.Foundation
