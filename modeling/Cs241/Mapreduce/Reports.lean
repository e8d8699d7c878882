import Mathlib.Data.List.FinRange
import Cs241.Mapreduce.Flow

/-!
# What the parent reports

A parent that comes to its end has waited for the reducer and for all mappers, and
has printed a line for each nonzero exit code, in the order of the mappers and the
reducer last, before the number of lines in the output file.
-/
namespace Cs241.Mapreduce

open Foundation

variable {n : ℕ} {σ : Type*} {e : Setting n σ} {s t : System n σ} {c d : Child n}
  {p : Process n σ} {old : List UInt8}

/-- How the child has ended. -/
def System.status (s : System n σ) (c : Child n) : Option Status :=
  (s.child c).bind fun p =>
    match p.phase with
    | .ended status => some status
    | _ => none

theorem status_eq_some {status : Status} :
    s.status c = some status ↔ ∃ p, s.child c = some p ∧ p.phase = .ended status := by
  rw [System.status, Option.bind_eq_some_iff]
  refine exists_congr fun p => and_congr_right fun _ => ?_
  cases p.phase <;> simp

theorem waitpid_eq_some {status : Status} (h : s.waitpid c = some (some status)) :
    s.status c = some status := by
  rw [System.waitpid] at h
  rw [System.status]
  cases hp : s.child c with
  | none => simp [hp] at h
  | some p =>
    cases hphase : p.phase with
    | ended status' => simpa [hp, hphase] using h
    | _ => simp [hp, hphase] at h

/-- A child that has ended makes no step. -/
theorem Move.not_ended (h : Move e s c p t) (status : Status) : p.phase ≠ .ended status := by
  cases h <;> simp_all

theorem Move.status (hw : p.Wired c) (hp : s.child c = some p) (h : Move e s c p t)
    {status : Status} (hd : s.status d = some status) : t.status d = some status := by
  obtain ⟨-, p', hchild, -⟩ := hw.move h
  obtain ⟨q, hq, hended⟩ := status_eq_some.mp hd
  have hne : d ≠ c := by
    rintro rfl
    rw [hp] at hq
    obtain rfl := Option.some.inj hq
    exact h.not_ended status hended
  exact status_eq_some.mpr ⟨q, by rw [hchild, Function.update_of_ne hne, hq], hended⟩

/-- The lines about the first `k` mappers. -/
def mapperLines (e : Setting n σ) (s : System n σ) (k : ℕ) : List String :=
  ((List.finRange n).take k).flatMap fun i =>
    (s.status (.mapper i)).elim [] (exitLine e.mapperExecutable)

/-- What the parent knows of its children. -/
def Reported (e : Setting n σ) (s : System n σ) : Prop :=
  match s.main.place with
  | .waitMapper k =>
    s.status .reducer = some s.main.reducerStatus ∧
      (∀ i : Fin n, i < k → (s.status (.mapper i)).isSome) ∧ s.main.printed = mapperLines e s k
  | .ended 0 =>
    s.status .reducer = some s.main.reducerStatus ∧
      (∀ i : Fin n, (s.status (.mapper i)).isSome) ∧
      s.main.printed = mapperLines e s n ++ exitLine e.reducerExecutable s.main.reducerStatus ++
        [e.numLines s.output]
  | .ended _ => True
  | _ => s.main.printed = []

theorem mapperLines_congr {k : ℕ}
    (h : ∀ i : Fin n, i < k → t.status (.mapper i) = s.status (.mapper i)) :
    mapperLines e t k = mapperLines e s k := by
  refine List.flatMap_congr fun i hi => ?_
  obtain ⟨j, hj, hget⟩ := List.mem_take_iff_getElem.mp hi
  have hi : i.val = j := by simpa [Fin.ext_iff, eq_comm] using hget
  rw [h i (by omega)]

/-- One more mapper. -/
theorem mapperLines_succ {k : ℕ} (hk : k < n) {status : Status}
    (h : s.status (.mapper ⟨k, hk⟩) = some status) :
    mapperLines e s (k + 1) = mapperLines e s k ++ exitLine e.mapperExecutable status := by
  rw [mapperLines, List.take_add_one, List.flatMap_append]
  simp [hk, h, mapperLines]

/-- Where the parent is through with a child, the child makes no further step. -/
theorem Reported.move (hr : Reported e s) (hw : Wired s) (hp : s.child c = some p)
    (h : Move e s c p t) : Reported e t := by
  have hwired := hw.child c p hp
  obtain ⟨hmain, -⟩ := hwired.move h
  have hkeep {d : Child n} {status : Status} (hd : s.status d = some status) :
      t.status d = some status := h.status hwired hp hd
  have hkeep' {d : Child n} (hd : (s.status d).isSome) : t.status d = s.status d := by
    obtain ⟨status, hstatus⟩ := Option.isSome_iff_exists.mp hd
    rw [hstatus, hkeep hstatus]
  simp only [Reported, hmain] at hr ⊢
  split at hr
  · obtain ⟨hreducer, hmappers, hprinted⟩ := hr
    refine ⟨hkeep hreducer, fun i hi => ?_, ?_⟩
    · rw [hkeep' (hmappers i hi)]
      exact hmappers i hi
    · rw [hprinted, mapperLines_congr fun i hi => hkeep' (hmappers i hi)]
  · obtain ⟨hreducer, hmappers, hprinted⟩ := hr
    have houtput : t.output = s.output := by
      obtain ⟨chunk, bytes, hmoves⟩ := h.moves hwired hp
      rw [hmoves.output, if_neg ?_]
      intro hout
      obtain ⟨q, hq, hended⟩ := status_eq_some.mp hreducer
      cases c with
      | splitter i => cases hout
      | mapper i => cases hout
      | reducer =>
        obtain rfl := Option.some.inj (hp.symm.trans hq)
        exact h.not_ended _ hended
    refine ⟨hkeep hreducer, fun i => ?_, ?_⟩
    · rw [hkeep' (hmappers i)]
      exact hmappers i
    · rw [hprinted, houtput, mapperLines_congr fun i hi => hkeep' (hmappers i)]
  · trivial
  · exact hr

theorem Reported.mainMove (hr : Reported e s) (h : MainMove e s t) : Reported e t := by
  cases h with
  | @fails code hcode =>
    obtain ⟨k, rfl⟩ := Nat.exists_eq_succ_of_ne_zero hcode
    trivial
  | waitedReducer hat hstatus =>
    simp only [Reported, hat] at hr
    exact ⟨waitpid_eq_some hstatus, fun i hi => absurd hi (Nat.not_lt_zero _), hr⟩
  | @waitedMapper k status hk hat hstatus =>
    simp only [Reported, hat] at hr
    obtain ⟨hreducer, hmappers, hprinted⟩ := hr
    have hlast := waitpid_eq_some hstatus
    refine ⟨hreducer, fun i hi => ?_, ?_⟩
    · by_cases hik : i.val = k
      · obtain rfl : i = ⟨k, hk⟩ := Fin.ext hik
        exact Option.isSome_iff_exists.mpr ⟨status, hlast⟩
      · exact hmappers i (by omega)
    · show s.main.printed ++ _ = mapperLines e s (k + 1)
      rw [hprinted, mapperLines_succ hk hlast]
  | @finished k hk hat =>
    simp only [Reported, hat] at hr
    obtain ⟨hreducer, hmappers, hprinted⟩ := hr
    refine ⟨hreducer, fun i => hmappers i (by omega), ?_⟩
    show s.main.printed ++ _ ++ _ = mapperLines e s n ++ _ ++ _
    have hall (k : ℕ) (hk : n ≤ k) : (List.finRange n).take k = List.finRange n :=
      List.take_of_length_le (by simpa using hk)
    rw [hprinted, mapperLines, mapperLines, hall k (by omega), hall n le_rfl]
    rfl
  | _ => simp_all [Reported, System.go, System.set, Main.openOutput, Main.pipe2, execSplitter,
      execProcess]

theorem run_reported {as : List (Event n)} (hclose : ClosesAdded e)
    (h : Run (Step e) (start old) as s) : Reported e s := by
  have hinv : Wired s ∧ Reported e s := by
    refine h.invariant (P := fun s => Wired s ∧ Reported e s) ⟨start_wired old, rfl⟩ ?_
    rintro t a u ⟨hw, hr⟩ hstep
    rcases step_cases hstep with ⟨hplace, hmove⟩ | ⟨c, p, hp, hmove⟩
    · exact ⟨hw.mainMove hclose hplace hmove, hr.mainMove hmove⟩
    · exact ⟨hw.move hp hmove, hr.move hw hp hmove⟩
  exact hinv.2

end Cs241.Mapreduce
