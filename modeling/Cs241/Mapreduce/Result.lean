import Cs241.Mapreduce.Completion
import Cs241.Mapreduce.Output

/-!
# Mapreduce as a whole

The results about every run of the parent and its children, and a run of one mapper
with a program that copies its input.
-/
namespace Cs241.Mapreduce

open Foundation

variable {n : ℕ} {σ : Type*} {e : Setting n σ} {s : System n σ} {old : List UInt8}
  {as : List (Event n)}

/-! ## A program that copies its input -/

/-- The memory of a program that writes, once it has come to the end of its input, what it
has read. -/
inductive Copy
  | reading (got : List UInt8)
  | writing (bytes : List UInt8)
  | done

def copy : Program Copy where
  request
    | .reading _ => .read 2
    | .writing bytes => .write bytes
    | .done => .exit 0
  afterRead
    | .reading got, [] => .writing got
    | .reading got, bytes => .reading (got ++ bytes)
    | memory, _ => memory
  afterWrite _ := .done

theorem copy_computes : copy.Computes (.reading []) id := by
  have hinv {got put : List UInt8} {eof : Bool} {memory : Copy}
      (h : copy.Trace (.reading []) got eof put memory) :
      match memory with
      | .reading bytes => got = bytes ∧ put = []
      | .writing bytes => got = bytes ∧ put = [] ∧ eof = true
      | .done => put = got ∧ eof = true := by
    induction h with
    | start => exact ⟨rfl, rfl⟩
    | @read got eof put memory count bytes _ hrequest hbytes _ ih =>
      cases memory with
      | reading acc =>
        cases bytes with
        | nil => exact absurd rfl hbytes
        | cons b bytes => exact ⟨congrArg (· ++ b :: bytes) ih.1, ih.2⟩
      | writing acc => cases hrequest
      | done => cases hrequest
    | @eof got eof put memory count _ hrequest _ ih =>
      cases memory with
      | reading acc => exact ⟨ih.1, ih.2, rfl⟩
      | writing acc => cases hrequest
      | done => cases hrequest
    | @readNone got eof put memory _ hrequest ih => cases memory <;> cases hrequest
    | @write got eof put memory bytes _ hrequest ih =>
      cases memory with
      | reading acc => cases hrequest
      | writing acc =>
        cases hrequest
        obtain ⟨rfl, rfl, heof⟩ := ih
        exact ⟨rfl, heof⟩
      | done => cases hrequest
  intro got eof put memory code h hrequest
  have htrace := hinv h
  cases memory <;> cases hrequest
  exact ⟨htrace.2, htrace.1⟩

theorem copy_emits (bytes : List UInt8) : copy.Emits (.writing bytes) bytes := by
  have hinv {got put : List UInt8} {eof : Bool} {memory : Copy}
      (h : copy.Trace (.writing bytes) got eof put memory) :
      (memory = .writing bytes ∧ put = []) ∨ (memory = .done ∧ put = bytes) := by
    induction h with
    | start => exact .inl ⟨rfl, rfl⟩
    | read _ hrequest | eof _ hrequest | readNone _ hrequest =>
      rename_i ih
      rcases ih with ⟨rfl, -⟩ | ⟨rfl, -⟩ <;> cases hrequest
    | write _ hrequest ih =>
      rcases ih with ⟨rfl, rfl⟩ | ⟨rfl, -⟩ <;> cases hrequest
      exact .inr ⟨rfl, rfl⟩
  intro got eof put memory code h hrequest
  rcases hinv h with ⟨rfl, -⟩ | ⟨-, hput⟩
  · cases hrequest
  · exact hput

theorem copy_ends_writing (limited : Prop) (bytes : List UInt8) :
    copy.Ends (.writing bytes) limited := by
  intro left
  have hdone (left : ℕ) : Acc (copy.Next limited) (.done, left) := by
    constructor
    rintro _ (⟨_, ⟨⟩, _⟩ | ⟨⟨⟩⟩)
  constructor
  intro y hy
  cases hy with
  | read _ hrequest => cases hrequest
  | write => exact hdone left

theorem copy_ends {limited : Prop} (hlimited : limited) (got : List UInt8) :
    copy.Ends (.reading got) limited := by
  intro left
  induction left using Nat.strong_induction_on generalizing got with
  | _ left ih =>
    constructor
    intro y hy
    cases hy with
    | read bytes hrequest hlen hleft =>
      cases bytes with
      | nil => exact copy_ends_writing limited got _
      | cons b bytes =>
        refine ih _ ?_ _
        have := hleft hlimited
        rw [List.length_cons] at this
        omega
    | write hrequest => cases hrequest

/-- All programs copy their input; the splitters have the pieces. -/
def copying (piece : Fin n → List UInt8) : Setting n Copy where
  program := copy
  image
    | .splitter i => some (.writing (piece i))
    | _ => some (.reading [])
  capacity := 1
  closeall := id
  numLines file := toString (file.count 10) ++ "\n"
  mapperExecutable := "./mapper"
  reducerExecutable := "./reducer"

theorem copying_closes (piece : Fin n → List UInt8) : ClosesAdded (copying piece) :=
  fun _ _ => Iff.rfl

theorem copying_computes (piece : Fin n → List UInt8) : Computing (copying piece) piece id id :=
  ⟨fun i => ⟨_, rfl, copy_emits (piece i)⟩, fun _ => ⟨_, rfl, copy_computes⟩,
    ⟨_, rfl, copy_computes⟩⟩

/-- One mapper, whose input is one byte. The splitter is done before the mapper is forked;
the reducer has to close its descriptors before the mapper can see the end of its input. -/
def schedule : List (Event 1) :=
  List.replicate 4 (.main false) ++ List.replicate 11 (.child (.splitter 0) []) ++
    List.replicate 9 (.main false) ++ List.replicate 8 (.child (.mapper 0) []) ++
    List.replicate 8 (.child .reducer []) ++ [.child (.mapper 0) [97]] ++
    List.replicate 5 (.child (.mapper 0) []) ++ [.child .reducer [97]] ++
    List.replicate 5 (.child .reducer []) ++ List.replicate 3 (.main false)

/-- The state behind a run that starts with two bytes in the output file. -/
def behind (as : List (Event 1)) : System 1 Copy :=
  (as.foldlM (System.next (copying fun _ => [97])) (start [98, 10])).getD (start [98, 10])

theorem run_behind {as : List (Event 1)}
    (h : (as.foldlM (System.next (copying fun _ => [97])) (start [98, 10])).isSome) :
    Run (Step (copying fun _ => [97])) (start [98, 10]) as (behind as) := by
  obtain ⟨s, hs⟩ := Option.isSome_iff_exists.mp h
  rw [behind, hs]
  exact .of_fold hs

/-! ## Every run -/

/-- A program runs with its standard input, output and error and nothing else open; a child's
`dup2` does not fail; the parent waits with its standard descriptors only. -/
theorem run_descriptors (hclose : ClosesAdded e) (h : Run (Step e) (start old) as s) :
    (∀ c p, s.child c = some p →
      (∀ memory, p.phase = .running memory → Standard p.fds c.stdin c.stdout) ∧
      (∀ memory rest, p.phase = .writing memory rest → Standard p.fds c.stdin c.stdout) ∧
      ∀ old new calls, p.phase = .starting (.dup2 old new :: calls) →
        p.fds.dup2 old new ≠ none) ∧
    ((s.main.place = .waitReducer ∨ ∃ i, s.main.place = .waitMapper i) →
      Standard s.main.fds .terminal .terminal) := by
  have hw := run_wired hclose h
  refine ⟨fun c p hp => ⟨fun _ => (hw.child c p hp).running, fun _ _ => (hw.child c p hp).writing,
    fun old new calls hphase hnone => ?_⟩, ?_⟩
  · have hwired := hw.child c p hp
    simp only [Process.Wired, hphase, startup, hnone] at hwired
    obtain ⟨fds, hfds, -⟩ := hwired
    cases hfds
  · have hmain := hw.main
    rintro (hplace | ⟨i, hplace⟩) <;> simpa only [Main.Wired, hplace] using hmain

theorem run_descriptors_waiting :
    Standard (behind (schedule.take 24)).main.fds .terminal .terminal :=
  (run_descriptors (copying_closes _) (run_behind (by decide +kernel))).2
    (.inl (by decide +kernel))

/-- The pipes hold what was written and not yet read; the reducer reads an interleaving of
what the mappers have written; the output file has what the reducer has written, over its
old contents. -/
theorem run_conserves (hclose : ClosesAdded e) (h : Run (Step e) (start old) as s) :
    (∀ i, s.put (.splitter i) = s.got (.mapper i) ++ s.pipe (some i)) ∧
      Interleaving (fun i => s.put (.mapper i)) (s.got .reducer ++ s.pipe none) ∧
      s.output = overwrite old 0 (s.put .reducer) :=
  have hf := run_flow hclose h
  ⟨hf.mapperPipe, hf.reducerPipe, hf.output⟩

theorem run_conserves_schedule :
    (behind schedule).output = overwrite [98, 10] 0 ((behind schedule).put .reducer) :=
  (run_conserves (copying_closes _) (run_behind (by decide +kernel))).2.2

/-- No deadlock: only when the parent and all its children have ended is no step possible. -/
theorem run_stuck_iff (hclose : ClosesAdded e) (hcapacity : 0 < e.capacity)
    (h : Run (Step e) (start old) as s) :
    Stuck e s ↔ (∃ code, s.main.place = .ended code) ∧ ∀ c p, s.child c = some p → p.Ended := by
  refine ⟨(run_wired hclose h).ended_of_stuck hcapacity, ?_⟩
  rintro ⟨⟨code, hplace⟩, hchildren⟩ a t hstep
  rcases step_cases hstep with ⟨hnot, -⟩ | ⟨c, p, hp, hmove⟩
  · exact hnot code hplace
  · obtain ⟨status, hended⟩ := hchildren c p hp
    exact hmove.not_ended status hended

theorem run_stuck_iff_start : ¬ Stuck (copying fun _ : Fin 1 => [97]) (start [98, 10]) := by
  rw [run_stuck_iff (copying_closes _) (by decide) .refl]
  rintro ⟨⟨code, hplace⟩, -⟩
  cases hplace

/-- With programs that end on every finite input, every run has an end, however it goes on,
and it ends with the parent and all its children ended. -/
theorem run_completes (hclose : ClosesAdded e) (hcapacity : 0 < e.capacity)
    (hends : ∀ c memory, e.image c = some memory → e.program.Ends memory c.Limited)
    (h : Run (Step e) (start old) as s) :
    Acc (fun t s => ∃ a, Step e s a t) s ∧
      ∃ bs t, Run (Step e) s bs t ∧ (∃ code, t.main.place = .ended code) ∧
        ∀ c p, t.child c = some p → p.Ended := by
  have hstart : Acc (fun t s => ∃ a, Step e s a t) (start old : System n σ) := by
    by_contra hnot
    obtain ⟨run, hrun, hstep⟩ := not_acc_iff_exists_descending_chain.mp hnot
    choose acts hacts using hstep
    exact not_endless hclose hends hrun hacts
  have hacc := h.acc hstart
  refine ⟨hacc, ?_⟩
  obtain ⟨bs, t, hrun, hstuck⟩ := exists_run_of_acc hacc
  exact ⟨bs, t, hrun, (run_wired hclose (h.trans hrun)).ended_of_stuck hcapacity hstuck⟩

theorem run_completes_start :
    Acc (fun t s => ∃ a, Step (copying fun _ : Fin 1 => [97]) s a t) (start [98, 10]) := by
  refine (run_completes (copying_closes _) (by decide) (fun c memory himage => ?_) .refl).1
  cases c with
  | splitter i =>
    obtain rfl := Option.some.inj himage
    exact copy_ends_writing _ _
  | mapper i =>
    obtain rfl := Option.some.inj himage
    exact copy_ends (by simp [Child.Limited, Child.stdin]) []
  | reducer =>
    obtain rfl := Option.some.inj himage
    exact copy_ends (by simp [Child.Limited, Child.stdin]) []

/-- If the parent comes to its end and the programs read their whole input, the output file
has the reducer's answer to an interleaving of the mappers' answers to the pieces, over its
old contents; every mapper has exited, and the nonzero exit codes are printed in order. -/
theorem run_result {piece : Fin n → List UInt8} {map reduce : List UInt8 → List UInt8}
    (hclose : ClosesAdded e) (hc : Computing e piece map reduce)
    (h : Run (Step e) (start old) as s) (hended : s.main.place = .ended 0) :
    (∃ w, Interleaving (fun i => map (piece i)) w ∧ s.output = overwrite old 0 (reduce w)) ∧
      ∃ (codes : Fin n → ℕ) (code : ℕ),
        (∀ i, s.status (.mapper i) = some (.exited (codes i))) ∧
        s.status .reducer = some (.exited code) ∧
        s.main.printed =
          (List.finRange n).flatMap (fun i => exitLine e.mapperExecutable (.exited (codes i))) ++
            exitLine e.reducerExecutable (.exited code) ++ [e.numLines s.output] := by
  refine ⟨run_output hclose hc h hended, ?_⟩
  have hgood : Succeeding s := by
    intro code hcode
    rw [hended] at hcode
    cases hcode
    rfl
  have hs := run_sound hclose hc h hgood
  have hexited {c : Child n} (hc : (s.status c).isSome) :
      ∃ code, s.status c = some (.exited code) := by
    obtain ⟨status, hstatus⟩ := Option.isSome_iff_exists.mp hc
    obtain ⟨p, hp, hphase⟩ := status_eq_some.mp hstatus
    have ht := hs.traced c p hp
    cases status with
    | exited code => exact ⟨code, hstatus⟩
    | signaled => simp only [Process.Traced, hphase] at ht
  have hr := run_reported hclose h
  simp only [Reported, hended] at hr
  obtain ⟨hreducer, hmappers, hprinted⟩ := hr
  choose codes hcodes using fun i => hexited (hmappers i)
  obtain ⟨code, hcode⟩ := hexited (Option.isSome_iff_exists.mpr ⟨_, hreducer⟩)
  obtain hcode' := Option.some.inj (hreducer.symm.trans hcode)
  refine ⟨codes, code, hcodes, hcode, ?_⟩
  rw [hprinted, hcode', mapperLines, List.take_of_length_le (by simp)]
  simp only [hcodes, Option.elim_some]

theorem run_result_schedule :
    ∃ w, Interleaving (fun _ : Fin 1 => [97]) w ∧
      (behind schedule).output = overwrite [98, 10] 0 w :=
  (run_result (copying_closes _) (copying_computes _) (run_behind (by decide +kernel))
    (by decide +kernel)).1

example : (behind schedule).output = [97, 10] := by decide +kernel

end Cs241.Mapreduce
