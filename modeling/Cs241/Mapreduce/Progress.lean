import Cs241.Mapreduce.Wiring

/-!
# No deadlock

A process waits for a byte, for room or for a child. The parent waits only for
children and holds no pipe; among the children, the reducer waits for a mapper only
while its pipe is empty, and a mapper for its splitter likewise, so that the process
it waits for can go on. Hence a state without a step is one where all have ended.
-/
namespace Cs241.Mapreduce

open Foundation

variable {n : ℕ} {σ : Type*} {e : Setting n σ} {s t : System n σ} {c d : Child n}
  {p : Process n σ}

def Process.Ended (p : Process n σ) : Prop := ∃ status, p.phase = .ended status

/-- No step is possible. -/
def Stuck (e : Setting n σ) (s : System n σ) : Prop := ∀ a t, ¬ Step e s a t

/-- The child waits in a read from an empty pipe that has a writer. -/
def WaitsToRead (s : System n σ) (c : Child n) : Prop :=
  ∃ q, c.stdin = .readEnd q ∧ s.pipe q = [] ∧ s.Holds (.writeEnd q)

/-- The child waits in a write to a full pipe that has a reader. -/
def WaitsToWrite (e : Setting n σ) (s : System n σ) (c : Child n) : Prop :=
  ∃ q, c.stdout = .writeEnd q ∧ e.capacity ≤ (s.pipe q).length ∧ s.Holds (.readEnd q)

/-- Some answer is there for a read, unless the child has to wait. -/
theorem exists_answer (s : System n σ) (c : Child n) (count : ℕ)
    (h : ¬ WaitsToRead s c) (hreads : c.stdin = .terminal ∨ ∃ q, c.stdin = .readEnd q) :
    ∃ chunk, s.Answers c.stdin count chunk := by
  rcases hreads with hterminal | ⟨q, hq⟩
  · rw [hterminal]
    exact ⟨[], Nat.zero_le _, trivial⟩
  · rw [hq]
    refine ⟨(s.pipe q).take (min count 1), ?_, List.take_prefix _ _, fun hnil hcount => ?_⟩
    · rw [List.length_take]
      omega
    · have hempty : s.pipe q = [] := by
        rcases List.take_eq_nil_iff.mp hnil with hzero | hempty
        · omega
        · exact hempty
      exact ⟨hempty, fun hheld => h ⟨q, hq, hempty, hheld⟩⟩

/-- The files of a table with the standard descriptors only. -/
theorem Standard.eq_of_has {fds : Table (File n)} {newStdin newStdout f : File n}
    (h : Standard fds newStdin newStdout) (hf : fds.Has f) :
    f = newStdin ∨ f = newStdout ∨ f = .terminal := by
  obtain ⟨fd, hfd⟩ := Table.has_iff.mp hf
  rcases fd with _ | _ | _ | fd
  · exact .inl (Option.some.inj (hfd.symm.trans h.stdin))
  · exact .inr (.inl (Option.some.inj (hfd.symm.trans h.stdout)))
  · exact .inr (.inr (Option.some.inj (hfd.symm.trans h.stderr)))
  · rw [h.others _ (by omega)] at hfd
    cases hfd

/-- A child that can not go on has ended or waits for bytes or for room. -/
theorem Process.Wired.stuck (hw : p.Wired c) (hp : s.child c = some p)
    (hstuck : ∀ chunk, childStep e s c chunk = none) :
    p.Ended ∨ (Standard p.fds c.stdin c.stdout ∧ (WaitsToRead s c ∨ WaitsToWrite e s c)) := by
  have hnone (chunk : List UInt8) := hstuck chunk
  simp only [childStep, hp, Option.bind_some] at hnone
  cases hphase : p.phase with
  | ended status => exact .inl ⟨status, hphase⟩
  | starting calls =>
    cases calls with
    | nil =>
      simp only [hphase] at hnone
      have := hnone []
      split at this <;> cases this
    | cons call calls =>
      cases call with
      | dup2 old new =>
        simp only [hphase] at hnone
        have := hnone []
        split at this <;> cases this
      | close fd =>
        simp only [hphase] at hnone
        cases hnone []
  | running memory =>
    have hstandard : Standard p.fds c.stdin c.stdout := by simpa only [Process.Wired, hphase] using hw
    simp only [hphase] at hnone
    refine .inr ⟨hstandard, .inl ?_⟩
    by_contra hwaits
    cases hrequest : e.program.request memory with
    | exit code =>
      simp only [hrequest] at hnone
      cases hnone []
    | write bytes =>
      simp only [hrequest] at hnone
      cases hnone []
    | read count =>
      simp only [hrequest, hstandard.stdin, Option.bind_some] at hnone
      obtain ⟨chunk, hchunk⟩ := exists_answer s c count hwaits (by cases c <;> simp [Child.stdin])
      have := hnone chunk
      rw [if_pos hchunk] at this
      cases this
  | writing memory rest =>
    cases rest with
    | nil =>
      simp only [hphase] at hnone
      cases hnone []
    | cons b rest =>
      have hstandard : Standard p.fds c.stdin c.stdout := by
        simpa only [Process.Wired, hphase] using hw
      simp only [hphase, hstandard.stdout, Option.bind_some] at hnone
      refine .inr ⟨hstandard, .inr ?_⟩
      have := hnone []
      cases hout : c.stdout with
      | writeEnd q =>
        simp only [hout, writeByte] at this
        split_ifs at this with hheld hroom
        exact ⟨q, hout, by omega, hheld⟩
      | readEnd q => cases c <;> cases hout
      | output =>
        simp only [hout, writeByte] at this
        cases this
      | terminal => cases c <;> cases hout

/-- A parent that can not go on has no pipe open, and has ended unless it waits for a child. -/
theorem Wired.main_stuck (hw : Wired s) (hstuck : mainStep e s false = none) :
    (∀ f, s.main.fds.Has f → f = .terminal) ∧
      ((∃ code, s.main.place = .ended code) ∨ ∃ c p, s.child c = some p ∧ ¬ p.Ended) := by
  have hwaitpid {c : Child n} (hwait : s.waitpid c = none) : ∃ p, s.child c = some p ∧ ¬ p.Ended := by
    rw [System.waitpid] at hwait
    split at hwait
    · cases hwait
    · case h_2 p hp =>
      refine ⟨p, hp, ?_⟩
      rintro ⟨status, hphase⟩
      simp [hphase] at hwait
  have hterminal (h : Standard s.main.fds .terminal .terminal) (f : File n)
      (hf : s.main.fds.Has f) : f = .terminal := by
    rcases h.eq_of_has hf with h | h | h <;> exact h
  have hmain := hw.main
  cases hplace : s.main.place with
  | ended code =>
    simp only [Main.Wired, hplace] at hmain
    refine ⟨fun f hf => ?_, .inl ⟨code, rfl⟩⟩
    rw [hmain] at hf
    cases hf
  | waitReducer =>
    simp only [Main.Wired, hplace] at hmain
    simp only [mainStep, hplace, Option.map_eq_none_iff] at hstuck
    exact ⟨hterminal hmain, .inr ⟨_, hwaitpid hstuck⟩⟩
  | waitMapper i =>
    simp only [Main.Wired, hplace] at hmain
    simp only [mainStep, hplace] at hstuck
    split_ifs at hstuck with hi
    exact ⟨hterminal hmain, .inr ⟨_, hwaitpid (Option.map_eq_none_iff.mp hstuck)⟩⟩
  | closing fds => cases fds <;> simp [mainStep, hplace] at hstuck
  | opening => simp [mainStep, hplace] at hstuck
  | piping i =>
    simp only [mainStep, hplace] at hstuck
    split_ifs at hstuck
  | splitting i =>
    simp only [mainStep, hplace] at hstuck
    split_ifs at hstuck
  | mapping i =>
    simp only [mainStep, hplace] at hstuck
    split_ifs at hstuck

/-! ## A state without a step -/

/-- The child has neither ended nor can it go on. -/
def Waits (e : Setting n σ) (s : System n σ) (c : Child n) : Prop :=
  WaitsToRead s c ∨ WaitsToWrite e s c

/-- In a stuck state the pipes are open at waiting children only. -/
theorem Wired.holds (hw : Wired s) (hstuck : Stuck e s) {f : File n} (hf : f ≠ .terminal)
    (hheld : s.Holds f) : ∃ c, Waits e s c ∧ (f = c.stdin ∨ f = c.stdout) := by
  have hmain := hw.main_stuck (Option.eq_none_iff_forall_ne_some.mpr fun t => hstuck (.main false) t)
  rcases hheld with hheld | ⟨c, p, hp, hheld⟩
  · exact absurd (hmain.1 f hheld) hf
  have hchild (chunk : List UInt8) : childStep e s c chunk = none :=
    Option.eq_none_iff_forall_ne_some.mpr fun t => hstuck (.child c chunk) t
  rcases (hw.child c p hp).stuck hp hchild with ⟨status, hended⟩ | ⟨hstandard, hwaits⟩
  · have hfds : p.fds = [] := by simpa only [Process.Wired, hended] using hw.child c p hp
    rw [hfds] at hheld
    cases hheld
  · rcases hstandard.eq_of_has hheld with hin | hout | hterminal
    · exact ⟨c, hwaits, .inl hin⟩
    · exact ⟨c, hwaits, .inr hout⟩
    · exact absurd hterminal hf

theorem Wired.writer (hw : Wired s) (hstuck : Stuck e s) {q : Pipe n}
    (hheld : s.Holds (.writeEnd q)) : ∃ c, Waits e s c ∧ c.stdout = .writeEnd q := by
  obtain ⟨c, hwaits, hin | hout⟩ := hw.holds hstuck (by simp) hheld
  · cases c <;> cases hin
  · exact ⟨c, hwaits, hout.symm⟩

theorem Wired.reader (hw : Wired s) (hstuck : Stuck e s) {q : Pipe n}
    (hheld : s.Holds (.readEnd q)) : ∃ c, Waits e s c ∧ c.stdin = .readEnd q := by
  obtain ⟨c, hwaits, hin | hout⟩ := hw.holds hstuck (by simp) hheld
  · exact ⟨c, hwaits, hin.symm⟩
  · cases c <;> cases hout

/-- Nobody waits in a stuck state: the process waited for is the one that could go on. -/
theorem Wired.not_waits (hw : Wired s) (hcapacity : 0 < e.capacity) (hstuck : Stuck e s)
    (c : Child n) : ¬ Waits e s c := by
  have hnotfull {q : Pipe n} (hempty : s.pipe q = []) : ¬ e.capacity ≤ (s.pipe q).length := by
    rw [hempty, List.length_nil]
    omega
  -- a mapper that waits for a byte waits for its splitter, which finds its pipe empty
  have hmapperReads (i : Fin n) : ¬ WaitsToRead s (.mapper i) := by
    rintro ⟨q, hq, hempty, hheld⟩
    obtain ⟨d, hwaits, hwriter⟩ := hw.writer hstuck hheld
    cases hq
    cases d with
    | splitter j =>
      cases hwriter
      rcases hwaits with ⟨q, hq, -⟩ | ⟨q, hq, hfull, -⟩
      · cases hq
      · cases hq
        exact hnotfull hempty hfull
    | mapper j => cases hwriter
    | reducer => cases hwriter
  -- the reducer that waits for a byte waits for a mapper, which finds the pipe empty
  have hreducer : ¬ Waits e s .reducer := by
    rintro (⟨q, hq, hempty, hheld⟩ | ⟨q, hq, -⟩)
    · obtain ⟨d, hwaits, hwriter⟩ := hw.writer hstuck hheld
      cases hq
      cases d with
      | splitter j => cases hwriter
      | mapper j =>
        rcases hwaits with hreads | ⟨q, hq, hfull, -⟩
        · exact hmapperReads j hreads
        · cases hq
          exact hnotfull hempty hfull
      | reducer => cases hwriter
    · cases hq
  -- a mapper that waits for room waits for the reducer
  have hmapper (i : Fin n) : ¬ Waits e s (.mapper i) := by
    rintro (hreads | ⟨q, hq, -, hheld⟩)
    · exact hmapperReads i hreads
    · obtain ⟨d, hwaits, hreader⟩ := hw.reader hstuck hheld
      cases hq
      cases d with
      | splitter j => cases hreader
      | mapper j => cases hreader
      | reducer => exact hreducer hwaits
  cases c with
  | splitter i =>
    rintro (⟨q, hq, -⟩ | ⟨q, hq, -, hheld⟩)
    · cases hq
    · obtain ⟨d, hwaits, hreader⟩ := hw.reader hstuck hheld
      cases hq
      cases d with
      | splitter j => cases hreader
      | mapper j => exact hmapper j hwaits
      | reducer => cases hreader
  | mapper i => exact hmapper i
  | reducer => exact hreducer

/-- When no step is possible, the parent and all its children have ended. -/
theorem Wired.ended_of_stuck (hw : Wired s) (hcapacity : 0 < e.capacity) (hstuck : Stuck e s) :
    (∃ code, s.main.place = .ended code) ∧ ∀ c p, s.child c = some p → p.Ended := by
  have hchildren (c : Child n) (p : Process n σ) (hp : s.child c = some p) : p.Ended := by
    have hchild (chunk : List UInt8) : childStep e s c chunk = none :=
      Option.eq_none_iff_forall_ne_some.mpr fun t => hstuck (.child c chunk) t
    rcases (hw.child c p hp).stuck hp hchild with hended | ⟨-, hwaits⟩
    · exact hended
    · exact absurd hwaits (hw.not_waits hcapacity hstuck c)
  have hmain := hw.main_stuck (Option.eq_none_iff_forall_ne_some.mpr fun t => hstuck (.main false) t)
  refine ⟨?_, hchildren⟩
  rcases hmain.2 with hended | ⟨c, p, hp, hnot⟩
  · exact hended
  · exact absurd (hchildren c p hp) hnot

end Cs241.Mapreduce
