import Cs241.Mapreduce.Reports

/-!
# The result of a run

The programs read their whole input before they exit. Then a reader ends only after
all of its writers have, so that no process is killed for want of a reader, and what
a program has written is its answer to what it has read. In the end the output file
has the reducer's answer to an interleaving of the mappers' answers to the pieces.
-/
namespace Cs241.Mapreduce

open Foundation

variable {n : ℕ} {σ : Type*} {e : Setting n σ} {s t : System n σ} {c d : Child n}
  {p : Process n σ} {old : List UInt8}

/-- The splitters emit the pieces; the mappers and the reducer compute `map` and `reduce`. -/
structure Computing (e : Setting n σ) (piece : Fin n → List UInt8)
    (map reduce : List UInt8 → List UInt8) : Prop where
  splitter : ∀ i, ∃ memory, e.image (.splitter i) = some memory ∧
    e.program.Emits memory (piece i)
  mapper : ∀ i, ∃ memory, e.image (.mapper i) = some memory ∧ e.program.Computes memory map
  reducer : ∃ memory, e.image .reducer = some memory ∧ e.program.Computes memory reduce

/-- What a child has read and written is a trace of its program. -/
def Process.Traced (e : Setting n σ) (c : Child n) (p : Process n σ) : Prop :=
  match p.phase with
  | .starting _ => p.got = [] ∧ p.put = [] ∧ p.eof = false
  | .running memory =>
    ∃ image, e.image c = some image ∧ e.program.Trace image p.got p.eof p.put memory
  | .writing memory rest =>
    ∃ image put bytes, e.image c = some image ∧ e.program.Trace image p.got p.eof put memory ∧
      e.program.request memory = .write bytes ∧ put ++ bytes = p.put ++ rest
  | .ended (.exited _) =>
    ∃ image memory code, e.image c = some image ∧
      e.program.Trace image p.got p.eof p.put memory ∧ e.program.request memory = .exit code
  | .ended .signaled => False

/-- No call of the parent has failed. -/
def Succeeding (s : System n σ) : Prop := ∀ code, s.main.place = .ended code → code = 0

/-- A child that was told of the end of its input has an empty pipe without writers. -/
structure Sound (e : Setting n σ) (s : System n σ) : Prop where
  traced : ∀ c p, s.child c = some p → p.Traced e c
  eof : ∀ c p q, s.child c = some p → p.eof = true → c.stdin = .readEnd q →
    s.pipe q = [] ∧ ∀ d, d.stdout = .writeEnd q → (s.status d).isSome

/-! ## Who holds a pipe open -/

theorem startup_has {calls : List Startup} {fds fds' : Table (File n)} {f : File n}
    (h : startup calls fds = some fds') (hf : fds'.Has f) : fds.Has f := by
  induction calls generalizing fds with
  | nil =>
    obtain rfl := Option.some.inj h
    exact hf
  | cons call calls ih =>
    cases call with
    | dup2 old new =>
      obtain ⟨fds₁, hfds₁, h⟩ := Option.bind_eq_some_iff.mp h
      exact (ih h).of_dup2 hfds₁
    | close fd => exact (ih h).of_close

/-- A child holds its standard input and output until it ends. -/
theorem Process.Wired.has (hw : p.Wired c) (hnot : ∀ status, p.phase ≠ .ended status) :
    p.fds.Has c.stdin ∧ p.fds.Has c.stdout := by
  have hhas {fds : Table (File n)} (h : Standard fds c.stdin c.stdout) :
      fds.Has c.stdin ∧ fds.Has c.stdout :=
    ⟨Table.has_iff.mpr ⟨0, h.stdin⟩, Table.has_iff.mpr ⟨1, h.stdout⟩⟩
  cases hphase : p.phase with
  | starting calls =>
    simp only [Process.Wired, hphase] at hw
    obtain ⟨fds, hfds, hstandard⟩ := hw
    exact ⟨startup_has hfds (hhas hstandard).1, startup_has hfds (hhas hstandard).2⟩
  | running memory => exact hhas (hw.running hphase)
  | writing memory rest => exact hhas (hw.writing hphase)
  | ended status => exact absurd hphase (hnot status)

/-- While a child is there and the pipe has a closed end, the parent has forked everyone. -/
theorem Wired.all_forked (hw : Wired s) (hs : Succeeding s) (hp : s.child c = some p) {q : Pipe n}
    {f : File n} (hf : f = .readEnd q ∨ f = .writeEnd q) (hnot : ¬ s.Holds f) (d : Child n) :
    ∃ p', s.child d = some p' := by
  have hprepared {made : Pipe n → Prop} (h : Prepared s.main True made) : ¬ made q := by
    intro hq
    obtain ⟨hread, hwrite⟩ := h.pipes q hq
    refine hnot (.inl (Table.has_iff.mpr ?_))
    rcases hf with rfl | rfl
    · exact ⟨_, hread⟩
    · exact ⟨_, hwrite⟩
  have hmain := hw.main
  have hthere : s.main.place.Forked c := by
    rw [← hw.forked hs, hp]
    rfl
  rw [← Option.isSome_iff_exists, hw.forked hs]
  cases hplace : s.main.place with
  | opening => simp [hplace, Place.Forked] at hthere
  | piping i => simp [hplace, Place.Forked] at hthere
  | splitting i =>
    simp only [Main.Wired, hplace] at hmain
    exact absurd trivial (hprepared hmain)
  | mapping i =>
    simp only [Main.Wired, hplace] at hmain
    exact absurd trivial (hprepared hmain)
  | _ => trivial

/-- Behind a closed end all the children that would hold it have ended. -/
theorem Wired.ended_of_not_holds (hw : Wired s) (hs : Succeeding s) (hp : s.child c = some p)
    {q : Pipe n} {f : File n} (hf : f = .readEnd q ∨ f = .writeEnd q) (hnot : ¬ s.Holds f)
    (hd : d.stdin = f ∨ d.stdout = f) : ∃ status, s.status d = some status := by
  obtain ⟨p', hp'⟩ := hw.all_forked hs hp hf hnot d
  by_contra hrunning
  have hphase (status : Status) : p'.phase ≠ .ended status := fun hended =>
    hrunning ⟨status, status_eq_some.mpr ⟨p', hp', hended⟩⟩
  obtain ⟨hin, hout⟩ := (hw.child d p' hp').has hphase
  refine hnot (.inr ⟨d, p', hp', ?_⟩)
  rcases hd with rfl | rfl
  · exact hin
  · exact hout

/-! ## One step -/

variable {piece : Fin n → List UInt8} {map reduce : List UInt8 → List UInt8}

theorem Computing.image (hc : Computing e piece map reduce) (c : Child n) : e.image c ≠ none := by
  cases c with
  | splitter i =>
    obtain ⟨memory, h, -⟩ := hc.splitter i
    simp [h]
  | mapper i =>
    obtain ⟨memory, h, -⟩ := hc.mapper i
    simp [h]
  | reducer =>
    obtain ⟨memory, h, -⟩ := hc.reducer
    simp [h]

/-- Who reads from a pipe reads to its end. -/
theorem Computing.reads (hc : Computing e piece map reduce) {q : Pipe n} (hin : c.stdin = .readEnd q)
    (ht : p.Traced e c) {status : Status} (hended : p.phase = .ended status) : p.eof = true := by
  have hcomputes : ∃ memory f, e.image c = some memory ∧ e.program.Computes memory f := by
    cases c with
    | splitter i => cases hin
    | mapper i =>
      obtain ⟨memory, h⟩ := hc.mapper i
      exact ⟨memory, map, h⟩
    | reducer =>
      obtain ⟨memory, h⟩ := hc.reducer
      exact ⟨memory, reduce, h⟩
  obtain ⟨memory, f, himage, hf⟩ := hcomputes
  simp only [Process.Traced, hended] at ht
  cases status with
  | exited code =>
    obtain ⟨image, memory', code', himage', htrace, hrequest⟩ := ht
    obtain rfl := Option.some.inj (himage.symm.trans himage')
    exact (hf htrace hrequest).1
  | signaled => exact ht.elim

/-- No writer is killed: whoever has the read end reads to the end of the pipe. -/
theorem Sound.reader (hs : Sound e s) (hc : Computing e piece map reduce) (hw : Wired s)
    (hgood : Succeeding s) (hp : s.child c = some p) (hnot : ∀ status, p.phase ≠ .ended status)
    {q : Pipe n} (hout : c.stdout = .writeEnd q) : s.Holds (.readEnd q) := by
  by_contra hclosed
  obtain ⟨r, hr⟩ : ∃ r : Child n, r.stdin = .readEnd q := by
    cases q with
    | some i => exact ⟨.mapper i, rfl⟩
    | none => exact ⟨.reducer, rfl⟩
  obtain ⟨status, hstatus⟩ := hw.ended_of_not_holds hgood hp (.inl rfl) hclosed (.inl hr)
  obtain ⟨p', hp', hended⟩ := status_eq_some.mp hstatus
  have heof := hc.reads hr (hs.traced r p' hp') hended
  obtain ⟨status', hstatus'⟩ := Option.isSome_iff_exists.mp ((hs.eof r p' q hp' heof hr).2 c hout)
  obtain ⟨p'', hp'', hended'⟩ := status_eq_some.mp hstatus'
  obtain rfl := Option.some.inj (hp.symm.trans hp'')
  exact hnot status' hended'

/-- The history of the child that makes the step stays a trace of its program. -/
theorem Process.Traced.move (ht : p.Traced e c) (hw : p.Wired c) (himage : e.image c ≠ none)
    (hheld : ∀ q, c.stdout = .writeEnd q → s.Holds (.readEnd q)) (h : Move e s c p t) :
    ∃ p', t.child c = some p' ∧ p'.Traced e c := by
  have hset (p' : Process n σ) : (s.set c p').child c = some p' := by simp
  cases h with
  | dup2 hphase | close hphase =>
    refine ⟨_, hset _, ?_⟩
    simpa only [Process.Traced, hphase] using ht
  | dup2Fails hphase hnone =>
    simp only [Process.Wired, hphase, startup, hnone] at hw
    obtain ⟨fds, hfds, -⟩ := hw
    cases hfds
  | @exec memory hphase hmemory =>
    refine ⟨_, hset _, ?_⟩
    simp only [Process.Traced, hphase] at ht
    obtain ⟨hgot, hput, heof⟩ := ht
    simp only [Process.Traced, hgot, hput, heof]
    exact ⟨memory, hmemory, .start⟩
  | execFails hphase hnone => exact absurd hnone himage
  | @exit memory code hphase hrequest =>
    refine ⟨_, hset _, ?_⟩
    simp only [Process.Traced, hphase] at ht
    obtain ⟨image, himage, htrace⟩ := ht
    exact ⟨image, memory, code, himage, htrace, hrequest⟩
  | @write memory bytes hphase hrequest =>
    refine ⟨_, hset _, ?_⟩
    simp only [Process.Traced, hphase] at ht
    obtain ⟨image, himage, htrace⟩ := ht
    exact ⟨image, p.put, bytes, himage, htrace, hrequest, rfl⟩
  | wrote hphase =>
    refine ⟨_, hset _, ?_⟩
    simp only [Process.Traced, hphase] at ht
    obtain ⟨image, put, bytes, himage, htrace, hrequest, hput⟩ := ht
    rw [List.append_nil] at hput
    exact ⟨image, himage, hput ▸ htrace.write hrequest⟩
  | @read memory count f chunk hphase hrequest hf hchunk =>
    refine ⟨_, (child_set _ _ _ _).trans (if_pos rfl), ?_⟩
    simp only [Process.Traced, hphase] at ht
    obtain ⟨image, himage, htrace⟩ := ht
    refine ⟨image, himage, ?_⟩
    by_cases hcount : count = 0
    · subst hcount
      obtain rfl : chunk = [] := List.eq_nil_of_length_eq_zero (Nat.le_zero.mp hchunk.1)
      simpa using htrace.readNone hrequest
    · cases chunk with
      | nil => simpa [hcount] using htrace.eof hrequest (Nat.pos_of_ne_zero hcount)
      | cons b bytes => simpa [hcount] using htrace.read hrequest (List.cons_ne_nil b bytes) hchunk.1
  | killed hphase hf hclosed =>
    have hout := Option.some.inj ((hw.writing hphase).stdout.symm.trans hf)
    exact absurd (hheld _ hout) hclosed
  | pipe hphase | output hphase | terminal hphase =>
    refine ⟨_, hset _, ?_⟩
    simp only [Process.Traced, hphase] at ht
    obtain ⟨image, put, bytes, himage, htrace, hrequest, hput⟩ := ht
    refine ⟨image, put, bytes, himage, htrace, hrequest, ?_⟩
    rw [hput, List.append_assoc, List.singleton_append]

/-- The flag of the end of the input is set by a read from an empty pipe without writers. -/
theorem Move.eof (hw : Wired s) (hgood : Succeeding s) (hp : s.child c = some p)
    (h : Move e s c p t) {p' : Process n σ} (hp' : t.child c = some p') (heof : p'.eof = true)
    {q : Pipe n} (hin : c.stdin = .readEnd q) :
    p.eof = true ∨ (s.pipe q = [] ∧ ∀ d, d.stdout = .writeEnd q → (s.status d).isSome) := by
  have hset {u : System n σ} {r : Process n σ} (hu : u.child = (s.set c r).child)
      (hp' : u.child c = some p') : r = p' := by
    rw [hu, child_set, if_pos rfl] at hp'
    exact Option.some.inj hp'
  cases h with
  | @read memory count f chunk hphase hrequest hf hchunk =>
    obtain rfl := Option.some.inj (hf.symm.trans ((hw.child c p hp).running hphase).stdin)
    rw [child_set, if_pos rfl] at hp'
    obtain rfl := Option.some.inj hp'
    by_cases hcount : count = 0
    · exact .inl (by simpa [hcount] using heof)
    · have hnil : chunk = [] := by simpa [hcount] using heof
      rw [hin] at hchunk
      obtain ⟨hempty, hclosed⟩ := hchunk.2.2 hnil (Nat.pos_of_ne_zero hcount)
      refine .inr ⟨hempty, fun d hout => ?_⟩
      exact Option.isSome_iff_exists.mpr
        (hw.ended_of_not_holds hgood hp (.inr rfl) hclosed (.inr hout))
  | pipe | output =>
    obtain rfl := hset rfl hp'
    exact .inl heof
  | _ =>
    obtain rfl := hset rfl hp'
    exact .inl heof

theorem Sound.move (hs : Sound e s) (hc : Computing e piece map reduce) (hw : Wired s)
    (hgood : Succeeding s) (hp : s.child c = some p) (h : Move e s c p t) : Sound e t := by
  have hwired := hw.child c p hp
  obtain ⟨-, p₁, hchild, -⟩ := hwired.move h
  obtain ⟨chunk, bytes, hmoves⟩ := h.moves hwired hp
  have hkeep {q : Pipe n} (hq : s.pipe q = [] ∧ ∀ d, d.stdout = .writeEnd q → (s.status d).isSome) :
      t.pipe q = [] ∧ ∀ d, d.stdout = .writeEnd q → (t.status d).isSome := by
    obtain ⟨hempty, hwriters⟩ := hq
    refine ⟨?_, fun d hout => ?_⟩
    · -- the child that makes the step is none of the writers, since these have ended
      have hout : c.stdout ≠ .writeEnd q := by
        intro hout
        obtain ⟨status, hstatus⟩ := Option.isSome_iff_exists.mp (hwriters c hout)
        obtain ⟨p', hp', hended⟩ := status_eq_some.mp hstatus
        obtain rfl := Option.some.inj (hp.symm.trans hp')
        exact h.not_ended status hended
      have hbalance := hmoves.pipe q
      rw [if_neg hout, hempty] at hbalance
      exact (List.append_eq_nil_iff.mp hbalance.symm).2
    · obtain ⟨status, hstatus⟩ := Option.isSome_iff_exists.mp (hwriters d hout)
      exact Option.isSome_iff_exists.mpr ⟨status, h.status hwired hp hstatus⟩
  refine ⟨fun d p' hp' => ?_, fun d p' q hp' heof hin => ?_⟩
  · by_cases hd : d = c
    · subst hd
      have hheld (q : Pipe n) (hout : d.stdout = .writeEnd q) : s.Holds (.readEnd q) :=
        hs.reader hc hw hgood hp h.not_ended hout
      obtain ⟨p₂, hp₂, htraced⟩ := (hs.traced d p hp).move hwired (hc.image d) hheld h
      obtain rfl := Option.some.inj (hp₂.symm.trans hp')
      exact htraced
    · rw [hchild, Function.update_of_ne hd] at hp'
      exact hs.traced d p' hp'
  · by_cases hd : d = c
    · subst hd
      rcases h.eof hw hgood hp hp' heof hin with hold | hnew
      · exact hkeep (hs.eof d p q hp hold hin)
      · exact hkeep hnew
    · rw [hchild, Function.update_of_ne hd] at hp'
      exact hkeep (hs.eof d p' q hp' heof hin)

theorem Sound.mainMove (hs : Sound e s) (hw : Wired s)
    (hplace : ∀ code, s.main.place ≠ .ended code) (h : MainMove e s t) : Sound e t := by
  have hfork (c : Child n) (fds : Table (File n)) (calls : List Startup) (place : Place)
      (hc : ¬ s.main.place.Forked c) : Sound e ((s.set c (forked fds calls)).go place) := by
    rw [← hw.forked fun code h => absurd h (hplace code)] at hc
    have hstatus (d : Child n) (hd : (s.status d).isSome) :
        (((s.set c (forked fds calls)).go place).status d).isSome := by
      have hne : d ≠ c := by
        rintro rfl
        rw [System.status, Option.not_isSome_iff_eq_none.mp hc] at hd
        cases hd
      simpa only [System.status, System.go, child_set, if_neg hne] using hd
    refine ⟨fun d p hp => ?_, fun d p q hp heof hin => ?_⟩
    · simp only [System.go, child_set] at hp
      split_ifs at hp with hd
      · obtain rfl := Option.some.inj hp
        exact ⟨rfl, rfl, rfl⟩
      · exact hs.traced d p hp
    · simp only [System.go, child_set] at hp
      split_ifs at hp with hd
      · obtain rfl := Option.some.inj hp
        cases heof
      · obtain ⟨hempty, hwriters⟩ := hs.eof d p q hp heof hin
        exact ⟨hempty, fun d hout => hstatus d (hwriters d hout)⟩
  have hsame {t : System n σ} (hchild : t.child = s.child) (hpipe : t.pipe = s.pipe) : Sound e t := by
    refine ⟨fun d p hp => hs.traced d p (hchild ▸ hp), fun d p q hp heof hin => ?_⟩
    rw [hpipe]
    simp only [System.status, hchild]
    exact hs.eof d p q (hchild ▸ hp) heof hin
  cases h with
  | splitter hi hat => exact hfork _ _ _ _ (by simp [hat, Place.Forked])
  | mapper hi hat => exact hfork _ _ _ _ (by simp [hat, Place.Forked])
  | reducer hi hat => exact hfork _ _ _ _ (by simp [hat, Place.Forked])
  | _ => exact hsame rfl rfl

/-! ## The run -/

/-- A parent that has failed once has ended, and stays so. -/
theorem succeeding_of_step {a : Event n} (hw : Wired s) (h : Step e s a t) (ht : Succeeding t) :
    Succeeding s := by
  intro code hcode
  rcases step_cases h with ⟨hplace, -⟩ | ⟨c, p, hp, hmove⟩
  · exact absurd hcode (hplace code)
  · obtain ⟨hmain, -⟩ := (hw.child c p hp).move hmove
    exact ht code (hmain ▸ hcode)

theorem run_sound {as : List (Event n)} (hclose : ClosesAdded e)
    (hc : Computing e piece map reduce) (h : Run (Step e) (start old) as s) (hgood : Succeeding s) :
    Sound e s := by
  have hinv : Wired s ∧ (Succeeding s → Sound e s) := by
    refine h.invariant (P := fun s => Wired s ∧ (Succeeding s → Sound e s))
      ⟨start_wired old, fun _ => ⟨nofun, nofun⟩⟩ ?_
    rintro t a u ⟨hw, hs⟩ hstep
    have hgood (hu : Succeeding u) : Succeeding t := succeeding_of_step hw hstep hu
    rcases step_cases hstep with ⟨hplace, hmove⟩ | ⟨c, p, hp, hmove⟩
    · exact ⟨hw.mainMove hclose hplace hmove, fun hu => (hs (hgood hu)).mainMove hw hplace hmove⟩
    · exact ⟨hw.move hp hmove, fun hu => (hs (hgood hu)).move hc hw (hgood hu) hp hmove⟩
  exact hinv.2 hgood

/-- A child that has ended has exited by itself, at the end of a trace. -/
theorem Sound.exited (hs : Sound e s) {status : Status} (h : s.status c = some status) {image : σ}
    (himage : e.image c = some image) :
    ∃ p memory code, s.child c = some p ∧ e.program.Trace image (s.got c) p.eof (s.put c) memory ∧
      e.program.request memory = .exit code := by
  obtain ⟨p, hp, hended⟩ := status_eq_some.mp h
  have ht := hs.traced c p hp
  simp only [Process.Traced, hended] at ht
  cases status with
  | exited code =>
    obtain ⟨image', memory, code, himage', htrace, hrequest⟩ := ht
    obtain rfl := Option.some.inj (himage.symm.trans himage')
    refine ⟨p, memory, code, hp, ?_, hrequest⟩
    rw [System.got, System.put, hp]
    exact htrace
  | signaled => exact ht.elim

/-- A child that has ended has read all that was written for it and has written its answer. -/
theorem Sound.answer (hs : Sound e s) {status : Status} (h : s.status c = some status) {image : σ}
    {f : List UInt8 → List UInt8} (himage : e.image c = some image)
    (hf : e.program.Computes image f) {q : Pipe n} (hin : c.stdin = .readEnd q) :
    s.put c = f (s.got c) ∧ s.pipe q = [] ∧ ∀ d, d.stdout = .writeEnd q → (s.status d).isSome := by
  obtain ⟨p, memory, code, hp, htrace, hrequest⟩ := hs.exited h himage
  obtain ⟨heof, hput⟩ := hf htrace hrequest
  exact ⟨hput, hs.eof c p q hp heof hin⟩

/-- If the parent comes to its end, the output file has the reducer's answer to an
interleaving of the mappers' answers to the pieces, over its old contents. -/
theorem run_output {as : List (Event n)} (hclose : ClosesAdded e)
    (hc : Computing e piece map reduce) (h : Run (Step e) (start old) as s)
    (hended : s.main.place = .ended 0) :
    ∃ w, Interleaving (fun i => map (piece i)) w ∧ s.output = overwrite old 0 (reduce w) := by
  have hgood : Succeeding s := by
    intro code hcode
    rw [hended] at hcode
    cases hcode
    rfl
  have hs := run_sound hclose hc h hgood
  have hf := run_flow hclose h
  have hr := run_reported hclose h
  simp only [Reported, hended] at hr
  obtain ⟨hreducer, hmappers, -⟩ := hr
  -- what the mappers have written
  have hmapper (i : Fin n) : s.put (.mapper i) = map (piece i) := by
    obtain ⟨status, hstatus⟩ := Option.isSome_iff_exists.mp (hmappers i)
    obtain ⟨image, himage, hmap⟩ := hc.mapper i
    obtain ⟨hput, hempty, hwriters⟩ := hs.answer hstatus himage hmap rfl
    obtain ⟨status', hstatus'⟩ := Option.isSome_iff_exists.mp (hwriters (.splitter i) rfl)
    obtain ⟨image', himage', hemits⟩ := hc.splitter i
    obtain ⟨p, memory, code, -, htrace, hrequest⟩ := hs.exited hstatus' himage'
    have hpiece := hf.mapperPipe i
    rw [hempty, List.append_nil, hemits htrace hrequest] at hpiece
    rw [hput, hpiece]
  obtain ⟨image, himage, hreduce⟩ := hc.reducer
  obtain ⟨hput, hempty, -⟩ := hs.answer hreducer himage hreduce rfl
  refine ⟨s.got .reducer, ?_, ?_⟩
  · have hmerged := hf.reducerPipe
    rw [hempty, List.append_nil] at hmerged
    exact hmerged.congr fun i => (hmapper i).symm
  · rw [hf.output, hput]

end Cs241.Mapreduce
