import Cs241.Mapreduce.Model
import Cs241.Foundation.Runs

/-!
# What a step does

One case for each way in which a child or the parent can go on, with all that is
known there. Every invariant is proved from these cases.
-/
namespace Cs241.Mapreduce

open Foundation

variable {n : ℕ} {σ : Type*} {e : Setting n σ} {s t : System n σ} {c : Child n}

/-- The steps of the child `c`, which is `p`. -/
inductive Move (e : Setting n σ) (s : System n σ) (c : Child n) (p : Process n σ) :
    System n σ → Prop
  | dup2 {old new calls fds} : p.phase = .starting (.dup2 old new :: calls) →
      p.fds.dup2 old new = some fds →
      Move e s c p (s.set c { p with fds := fds, phase := .starting calls })
  | dup2Fails {old new calls} : p.phase = .starting (.dup2 old new :: calls) →
      p.fds.dup2 old new = none → Move e s c p (s.set c (p.stop (.exited 2)))
  | close {fd calls} : p.phase = .starting (.close fd :: calls) →
      Move e s c p (s.set c { p with fds := p.fds.close fd, phase := .starting calls })
  | exec {memory} : p.phase = .starting [] → e.image c = some memory →
      Move e s c p (s.set c { p with phase := .running memory })
  | execFails : p.phase = .starting [] → e.image c = none →
      Move e s c p (s.set c (p.stop (.exited 1)))
  | exit {memory code} : p.phase = .running memory → e.program.request memory = .exit code →
      Move e s c p (s.set c (p.stop (.exited (code % 256))))
  | write {memory bytes} : p.phase = .running memory → e.program.request memory = .write bytes →
      Move e s c p (s.set c { p with phase := .writing memory bytes })
  | wrote {memory} : p.phase = .writing memory [] →
      Move e s c p (s.set c { p with phase := .running (e.program.afterWrite memory) })
  | read {memory count f chunk} : p.phase = .running memory →
      e.program.request memory = .read count → p.fds.file 0 = some f → s.Answers f count chunk →
      Move e s c p ((s.take f chunk).set c
        { p with phase := .running (e.program.afterRead memory chunk)
                 got := p.got ++ chunk
                 eof := if count = 0 then p.eof else chunk.isEmpty })
  | killed {memory b rest q} : p.phase = .writing memory (b :: rest) →
      p.fds.file 1 = some (.writeEnd q) → ¬ s.Holds (.readEnd q) →
      Move e s c p (s.set c (p.stop .signaled))
  | pipe {memory b rest q} : p.phase = .writing memory (b :: rest) →
      p.fds.file 1 = some (.writeEnd q) → (s.pipe q).length < e.capacity →
      Move e s c p { s.set c { p with phase := .writing memory rest, put := p.put ++ [b] } with
        pipe := Function.update s.pipe q (s.pipe q ++ [b]) }
  | output {memory b rest} : p.phase = .writing memory (b :: rest) →
      p.fds.file 1 = some .output →
      Move e s c p { s.set c { p with phase := .writing memory rest, put := p.put ++ [b] } with
        output := overwrite s.output s.offset [b], offset := s.offset + 1 }
  | terminal {memory b rest} : p.phase = .writing memory (b :: rest) →
      p.fds.file 1 = some .terminal →
      Move e s c p (s.set c { p with phase := .writing memory rest, put := p.put ++ [b] })

theorem writeByte_move {p : Process n σ} {memory : σ} {b : UInt8} {rest : List UInt8} {f : File n}
    (hphase : p.phase = .writing memory (b :: rest)) (hf : p.fds.file 1 = some f)
    (h : writeByte e s c p memory b rest f = some t) : Move e s c p t := by
  cases f with
  | terminal =>
    obtain rfl := Option.some.inj h
    exact .terminal hphase hf
  | output =>
    obtain rfl := Option.some.inj h
    exact .output hphase hf
  | readEnd q => cases h
  | writeEnd q =>
    simp only [writeByte] at h
    split_ifs at h with hheld hroom
    · obtain rfl := Option.some.inj h
      exact .pipe hphase hf hroom
    · obtain rfl := Option.some.inj h
      exact .killed hphase hf hheld

theorem childStep_move {chunk : List UInt8} (h : childStep e s c chunk = some t) :
    ∃ p, s.child c = some p ∧ Move e s c p t := by
  obtain ⟨p, hp, h⟩ := Option.bind_eq_some_iff.mp h
  refine ⟨p, hp, ?_⟩
  split at h
  · case h_1 old new calls hphase =>
    split at h <;> obtain rfl := Option.some.inj h
    · exact .dup2 hphase ‹_›
    · exact .dup2Fails hphase ‹_›
  · case h_2 hphase =>
    obtain rfl := Option.some.inj h
    exact .close hphase
  · case h_3 hphase =>
    split at h <;> obtain rfl := Option.some.inj h
    · exact .exec hphase ‹_›
    · exact .execFails hphase ‹_›
  · case h_4 memory hphase =>
    split at h
    · obtain rfl := Option.some.inj h
      exact .exit hphase ‹_›
    · obtain rfl := Option.some.inj h
      exact .write hphase ‹_›
    · case h_3 count hrequest =>
      obtain ⟨f, hf, h⟩ := Option.bind_eq_some_iff.mp h
      by_cases hchunk : s.Answers f count chunk
      · rw [if_pos hchunk] at h
        obtain rfl := Option.some.inj h
        exact .read hphase hrequest hf hchunk
      · rw [if_neg hchunk] at h
        cases h
  · case h_5 hphase =>
    obtain rfl := Option.some.inj h
    exact .wrote hphase
  · case h_6 hphase =>
    obtain ⟨f, hf, h⟩ := Option.bind_eq_some_iff.mp h
    exact writeByte_move hphase hf h
  · cases h

/-- The steps of the parent. -/
inductive MainMove (e : Setting n σ) (s : System n σ) : System n σ → Prop
  | fails {code} : code ≠ 0 → MainMove e s (s.end code)
  | openOutput : s.main.place = .opening →
      MainMove e s ({ s with main := s.main.openOutput }.go (.piping 0))
  | mapperPipe {i} (h : i < n) : s.main.place = .piping i →
      MainMove e s ({ s with main := s.main.pipe2 (some ⟨i, h⟩) }.go (.piping (i + 1)))
  | reducerPipe {i} : ¬ i < n → s.main.place = .piping i →
      MainMove e s ({ s with main := s.main.pipe2 none }.go (.splitting 0))
  | splitter {i} (h : i < n) : s.main.place = .splitting i →
      MainMove e s ((execSplitter e s ⟨i, h⟩ (s.main.pipes (some ⟨i, h⟩)).2).go
        (.splitting (i + 1)))
  | splitters {i} : ¬ i < n → s.main.place = .splitting i → MainMove e s (s.go (.mapping 0))
  | mapper {i} (h : i < n) : s.main.place = .mapping i →
      MainMove e s ((execProcess e s (.mapper ⟨i, h⟩) (s.main.pipes (some ⟨i, h⟩)).1
        (s.main.pipes none).2).go (.mapping (i + 1)))
  | reducer {i} : ¬ i < n → s.main.place = .mapping i →
      MainMove e s ((execProcess e s .reducer (s.main.pipes none).1 s.main.outputFd).go
        (.closing (e.closeall s.main.descriptors)))
  | close {fd fds} : s.main.place = .closing (fd :: fds) →
      MainMove e s ({ s with main := { s.main with fds := s.main.fds.close fd } }.go
        (.closing fds))
  | closed : s.main.place = .closing [] → MainMove e s (s.go .waitReducer)
  | waitedReducer {status} : s.main.place = .waitReducer →
      s.waitpid .reducer = some (some status) →
      MainMove e s ({ s with main := { s.main with reducerStatus := status } }.go (.waitMapper 0))
  | waitedMapper {i status} (h : i < n) : s.main.place = .waitMapper i →
      s.waitpid (.mapper ⟨i, h⟩) = some (some status) →
      MainMove e s ({ s with main := { s.main with
        printed := s.main.printed ++ exitLine e.mapperExecutable status } }.go (.waitMapper (i + 1)))
  | finished {i} : ¬ i < n → s.main.place = .waitMapper i →
      MainMove e s ({ s with main := { s.main with
        printed := s.main.printed ++ exitLine e.reducerExecutable s.main.reducerStatus ++
          [e.numLines s.output] } }.end 0)

theorem mainStep_move {fails : Bool} (h : mainStep e s fails = some t) :
    (∀ code, s.main.place ≠ .ended code) ∧ MainMove e s t := by
  unfold mainStep at h
  split at h
  · case h_1 hplace =>
    refine ⟨by simp [hplace], ?_⟩
    split_ifs at h <;> obtain rfl := Option.some.inj h
    · exact .fails (by decide)
    · exact .openOutput hplace
  · case h_2 i hplace =>
    refine ⟨by simp [hplace], ?_⟩
    split_ifs at h with _ hi <;> obtain rfl := Option.some.inj h
    · exact .fails (by decide)
    · exact .mapperPipe hi hplace
    · exact .reducerPipe hi hplace
  · case h_3 i hplace =>
    refine ⟨by simp [hplace], ?_⟩
    split_ifs at h with hi _ <;> obtain rfl := Option.some.inj h
    · exact .fails (by decide)
    · exact .splitter hi hplace
    · exact .splitters hi hplace
  · case h_4 i hplace =>
    refine ⟨by simp [hplace], ?_⟩
    split_ifs at h with _ hi <;> obtain rfl := Option.some.inj h
    · exact .fails (by decide)
    · exact .mapper hi hplace
    · exact .reducer hi hplace
  · case h_5 hplace =>
    obtain rfl := Option.some.inj h
    exact ⟨by simp [hplace], .closed hplace⟩
  · case h_6 hplace =>
    obtain rfl := Option.some.inj h
    exact ⟨by simp [hplace], .close hplace⟩
  · case h_7 hplace =>
    refine ⟨by simp [hplace], ?_⟩
    obtain ⟨answer, hanswer, rfl⟩ := Option.map_eq_some_iff.mp h
    cases answer with
    | none => exact .fails (by decide)
    | some status => exact .waitedReducer hplace hanswer
  · case h_8 i hplace =>
    refine ⟨by simp [hplace], ?_⟩
    split_ifs at h with hi
    · obtain ⟨answer, hanswer, rfl⟩ := Option.map_eq_some_iff.mp h
      cases answer with
      | none => exact .fails (by decide)
      | some status => exact .waitedMapper hi hplace hanswer
    · obtain rfl := Option.some.inj h
      exact .finished hi hplace
  · cases h

/-- A step of the system is a step of the parent or of a child. -/
theorem step_cases {a : Event n} (h : Step e s a t) :
    ((∀ code, s.main.place ≠ .ended code) ∧ MainMove e s t) ∨
      ∃ c p, s.child c = some p ∧ Move e s c p t := by
  cases a with
  | main fails => exact .inl (mainStep_move h)
  | child c chunk => exact .inr ⟨c, childStep_move h⟩

end Cs241.Mapreduce
