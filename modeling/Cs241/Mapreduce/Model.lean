import Mathlib.Data.Fintype.Sum
import Mathlib.Tactic.DeriveFintype
import Mathlib.Logic.Function.Basic
import Cs241.Foundation.Descriptors
import Cs241.Foundation.Processes

/-!
# The processes of `mapreduce/mapreduce.c`

The parent opens the output file and a pipe for each mapper and for the reducer,
forks the splitters, the mappers and the reducer, closes its descriptors and waits.
A child moves two of its descriptors to its standard input and output, closes the
rest and starts its program. All of them run at the same time; a fork copies the
descriptor table, and a pipe is at its end when nobody holds its write end.

The programs are outside the repository, and so is `utils.h`. They are parameters:
what a process asks for next, and which descriptors `descriptors_closeall` closes.
-/
namespace Cs241.Mapreduce

open Foundation

/-- The processes that the parent starts. -/
inductive Child (n : ℕ)
  | splitter (i : Fin n)
  | mapper (i : Fin n)
  | reducer
  deriving DecidableEq, Fintype

/-- `some i` is the input pipe of mapper `i`, `none` the one of the reducer. -/
abbrev Pipe (n : ℕ) := Option (Fin n)

inductive File (n : ℕ)
  | terminal
  | output
  | readEnd (pipe : Pipe n)
  | writeEnd (pipe : Pipe n)
  deriving DecidableEq

/-- What `waitpid` tells of a child. -/
inductive Status
  | exited (code : ℕ)
  | signaled
  deriving DecidableEq

/-- The calls of a child before `execlp`. -/
inductive Startup
  | dup2 (old new : ℕ)
  | close (fd : ℕ)

inductive Phase (σ : Type*)
  | starting (calls : List Startup)
  | running (memory : σ)
  /-- Inside a `write` that has yet to take `rest`. -/
  | writing (memory : σ) (rest : List UInt8)
  | ended (status : Status)

/-- A child. The last three fields are its history: what it has read from its standard
input, what it has written to its standard output, and whether the last read that
asked for bytes came to the end of the input. -/
structure Process (n : ℕ) (σ : Type*) where
  fds : Table (File n)
  phase : Phase σ
  got : List UInt8
  put : List UInt8
  eof : Bool

/-- Where the parent stands in `main`. -/
inductive Place
  | opening
  /-- Before the pipe of mapper `i`, or the reducer's when `i` is the number of mappers. -/
  | piping (i : ℕ)
  | splitting (i : ℕ)
  /-- Before the fork of mapper `i`, or the reducer's when `i` is the number of mappers. -/
  | mapping (i : ℕ)
  | closing (fds : List ℕ)
  | waitReducer
  | waitMapper (i : ℕ)
  | ended (code : ℕ)
  deriving DecidableEq

structure Main (n : ℕ) where
  place : Place
  fds : Table (File n)
  /-- The descriptors added so far. -/
  descriptors : List ℕ
  outputFd : ℕ
  /-- `mapper_pipes` at `some i`, `reducer_pipe` at `none`. -/
  pipes : Pipe n → ℕ × ℕ
  reducerStatus : Status
  printed : List String

structure System (n : ℕ) (σ : Type*) where
  main : Main n
  child : Child n → Option (Process n σ)
  /-- The bytes in each pipe. -/
  pipe : Pipe n → List UInt8
  /-- The output file and the offset of its one open file description. -/
  output : List UInt8
  offset : ℕ

/-- What the run does not choose: the programs, and the functions of `utils.h`. -/
structure Setting (n : ℕ) (σ : Type*) where
  program : Program σ
  /-- The memory with which `execlp` starts the child, or `none` if it fails. -/
  image : Child n → Option σ
  capacity : ℕ
  /-- What `descriptors_closeall` closes, of the descriptors that were added. -/
  closeall : List ℕ → List ℕ
  /-- What `print_num_lines` prints for a file. -/
  numLines : List UInt8 → String
  mapperExecutable : String
  reducerExecutable : String

variable {n : ℕ} {σ : Type*}

/-! ## The children -/

/-- Some process has the file open. -/
def System.Holds (s : System n σ) (f : File n) : Prop :=
  s.main.fds.Has f ∨ ∃ c, ∃ p ∈ s.child c, p.fds.Has f

instance (s : System n σ) (f : File n) : Decidable (s.Holds f) :=
  inferInstanceAs (Decidable (_ ∨ ∃ c, ∃ p ∈ s.child c, p.fds.Has f))

def System.set (s : System n σ) (c : Child n) (p : Process n σ) : System n σ :=
  { s with child := Function.update s.child c (some p) }

/-- A process ends: the kernel closes what it has open. -/
def Process.stop (p : Process n σ) (status : Status) : Process n σ :=
  { p with fds := [], phase := .ended status }

/-- A read of at most `count` bytes from the file can return `chunk`. -/
def System.Answers (s : System n σ) (f : File n) (count : ℕ) (chunk : List UInt8) : Prop :=
  chunk.length ≤ count ∧
    match f with
    | .terminal => True
    | .readEnd q =>
      chunk <+: s.pipe q ∧ (chunk = [] → 0 < count → s.pipe q = [] ∧ ¬ s.Holds (.writeEnd q))
    | _ => False

instance (s : System n σ) (f : File n) (count : ℕ) (chunk : List UInt8) :
    Decidable (s.Answers f count chunk) := by
  unfold System.Answers
  cases f <;> infer_instance

/-- Bytes that were read are no longer in the pipe. -/
def System.take (s : System n σ) (f : File n) (chunk : List UInt8) : System n σ :=
  match f with
  | .readEnd q => { s with pipe := Function.update s.pipe q ((s.pipe q).drop chunk.length) }
  | _ => s

/-- The file after a write at the offset. -/
def overwrite (file : List UInt8) (offset : ℕ) (bytes : List UInt8) : List UInt8 :=
  file.take offset ++ bytes ++ file.drop (offset + bytes.length)

/-- The child is in a `write` to the file of which the next byte is `b`. A pipe without
readers kills the writer, a full one makes it wait. -/
def writeByte (e : Setting n σ) (s : System n σ) (c : Child n) (p : Process n σ) (memory : σ)
    (b : UInt8) (rest : List UInt8) (f : File n) : Option (System n σ) :=
  let p' := { p with phase := .writing memory rest, put := p.put ++ [b] }
  match f with
  | .writeEnd q =>
    if ¬ s.Holds (.readEnd q) then some (s.set c (p.stop .signaled))
    else if (s.pipe q).length < e.capacity then
      some { s.set c p' with pipe := Function.update s.pipe q (s.pipe q ++ [b]) }
    else none
  | .output =>
    some { s.set c p' with output := overwrite s.output s.offset [b], offset := s.offset + 1 }
  | .terminal => some (s.set c p')
  | .readEnd _ => none

/-- The next step of a child, `chunk` being what a read returns; `none` if it has to wait. -/
def childStep (e : Setting n σ) (s : System n σ) (c : Child n) (chunk : List UInt8) :
    Option (System n σ) :=
  (s.child c).bind fun p =>
    match p.phase with
    | .starting (.dup2 old new :: calls) =>
      match p.fds.dup2 old new with
      | some fds => some (s.set c { p with fds := fds, phase := .starting calls })
      | none => some (s.set c (p.stop (.exited 2)))
    | .starting (.close fd :: calls) =>
      some (s.set c { p with fds := p.fds.close fd, phase := .starting calls })
    | .starting [] =>
      match e.image c with
      | some memory => some (s.set c { p with phase := .running memory })
      | none => some (s.set c (p.stop (.exited 1)))
    | .running memory =>
      match e.program.request memory with
      | .exit code => some (s.set c (p.stop (.exited (code % 256))))
      | .write bytes => some (s.set c { p with phase := .writing memory bytes })
      | .read count =>
        (p.fds.file 0).bind fun f =>
          if s.Answers f count chunk then
            some ((s.take f chunk).set c
              { p with phase := .running (e.program.afterRead memory chunk)
                       got := p.got ++ chunk
                       eof := if count = 0 then p.eof else chunk.isEmpty })
          else none
    | .writing memory [] => some (s.set c { p with phase := .running (e.program.afterWrite memory) })
    | .writing memory (b :: rest) => (p.fds.file 1).bind (writeByte e s c p memory b rest)
    | .ended _ => none

/-! ## The parent -/

/-- `end`: the parent closes everything and exits. -/
def System.«end» (s : System n σ) (code : ℕ) : System n σ :=
  { s with main := { s.main with fds := [], place := .ended code } }

def System.go (s : System n σ) (place : Place) : System n σ :=
  { s with main := { s.main with place := place } }

/-- `open` of the output file, and `descriptors_add` of its descriptor. -/
def Main.openOutput (m : Main n) : Main n :=
  { m with
    fds := m.fds.add .output
    descriptors := m.descriptors ++ [m.fds.lowest]
    outputFd := m.fds.lowest }

/-- `pipe2`, and `descriptors_add` of both ends. -/
def Main.pipe2 (m : Main n) (q : Pipe n) : Main n :=
  let fds := m.fds.add (.readEnd q)
  { m with
    fds := fds.add (.writeEnd q)
    descriptors := m.descriptors ++ [m.fds.lowest, fds.lowest]
    pipes := Function.update m.pipes q (m.fds.lowest, fds.lowest) }

/-- A child right after the fork: its table is a copy of the parent's. -/
def forked (fds : Table (File n)) (calls : List Startup) : Process n σ :=
  { fds := fds, phase := .starting calls, got := [], put := [], eof := false }

def execProcess (e : Setting n σ) (s : System n σ) (c : Child n) (newStdin newStdout : ℕ) :
    System n σ :=
  s.set c (forked s.main.fds
    (.dup2 newStdin 0 :: .dup2 newStdout 1 :: (e.closeall s.main.descriptors).map .close))

def execSplitter (e : Setting n σ) (s : System n σ) (i : Fin n) (newStdout : ℕ) : System n σ :=
  s.set (.splitter i) (forked s.main.fds
    (.dup2 newStdout 1 :: (e.closeall s.main.descriptors).map .close))

/-- `none` if `waitpid` has to wait; `some none` if there is no such child. -/
def System.waitpid (s : System n σ) (c : Child n) : Option (Option Status) :=
  match s.child c with
  | none => some none
  | some p =>
    match p.phase with
    | .ended status => some (some status)
    | _ => none

/-- The line about a subprocess, printed for nonzero exit codes. -/
def exitLine (executable : String) : Status → List String
  | .exited code =>
    if code ≠ 0 then [executable ++ " exited with status " ++ toString code ++ "\n"] else []
  | .signaled => []

/-- The next step of the parent; `fails` tells whether a call that can fail does so. -/
def mainStep (e : Setting n σ) (s : System n σ) (fails : Bool) : Option (System n σ) :=
  match s.main.place with
  | .opening =>
    if fails then some (s.end 1)
    else some ({ s with main := s.main.openOutput }.go (.piping 0))
  | .piping i =>
    if fails then some (s.end 1)
    else if h : i < n then some ({ s with main := s.main.pipe2 (some ⟨i, h⟩) }.go (.piping (i + 1)))
    else some ({ s with main := s.main.pipe2 none }.go (.splitting 0))
  | .splitting i =>
    if h : i < n then
      if fails then some (s.end 2)
      else some ((execSplitter e s ⟨i, h⟩ (s.main.pipes (some ⟨i, h⟩)).2).go (.splitting (i + 1)))
    else some (s.go (.mapping 0))
  | .mapping i =>
    if fails then some (s.end 2)
    else if h : i < n then
      some ((execProcess e s (.mapper ⟨i, h⟩) (s.main.pipes (some ⟨i, h⟩)).1
        (s.main.pipes none).2).go (.mapping (i + 1)))
    else
      some ((execProcess e s .reducer (s.main.pipes none).1 s.main.outputFd).go
        (.closing (e.closeall s.main.descriptors)))
  | .closing [] => some (s.go .waitReducer)
  | .closing (fd :: fds) =>
    some ({ s with main := { s.main with fds := s.main.fds.close fd } }.go (.closing fds))
  | .waitReducer =>
    (s.waitpid .reducer).map fun answer =>
      match answer with
      | none => s.end 3
      | some status => { s with main := { s.main with reducerStatus := status } }.go (.waitMapper 0)
  | .waitMapper i =>
    if h : i < n then
      (s.waitpid (.mapper ⟨i, h⟩)).map fun answer =>
        match answer with
        | none => s.end 3
        | some status =>
          { s with main := { s.main with
              printed := s.main.printed ++ exitLine e.mapperExecutable status } }.go
            (.waitMapper (i + 1))
    else
      some ({ s with main := { s.main with
          printed := s.main.printed ++ exitLine e.reducerExecutable s.main.reducerStatus ++
            [e.numLines s.output] } }.end 0)
  | .ended _ => none

/-! ## The system -/

inductive Event (n : ℕ)
  | main (fails : Bool)
  | child (c : Child n) (chunk : List UInt8)

def System.next (e : Setting n σ) (s : System n σ) : Event n → Option (System n σ)
  | .main fails => mainStep e s fails
  | .child c chunk => childStep e s c chunk

def Step (e : Setting n σ) (s : System n σ) (a : Event n) (t : System n σ) : Prop :=
  s.next e a = some t

/-- The parent starts with the standard descriptors; `old` is in the output file, if it exists. -/
def start (old : List UInt8) : System n σ where
  main :=
    { place := .opening, fds := [some .terminal, some .terminal, some .terminal], descriptors := []
      outputFd := 0, pipes := fun _ => (0, 0), reducerStatus := .exited 0, printed := [] }
  child := fun _ => none
  pipe := fun _ => []
  output := old
  offset := 0

end Cs241.Mapreduce
