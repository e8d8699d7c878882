import Mathlib.Data.List.Basic

/-!
# Programs that read and write

A program is known by the requests it makes: read from its standard input, write
to its standard output, exit. A trace is what a program does on its own, as far
as an observer of the two streams can tell: what it has read, whether its last read
came to the end of its input, and what it has written.
-/
namespace Cs241.Foundation

inductive Request
  /-- Read at most `count` bytes; an empty answer is the end of the input. -/
  | read (count : ℕ)
  | write (bytes : List UInt8)
  | exit (code : ℕ)

/-- The memory of a process, what it asks for next and how the answers change it. -/
structure Program (σ : Type*) where
  request : σ → Request
  afterRead : σ → List UInt8 → σ
  afterWrite : σ → σ

namespace Program

variable {σ : Type*} (p : Program σ) (start : σ)

/-- From `start` the program can come to a state where it has read `got`, was or was not
told of the end of its input last, and has written `put`. -/
inductive Trace : List UInt8 → Bool → List UInt8 → σ → Prop
  | start : Trace [] false [] start
  | read {got eof put s count bytes} : Trace got eof put s → p.request s = .read count →
      bytes ≠ [] → bytes.length ≤ count → Trace (got ++ bytes) false put (p.afterRead s bytes)
  | eof {got eof put s count} : Trace got eof put s → p.request s = .read count → 0 < count →
      Trace got true put (p.afterRead s [])
  | readNone {got eof put s} : Trace got eof put s → p.request s = .read 0 →
      Trace got eof put (p.afterRead s [])
  | write {got eof put s bytes} : Trace got eof put s → p.request s = .write bytes →
      Trace got eof (put ++ bytes) (p.afterWrite s)

/-- The program exits only at the end of its input, with `f` of it written. -/
def Computes (f : List UInt8 → List UInt8) : Prop :=
  ∀ {got eof put s code}, p.Trace start got eof put s → p.request s = .exit code →
    eof = true ∧ put = f got

/-- The program exits with `bytes` written, whatever it reads. -/
def Emits (bytes : List UInt8) : Prop :=
  ∀ {got eof put s code}, p.Trace start got eof put s → p.request s = .exit code → put = bytes

/-- The state after a request, with the number of bytes left to be read: these are counted
if the input is limited. -/
inductive Next (limited : Prop) : σ × ℕ → σ × ℕ → Prop
  | read {s count left left'} (bytes : List UInt8) : p.request s = .read count →
      bytes.length ≤ count → (limited → left = left' + bytes.length) →
      Next limited (p.afterRead s bytes, left') (s, left)
  | write {s bytes left} : p.request s = .write bytes → Next limited (p.afterWrite s, left) (s, left)

/-- From `start` the program makes finitely many requests: whatever it reads, or on every
finite input if the input is limited. -/
def Ends (limited : Prop) : Prop := ∀ left, Acc (p.Next limited) (start, left)

end Program

end Cs241.Foundation
