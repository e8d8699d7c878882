import Cs241.Foundation.Interleavings
import Cs241.Mapreduce.Wiring

/-!
# The bytes on their way

No byte is lost, made up or overtaken between two processes: what a splitter has
written is what its mapper has read and what is still in the pipe; the mappers share
the reducer's pipe, whose bytes are an interleaving of what each of them has written.
-/
namespace Cs241.Mapreduce

open Foundation

variable {n : ℕ} {σ : Type*} {e : Setting n σ} {s t : System n σ} {c d : Child n}
  {p : Process n σ} {old : List UInt8}

/-- What the child has read from its standard input. -/
def System.got (s : System n σ) (c : Child n) : List UInt8 := (s.child c).elim [] Process.got

/-- What the child has written to its standard output. -/
def System.put (s : System n σ) (c : Child n) : List UInt8 := (s.child c).elim [] Process.put

/-- The step of `c` moves `chunk` from its standard input to `c` and `bytes` from `c` to its
standard output. -/
structure Moves (s : System n σ) (c : Child n) (chunk bytes : List UInt8) (t : System n σ) :
    Prop where
  got : ∀ d, t.got d = if d = c then s.got c ++ chunk else s.got d
  put : ∀ d, t.put d = if d = c then s.put c ++ bytes else s.put d
  pipe : ∀ q, s.pipe q ++ (if c.stdout = .writeEnd q then bytes else []) =
    (if c.stdin = .readEnd q then chunk else []) ++ t.pipe q
  output : t.output = if c.stdout = .output then overwrite s.output s.offset bytes else s.output
  offset : t.offset = if c.stdout = .output then s.offset + bytes.length else s.offset

theorem got_set (p' : Process n σ) (d : Child n) :
    (s.set c p').got d = if d = c then p'.got else s.got d := by
  simp only [System.got, child_set]
  split_ifs <;> rfl

theorem put_set (p' : Process n σ) (d : Child n) :
    (s.set c p').put d = if d = c then p'.put else s.put d := by
  simp only [System.put, child_set]
  split_ifs <;> rfl

@[simp] theorem overwrite_nil (file : List UInt8) (offset : ℕ) : overwrite file offset [] = file := by
  simp [overwrite]

/-- A step that only changes where the child stands. -/
theorem Moves.quiet (hp : s.child c = some p) {p' : Process n σ} (hgot : p'.got = p.got)
    (hput : p'.put = p.put) : Moves s c [] [] (s.set c p') := by
  constructor
  · intro d
    rw [got_set, hgot, List.append_nil]
    simp [System.got, hp]
  · intro d
    rw [put_set, hput, List.append_nil]
    simp [System.put, hp]
  · simp [System.set]
  · simp [System.set]
  · simp [System.set]

/-- A step that appends to what the child has written. -/
theorem Moves.written (hp : s.child c = some p) {p' : Process n σ} {b : UInt8}
    (hchild : t.child = (s.set c p').child) (hgot : p'.got = p.got) (hput : p'.put = p.put ++ [b])
    (hpipe : ∀ q, t.pipe q = s.pipe q ++ if c.stdout = .writeEnd q then [b] else [])
    (houtput : t.output = if c.stdout = .output then overwrite s.output s.offset [b] else s.output)
    (hoffset : t.offset = if c.stdout = .output then s.offset + 1 else s.offset) :
    Moves s c [] [b] t := by
  refine ⟨fun d => ?_, fun d => ?_, fun q => ?_, houtput, hoffset⟩
  · rw [System.got, hchild, ← System.got, got_set, hgot, List.append_nil]
    simp [System.got, hp]
  · rw [System.put, hchild, ← System.put, put_set, hput]
    simp [System.put, hp]
  · rw [hpipe]
    simp

/-- A step that takes `chunk` off the standard input of the child. -/
theorem Moves.taken (hp : s.child c = some p) {p' : Process n σ} {count : ℕ} {chunk : List UInt8}
    (hgot : p'.got = p.got ++ chunk) (hput : p'.put = p.put)
    (hchunk : s.Answers c.stdin count chunk) :
    Moves s c chunk [] ((s.take c.stdin chunk).set c p') := by
  have hsame : (∀ d, (s.take c.stdin chunk).got d = s.got d) ∧
      ∀ d, (s.take c.stdin chunk).put d = s.put d := by
    simp only [System.got, System.put, take_child, implies_true, and_self]
  refine ⟨fun d => ?_, fun d => ?_, fun q => ?_, ?_, ?_⟩
  · rw [got_set, hgot, hsame.1]
    simp [System.got, hp]
  · rw [put_set, hput, hsame.2, List.append_nil]
    simp [System.put, hp]
  · rw [show ((s.take c.stdin chunk).set c p').pipe = (s.take c.stdin chunk).pipe from rfl]
    cases hstdin : c.stdin with
    | readEnd r =>
      rw [hstdin] at hchunk
      obtain ⟨rest, hrest⟩ := hchunk.2.1
      simp only [System.take, Function.update_apply, File.readEnd.injEq, ite_self, List.append_nil]
      by_cases hq : r = q
      · subst hq
        rw [if_pos rfl, if_pos rfl, ← hrest, List.drop_left]
      · rw [if_neg hq, if_neg (Ne.symm hq), List.nil_append]
    | _ => simp [System.take]
  · cases c <;> simp [Child.stdin, System.take, System.set]
  · cases c <;> simp [Child.stdin, System.take, System.set]

theorem Process.Wired.running {memory : σ} (hw : p.Wired c) (hphase : p.phase = .running memory) :
    Standard p.fds c.stdin c.stdout := by
  simpa only [Process.Wired, hphase] using hw

theorem Process.Wired.writing {memory : σ} {rest : List UInt8} (hw : p.Wired c)
    (hphase : p.phase = .writing memory rest) : Standard p.fds c.stdin c.stdout := by
  simpa only [Process.Wired, hphase] using hw

/-- Every step of a child moves bytes, maybe none. -/
theorem Move.moves (hw : p.Wired c) (hp : s.child c = some p) (h : Move e s c p t) :
    ∃ chunk bytes, Moves s c chunk bytes t := by
  cases h with
  | @read memory count f chunk hphase hrequest hf hchunk =>
    obtain rfl := Option.some.inj (hf.symm.trans (hw.running hphase).stdin)
    exact ⟨chunk, [], .taken hp rfl rfl hchunk⟩
  | @pipe memory b rest q hphase hf =>
    have hout := Option.some.inj ((hw.writing hphase).stdout.symm.trans hf)
    refine ⟨[], [b], .written hp rfl rfl rfl (fun r => ?_) (by simp [hout, System.set])
      (by simp [hout, System.set])⟩
    simp only [hout, File.writeEnd.injEq, Function.update_apply]
    by_cases hr : q = r
    · simp [hr]
    · simp [hr, Ne.symm hr]
  | @output memory b rest hphase hf =>
    have hout := Option.some.inj ((hw.writing hphase).stdout.symm.trans hf)
    exact ⟨[], [b], .written hp rfl rfl rfl (by simp [hout, System.set]) (by simp [hout])
      (by simp [hout])⟩
  | @terminal memory b rest hphase hf =>
    have hout := Option.some.inj ((hw.writing hphase).stdout.symm.trans hf)
    exact ⟨[], [b], .written hp rfl rfl rfl (by simp [hout, System.set])
      (by simp [hout, System.set]) (by simp [hout, System.set])⟩
  | _ => exact ⟨[], [], .quiet hp rfl rfl⟩

/-! ## What is conserved -/

structure Flow (old : List UInt8) (s : System n σ) : Prop where
  mapperPipe : ∀ i, s.put (.splitter i) = s.got (.mapper i) ++ s.pipe (some i)
  reducerPipe : Interleaving (fun i => s.put (.mapper i)) (s.got .reducer ++ s.pipe none)
  output : s.output = overwrite old 0 (s.put .reducer)
  offset : s.offset = (s.put .reducer).length

/-- Writing on at the offset. -/
theorem overwrite_append (file bytes more : List UInt8) :
    overwrite (overwrite file 0 bytes) bytes.length more = overwrite file 0 (bytes ++ more) := by
  simp [overwrite, List.drop_append, List.drop_drop]

theorem Flow.moves {chunk bytes : List UInt8} (hf : Flow old s) (h : Moves s c chunk bytes t) :
    Flow old t := by
  obtain ⟨hgot, hput, hpipe, houtput, hoffset⟩ := h
  cases c with
  | splitter k =>
    -- only the input pipe of mapper `k` gets longer
    simp only [Child.stdout, Child.stdin, File.writeEnd.injEq, reduceCtorEq, if_false,
      List.nil_append] at hpipe houtput hoffset
    refine ⟨fun i => ?_, ?_, ?_, ?_⟩
    · rw [hgot, if_neg (by simp), hput, ← hpipe, ← List.append_assoc, ← hf.mapperPipe i]
      by_cases hi : k = i
      · simp [hi]
      · simp [hi, Ne.symm hi]
    · rw [hgot, if_neg (by simp), ← hpipe, if_neg (by simp), List.append_nil]
      exact hf.reducerPipe.congr fun i => by rw [hput, if_neg (by simp)]
    · rw [houtput, hf.output, hput, if_neg (by simp)]
    · rw [hoffset, hf.offset, hput, if_neg (by simp)]
  | mapper k =>
    -- the input pipe of mapper `k` gets shorter, the reducer's gets longer
    simp only [Child.stdout, Child.stdin, File.writeEnd.injEq, File.readEnd.injEq, reduceCtorEq,
      if_false] at hpipe houtput hoffset
    refine ⟨fun i => ?_, ?_, ?_, ?_⟩
    · have hq := hpipe (some i)
      rw [if_neg (by simp), List.append_nil] at hq
      rw [hput, if_neg (by simp), hf.mapperPipe, hgot, hq]
      by_cases hi : k = i
      · simp [hi]
      · simp [hi, Ne.symm hi]
    · have hq := hpipe none
      rw [if_pos rfl, if_neg (by simp), List.nil_append] at hq
      rw [hgot, if_neg (by simp), ← hq, ← List.append_assoc]
      refine hf.reducerPipe.append (i := k) ?_ fun j hj => ?_
      · rw [hput, if_pos rfl]
      · rw [hput, if_neg (by simpa using hj)]
    · rw [houtput, hf.output, hput, if_neg (by simp)]
    · rw [hoffset, hf.offset, hput, if_neg (by simp)]
  | reducer =>
    simp only [Child.stdout, Child.stdin, File.readEnd.injEq, reduceCtorEq, if_false, if_true,
      List.append_nil] at hpipe houtput hoffset
    refine ⟨fun i => ?_, ?_, ?_, ?_⟩
    · have hq := hpipe (some i)
      rw [if_neg (by simp), List.nil_append] at hq
      rw [hput, if_neg (by simp), hgot, if_neg (by simp), hf.mapperPipe, hq]
    · have hq := hpipe none
      rw [if_pos rfl] at hq
      rw [hgot, if_pos rfl, List.append_assoc, ← hq]
      exact hf.reducerPipe.congr fun i => by rw [hput, if_neg (by simp)]
    · rw [houtput, hf.output, hf.offset, overwrite_append, hput, if_pos rfl]
    · rw [hoffset, hf.offset, hput, if_pos rfl, List.length_append]

/-- The parent moves no bytes. -/
theorem MainMove.moves (hw : Wired s) (hplace : ∀ code, s.main.place ≠ .ended code)
    (h : MainMove e s t) :
    (∀ d, t.got d = s.got d) ∧ (∀ d, t.put d = s.put d) ∧ t.pipe = s.pipe ∧ t.output = s.output ∧
      t.offset = s.offset := by
  have hfork (c : Child n) {fds : Table (File n)} {calls : List Startup}
      (hc : ¬ s.main.place.Forked c) :
      (∀ d, (s.set c (forked fds calls)).got d = s.got d) ∧
        ∀ d, (s.set c (forked fds calls)).put d = s.put d := by
    rw [← hw.forked fun code h => absurd h (hplace code)] at hc
    have hc : s.child c = none := by simpa using hc
    constructor <;> intro d
    · rw [got_set]
      split_ifs with hd <;> simp [forked, hd, System.got, hc]
    · rw [put_set]
      split_ifs with hd <;> simp [forked, hd, System.put, hc]
  cases h with
  | @splitter i hi hat =>
    obtain ⟨hgot, hput⟩ := hfork (.splitter ⟨i, hi⟩) (by simp [hat, Place.Forked])
    exact ⟨hgot, hput, rfl, rfl, rfl⟩
  | @mapper i hi hat =>
    obtain ⟨hgot, hput⟩ := hfork (.mapper ⟨i, hi⟩) (by simp [hat, Place.Forked])
    exact ⟨hgot, hput, rfl, rfl, rfl⟩
  | reducer hi hat =>
    obtain ⟨hgot, hput⟩ := hfork .reducer (by simp [hat, Place.Forked])
    exact ⟨hgot, hput, rfl, rfl, rfl⟩
  | _ => exact ⟨fun _ => rfl, fun _ => rfl, rfl, rfl, rfl⟩

theorem start_flow (old : List UInt8) : Flow old (start old : System n σ) := by
  refine ⟨fun _ => rfl, .nil fun _ => rfl, ?_, rfl⟩
  simp [start, System.put]

/-- After any run the pipes hold exactly what was written and not yet read, and the output
file is what the reducer has written over the old contents. -/
theorem run_flow {as : List (Event n)} (hclose : ClosesAdded e) (h : Run (Step e) (start old) as s) :
    Flow old s := by
  have hinv : Wired s ∧ Flow old s := by
    refine h.invariant (P := fun s => Wired s ∧ Flow old s) ⟨start_wired old, start_flow old⟩ ?_
    rintro t a u ⟨hw, hf⟩ hstep
    rcases step_cases hstep with ⟨hplace, hmove⟩ | ⟨c, p, hp, hmove⟩
    · obtain ⟨hgot, hput, hpipe, houtput, hoffset⟩ := hmove.moves hw hplace
      refine ⟨hw.mainMove hclose hplace hmove, fun i => ?_, ?_, ?_, ?_⟩
      · rw [hput, hgot, hpipe, hf.mapperPipe]
      · rw [hgot, hpipe]
        exact hf.reducerPipe.congr fun i => hput _
      · rw [houtput, hput, hf.output]
      · rw [hoffset, hput, hf.offset]
    · obtain ⟨chunk, bytes, hmoves⟩ := hmove.moves (hw.child c p hp) hp
      exact ⟨hw.move hp hmove, hf.moves hmoves⟩
  exact hinv.2

end Cs241.Mapreduce
