import Mathlib.Order.Filter.Finite
import Mathlib.Data.Prod.Lex
import Mathlib.Order.WellFounded
import Cs241.Foundation.Settling
import Cs241.Mapreduce.Progress
import Cs241.Mapreduce.Flow

/-!
# Every run ends

With programs that end on every finite input no run goes on forever, whatever the
order of steps: the parent makes finitely many steps, after it the splitters, after
them the mappers, whose input has become finite, and at last the reducer.
-/
namespace Cs241.Mapreduce

open Foundation Filter

variable {n : ℕ} {σ : Type*} {e : Setting n σ} {s t : System n σ} {c d : Child n}
  {p : Process n σ}

/-! ## The parent -/

/-- How far the parent still has to go. -/
def Place.rank (n : ℕ) : Place → ℕ ×ₗ ℕ
  | .opening => toLex (7, 0)
  | .piping i => toLex (6, n + 1 - i)
  | .splitting i => toLex (5, n + 1 - i)
  | .mapping i => toLex (4, n + 1 - i)
  | .closing fds => toLex (3, fds.length)
  | .waitReducer => toLex (2, 0)
  | .waitMapper i => toLex (1, n + 1 - i)
  | .ended _ => toLex (0, 0)

theorem MainMove.rank_lt (hplace : ∀ code, s.main.place ≠ .ended code) (h : MainMove e s t) :
    t.main.place.rank n < s.main.place.rank n := by
  cases h with
  | fails =>
    show toLex (0, 0) < s.main.place.rank n
    cases hat : s.main.place with
    | ended code => exact absurd hat (hplace code)
    | _ => exact Prod.Lex.toLex_lt_toLex.mpr (.inl (by simp))
  | openOutput hat =>
    simp [hat, System.go, Place.rank, Prod.Lex.toLex_lt_toLex]
  | mapperPipe hi hat =>
    simp [hat, System.go, Place.rank, Prod.Lex.toLex_lt_toLex]
    omega
  | reducerPipe hi hat => simp [hat, System.go, Place.rank, Prod.Lex.toLex_lt_toLex]
  | splitter hi hat =>
    simp [hat, System.go, Place.rank, Prod.Lex.toLex_lt_toLex]
    omega
  | splitters hi hat => simp [hat, System.go, Place.rank, Prod.Lex.toLex_lt_toLex]
  | mapper hi hat =>
    simp [hat, System.go, Place.rank, Prod.Lex.toLex_lt_toLex]
    omega
  | reducer hi hat => simp [hat, System.go, Place.rank, Prod.Lex.toLex_lt_toLex]
  | close hat => simp [hat, System.go, Place.rank, Prod.Lex.toLex_lt_toLex]
  | closed hat => simp [hat, System.go, Place.rank, Prod.Lex.toLex_lt_toLex]
  | waitedReducer hat => simp [hat, System.go, Place.rank, Prod.Lex.toLex_lt_toLex]
  | waitedMapper hi hat =>
    simp [hat, System.go, Place.rank, Prod.Lex.toLex_lt_toLex]
    omega
  | finished hi hat => simp [hat, System.end, Place.rank, Prod.Lex.toLex_lt_toLex]

/-! ## A child -/

/-- The child reads from a pipe. -/
def Child.Limited (c : Child n) : Prop := c.stdin ≠ .terminal

/-- The number of bytes in the pipe from which the child reads. -/
def System.left (s : System n σ) : Child n → ℕ
  | .splitter _ => 0
  | .mapper i => (s.pipe (some i)).length
  | .reducer => (s.pipe none).length

/-- Where a child can be after a step, with the number of bytes left to be read. -/
inductive Below (program : Program σ) (image : Option σ) (limited : Prop) :
    Phase σ × ℕ → Phase σ × ℕ → Prop
  | call {call calls left} :
      Below program image limited (.starting calls, left) (.starting (call :: calls), left)
  | exec {memory left} : image = some memory →
      Below program image limited (.running memory, left) (.starting [], left)
  | stop {phase status left} : (∀ status, phase ≠ .ended status) →
      Below program image limited (.ended status, left) (phase, left)
  | read {memory count left left'} (bytes : List UInt8) : program.request memory = .read count →
      bytes.length ≤ count → (limited → left = left' + bytes.length) →
      Below program image limited (.running (program.afterRead memory bytes), left')
        (.running memory, left)
  | write {memory bytes left} : program.request memory = .write bytes →
      Below program image limited (.writing memory bytes, left) (.running memory, left)
  | byte {memory b rest left} :
      Below program image limited (.writing memory rest, left) (.writing memory (b :: rest), left)
  | wrote {memory left} :
      Below program image limited (.running (program.afterWrite memory), left)
        (.writing memory [], left)

section Below

variable {program : Program σ} {image : Option σ} {limited : Prop} {memory : σ} {left : ℕ}

theorem acc_ended (status : Status) : Acc (Below program image limited) (.ended status, left) := by
  constructor
  intro y hy
  cases hy with
  | stop hnot => exact absurd rfl (hnot status)

theorem acc_writing (rest : List UInt8)
    (h : Acc (Below program image limited) (.running (program.afterWrite memory), left)) :
    Acc (Below program image limited) (.writing memory rest, left) := by
  induction rest with
  | nil =>
    constructor
    intro y hy
    cases hy with
    | stop => exact acc_ended _
    | wrote => exact h
  | cons b rest ih =>
    constructor
    intro y hy
    cases hy with
    | stop => exact acc_ended _
    | byte => exact ih

theorem acc_running (h : Acc (program.Next limited) (memory, left)) :
    Acc (Below program image limited) (.running memory, left) := by
  generalize hx : (memory, left) = x at h
  induction h generalizing memory left with
  | intro x _ ih =>
    subst hx
    constructor
    intro y hy
    cases hy with
    | stop => exact acc_ended _
    | read bytes hrequest hlen hleft => exact ih _ (.read bytes hrequest hlen hleft) rfl
    | write hrequest => exact acc_writing _ (ih _ (.write hrequest) rfl)

theorem acc_starting (calls : List Startup)
    (h : ∀ memory, image = some memory → program.Ends memory limited) :
    Acc (Below program image limited) (.starting calls, left) := by
  induction calls with
  | nil =>
    constructor
    intro y hy
    cases hy with
    | stop => exact acc_ended _
    | exec himage => exact acc_running (h _ himage left)
  | cons call calls ih =>
    constructor
    intro y hy
    cases hy with
    | stop => exact acc_ended _
    | call => exact ih

end Below

/-- Every step of a child goes down. -/
theorem Move.below (hw : p.Wired c) (h : Move e s c p t) :
    ∃ p', t.child = Function.update s.child c (some p') ∧
      Below e.program (e.image c) c.Limited (p'.phase, t.left c) (p.phase, s.left c) := by
  have hleft {t : System n σ} (hpipe : t.pipe = s.pipe) : t.left c = s.left c := by
    cases c <;> simp [System.left, hpipe]
  have hstop {status : Status} (hnot : ∀ status, p.phase ≠ .ended status) :
      Below e.program (e.image c) c.Limited ((p.stop status).phase, s.left c) (p.phase, s.left c) :=
    .stop hnot
  cases h with
  | dup2 hphase | close hphase =>
    refine ⟨_, rfl, ?_⟩
    rw [hphase]
    exact .call
  | dup2Fails hphase => exact ⟨_, rfl, hstop (by simp [hphase])⟩
  | exec hphase himage =>
    refine ⟨_, rfl, ?_⟩
    rw [hphase]
    exact .exec himage
  | execFails hphase => exact ⟨_, rfl, hstop (by simp [hphase])⟩
  | exit hphase => exact ⟨_, rfl, hstop (by simp [hphase])⟩
  | write hphase hrequest =>
    refine ⟨_, rfl, ?_⟩
    rw [hphase]
    exact .write hrequest
  | wrote hphase =>
    refine ⟨_, rfl, ?_⟩
    rw [hphase]
    exact .wrote
  | @read memory count f chunk hphase hrequest hf hchunk =>
    refine ⟨_, by rw [System.set, take_child], ?_⟩
    obtain rfl := Option.some.inj (hf.symm.trans (hw.running hphase).stdin)
    rw [hphase]
    refine .read chunk hrequest hchunk.1 fun hlimited => ?_
    cases c with
    | splitter i => exact absurd rfl hlimited
    | mapper i =>
      obtain ⟨rest, hrest⟩ := hchunk.2.1
      simp [System.left, System.take, Child.stdin, System.set, ← hrest]
      omega
    | reducer =>
      obtain ⟨rest, hrest⟩ := hchunk.2.1
      simp [System.left, System.take, Child.stdin, System.set, ← hrest]
      omega
  | killed hphase => exact ⟨_, rfl, hstop (by simp [hphase])⟩
  | @pipe memory b rest q hphase hf =>
    -- no child writes into the pipe from which it reads
    have hout := Option.some.inj ((hw.writing hphase).stdout.symm.trans hf)
    refine ⟨_, rfl, ?_⟩
    rw [hphase]
    cases c <;> cases hout <;> exact .byte
  | output hphase =>
    refine ⟨_, rfl, ?_⟩
    rw [hphase]
    exact .byte
  | terminal hphase =>
    refine ⟨_, rfl, ?_⟩
    rw [hphase]
    exact .byte

/-! ## The system -/

/-- Where the child is, with the number of bytes left to be read. -/
def System.state (s : System n σ) (c : Child n) : Phase σ × ℕ :=
  ((s.child c).elim (.ended (.exited 0)) Process.phase, s.left c)

/-- Whatever is still to be read, every child makes finitely many steps. -/
def Bounded (e : Setting n σ) (s : System n σ) : Prop :=
  ∀ c left, Acc (Below e.program (e.image c) c.Limited) ((s.state c).1, left)

/-- A step is possible with any number of bytes left. -/
theorem Below.shift {program : Program σ} {image : Option σ} {limited : Prop} {phase phase' : Phase σ}
    {left left' : ℕ} (h : Below program image limited (phase', left') (phase, left)) (m : ℕ) :
    ∃ m', Below program image limited (phase', m) (phase, m') := by
  cases h with
  | call => exact ⟨m, .call⟩
  | exec himage => exact ⟨m, .exec himage⟩
  | stop hnot => exact ⟨m, .stop hnot⟩
  | read bytes hrequest hlen => exact ⟨m + bytes.length, .read bytes hrequest hlen fun _ => rfl⟩
  | write hrequest => exact ⟨m, .write hrequest⟩
  | byte => exact ⟨m, .byte⟩
  | wrote => exact ⟨m, .wrote⟩

theorem Bounded.move (hb : Bounded e s) (hw : p.Wired c) (hp : s.child c = some p)
    (h : Move e s c p t) : Bounded e t := by
  intro d left
  obtain ⟨p', hchild, hbelow⟩ := h.below hw
  by_cases hd : d = c
  · subst hd
    obtain ⟨left', hbelow⟩ := hbelow.shift left
    have hacc := hb d left'
    simp only [System.state, hp, hchild, Function.update_self, Option.elim_some] at hacc ⊢
    exact hacc.inv hbelow
  · have hacc := hb d left
    simp only [System.state, hchild, Function.update_of_ne hd] at hacc ⊢
    exact hacc

theorem Bounded.mainMove
    (hends : ∀ c memory, e.image c = some memory → e.program.Ends memory c.Limited)
    (hb : Bounded e s) (h : MainMove e s t) : Bounded e t := by
  have hfork (c : Child n) (fds : Table (File n)) (calls : List Startup) (place : Place) :
      Bounded e ((s.set c (forked fds calls)).go place) := by
    intro d left
    by_cases hd : d = c
    · subst hd
      simp only [System.state, System.go, child_set, if_true, Option.elim_some, forked]
      exact acc_starting calls (hends d)
    · have hacc := hb d left
      simpa only [System.state, System.go, child_set, if_neg hd] using hacc
  cases h with
  | splitter => exact hfork _ _ _ _
  | mapper => exact hfork _ _ _ _
  | reducer => exact hfork _ _ _ _
  | _ => exact hb

/-- A step of another child leaves where `c` is, unless it writes into the pipe of `c`. -/
theorem Move.state_eq (hw : p.Wired d) (hp : s.child d = some p) (h : Move e s d p t) (hne : c ≠ d)
    (hfeeds : ∀ q, c.stdin = .readEnd q → d.stdout ≠ .writeEnd q) : t.state c = s.state c := by
  obtain ⟨-, p', hchild, -⟩ := hw.move h
  obtain ⟨chunk, bytes, hmoves⟩ := h.moves hw hp
  have hpipe (q : Pipe n) (hq : c.stdin = .readEnd q) : t.pipe q = s.pipe q := by
    have hreads : d.stdin ≠ .readEnd q := by
      rintro hd
      cases c <;> cases d <;> cases hq <;> cases hd <;> exact hne rfl
    have hbalance := hmoves.pipe q
    rw [if_neg (hfeeds q hq), if_neg hreads, List.append_nil, List.nil_append] at hbalance
    exact hbalance.symm
  have hleft : t.left c = s.left c := by
    cases c with
    | splitter i => rfl
    | mapper i => simp only [System.left, hpipe _ rfl]
    | reducer => simp only [System.left, hpipe _ rfl]
  rw [System.state, System.state, hleft, hchild, Function.update_of_ne hne]

section Endless

variable {run : ℕ → System n σ} {acts : ℕ → Event n}

/-- The step at `k` is one of the parent. -/
def MainMoves (acts : ℕ → Event n) (k : ℕ) : Prop := ∃ fails, acts k = .main fails

/-- The step at `k` is one of `c`. -/
def ChildMoves (acts : ℕ → Event n) (c : Child n) (k : ℕ) : Prop := ∃ chunk, acts k = .child c chunk

theorem main_settles (hwired : ∀ k, Wired (run k))
    (hstep : ∀ k, Step e (run k) (acts k) (run (k + 1))) : ∀ᶠ k in atTop, ¬ MainMoves acts k := by
  have hwf : WellFounded fun x y : ℕ ×ₗ ℕ => x < y := wellFounded_lt
  refine eventually_not_moves (f := fun k => (run k).main.place.rank n) ?_ fun k => hwf.apply _
  refine Eventually.of_forall fun k => ⟨?_, fun hnot => ?_⟩
  · rintro ⟨fails, hact⟩
    have hk := hstep k
    rw [hact] at hk
    obtain ⟨hplace, hmove⟩ := mainStep_move hk
    exact hmove.rank_lt hplace
  · have hk := hstep k
    cases hact : acts k with
    | main fails => exact absurd ⟨fails, hact⟩ hnot
    | child c chunk =>
      rw [hact] at hk
      obtain ⟨p, hp, hmove⟩ := childStep_move hk
      rw [(((hwired k).child c p hp).move hmove).1]

/-- A child settles after the parent and the children that write into its pipe. -/
theorem child_settles (hwired : ∀ k, Wired (run k)) (hbounded : ∀ k, Bounded e (run k))
    (hstep : ∀ k, Step e (run k) (acts k) (run (k + 1))) (c : Child n)
    (hfeeders : ∀ d q, c.stdin = .readEnd q → d.stdout = .writeEnd q →
      ∀ᶠ k in atTop, ¬ ChildMoves acts d k) : ∀ᶠ k in atTop, ¬ ChildMoves acts c k := by
  have hothers : ∀ᶠ k in atTop, ∀ d, (∃ q, c.stdin = .readEnd q ∧ d.stdout = .writeEnd q) →
      ¬ ChildMoves acts d k := by
    rw [eventually_all]
    intro d
    by_cases hd : ∃ q, c.stdin = .readEnd q ∧ d.stdout = .writeEnd q
    · obtain ⟨q, hin, hout⟩ := hd
      exact (hfeeders d q hin hout).mono fun k hk _ => hk
    · exact Eventually.of_forall fun k h => absurd h hd
  refine eventually_not_moves (r := Below e.program (e.image c) c.Limited)
    (f := fun k => (run k).state c) ?_ fun k => hbounded k c _
  filter_upwards [main_settles hwired hstep, hothers] with k hmain hothers
  have hk := hstep k
  refine ⟨?_, fun hnot => ?_⟩
  · rintro ⟨chunk, hact⟩
    rw [hact] at hk
    obtain ⟨p, hp, hmove⟩ := childStep_move hk
    obtain ⟨p', hchild, hbelow⟩ := hmove.below ((hwired k).child c p hp)
    simpa only [System.state, hp, hchild, Function.update_self, Option.elim_some] using hbelow
  · cases hact : acts k with
    | main fails => exact absurd ⟨fails, hact⟩ hmain
    | child d chunk =>
      rw [hact] at hk
      obtain ⟨p, hp, hmove⟩ := childStep_move hk
      refine hmove.state_eq ((hwired k).child d p hp) hp ?_ fun q hin hout => ?_
      · rintro rfl
        exact hnot ⟨chunk, hact⟩
      · exact hothers d ⟨q, hin, hout⟩ ⟨chunk, hact⟩

/-- There is no endless run, in whatever order the processes take their steps. -/
theorem not_endless {old : List UInt8} (hclose : ClosesAdded e)
    (hends : ∀ c memory, e.image c = some memory → e.program.Ends memory c.Limited)
    (hstart : run 0 = start old) : ¬ ∀ k, Step e (run k) (acts k) (run (k + 1)) := by
  intro hstep
  have hinv (k : ℕ) : Wired (run k) ∧ Bounded e (run k) := by
    induction k with
    | zero =>
      rw [hstart]
      exact ⟨start_wired old, fun c left => acc_ended _⟩
    | succ k ih =>
      rcases step_cases (hstep k) with ⟨hplace, hmove⟩ | ⟨c, p, hp, hmove⟩
      · exact ⟨ih.1.mainMove hclose hplace hmove, ih.2.mainMove hends hmove⟩
      · exact ⟨ih.1.move hp hmove, ih.2.move (ih.1.child c p hp) hp hmove⟩
  have hsettles := child_settles (fun k => (hinv k).1) (fun k => (hinv k).2) hstep
  have hsplitter (i : Fin n) : ∀ᶠ k in atTop, ¬ ChildMoves acts (.splitter i) k :=
    hsettles _ fun d q hin => nomatch hin
  have hmapper (i : Fin n) : ∀ᶠ k in atTop, ¬ ChildMoves acts (.mapper i) k := by
    refine hsettles _ fun d q hin hout => ?_
    cases hin
    cases d with
    | splitter j => exact hsplitter j
    | mapper j => cases hout
    | reducer => cases hout
  have hreducer : ∀ᶠ k in atTop, ¬ ChildMoves acts .reducer k := by
    refine hsettles _ fun d q hin hout => ?_
    cases hin
    cases d with
    | splitter j => cases hout
    | mapper j => exact hmapper j
    | reducer => cases hout
  have hchildren : ∀ᶠ k in atTop, ∀ c, ¬ ChildMoves acts c k := by
    rw [eventually_all]
    rintro (i | i | _)
    · exact hsplitter i
    · exact hmapper i
    · exact hreducer
  obtain ⟨k, hmain, hchild⟩ := ((main_settles (fun k => (hinv k).1) hstep).and hchildren).exists
  cases hact : acts k with
  | main fails => exact hmain ⟨fails, hact⟩
  | child c chunk => exact hchild c ⟨chunk, hact⟩

end Endless

end Cs241.Mapreduce
