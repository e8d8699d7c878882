import Cs241.Mapreduce.Steps

/-!
# The descriptors of the processes

Whatever the order of steps, a program runs with its standard input and output at
the right files and with nothing else open but the standard error, and the parent
waits with its standard descriptors only. A child that has yet to start will come
to its table by the calls it still has to make: this is the invariant.
-/
namespace Cs241.Mapreduce

open Foundation

variable {n : ℕ} {σ : Type*} {e : Setting n σ} {s t : System n σ} {c d : Child n}
  {p : Process n σ}

/-- `descriptors_closeall` closes the descriptors that were added, and no others. -/
def ClosesAdded (e : Setting n σ) : Prop :=
  ∀ descriptors fd, fd ∈ e.closeall descriptors ↔ fd ∈ descriptors

def Child.stdin : Child n → File n
  | .splitter _ => .terminal
  | .mapper i => .readEnd (some i)
  | .reducer => .readEnd none

def Child.stdout : Child n → File n
  | .splitter i => .writeEnd (some i)
  | .mapper _ => .writeEnd none
  | .reducer => .output

/-- The table has the three standard descriptors and no others. -/
structure Standard (fds : Table (File n)) (newStdin newStdout : File n) : Prop where
  stdin : fds.file 0 = some newStdin
  stdout : fds.file 1 = some newStdout
  stderr : fds.file 2 = some .terminal
  others : ∀ fd, 3 ≤ fd → fds.file fd = none

/-- The table after the calls of a child before `execlp`. -/
def startup : List Startup → Table (File n) → Option (Table (File n))
  | [], fds => some fds
  | .dup2 old new :: calls, fds => (fds.dup2 old new).bind (startup calls)
  | .close fd :: calls, fds => startup calls (fds.close fd)

def Process.Wired (c : Child n) (p : Process n σ) : Prop :=
  match p.phase with
  | .starting calls => ∃ fds, startup calls p.fds = some fds ∧ Standard fds c.stdin c.stdout
  | .ended _ => p.fds = []
  | _ => Standard p.fds c.stdin c.stdout

/-- The table of the parent while it makes the pipes and forks: everything beyond the
standard descriptors has been added, and the pipes that `made` tells are there. -/
structure Prepared (m : Main n) (opened : Prop) (made : Pipe n → Prop) : Prop where
  standard : ∀ fd, fd < 3 → m.fds.file fd = some .terminal
  added : ∀ fd, 3 ≤ fd → m.fds.file fd ≠ none → fd ∈ m.descriptors
  above : ∀ fd ∈ m.descriptors, 3 ≤ fd
  output : opened → m.fds.file m.outputFd = some .output
  pipes : ∀ q, made q → m.fds.file (m.pipes q).1 = some (.readEnd q) ∧
    m.fds.file (m.pipes q).2 = some (.writeEnd q)

def Main.Wired (m : Main n) : Prop :=
  match m.place with
  | .opening => Prepared m False fun _ => False
  | .piping i => Prepared m True fun q => ∃ j, q = some j ∧ j < i
  | .splitting _ | .mapping _ => Prepared m True fun _ => True
  | .closing fds => Standard (m.fds.closeAll fds) .terminal .terminal
  | .waitReducer | .waitMapper _ => Standard m.fds .terminal .terminal
  | .ended _ => m.fds = []

/-- The child has been forked when the parent is at the place. -/
def Place.Forked : Place → Child n → Prop
  | .opening, _ | .piping _, _ => False
  | .splitting i, .splitter j => j < i
  | .splitting _, _ => False
  | .mapping _, .splitter _ => True
  | .mapping i, .mapper j => j < i
  | .mapping _, .reducer => False
  | _, _ => True

structure Wired (s : System n σ) : Prop where
  main : s.main.Wired
  child : ∀ c p, s.child c = some p → p.Wired c
  /-- Unless a call of the parent has failed. -/
  forked : (∀ code, s.main.place = .ended code → code = 0) →
    ∀ c, (s.child c).isSome ↔ s.main.place.Forked c

@[simp] theorem child_set (s : System n σ) (c d : Child n) (p : Process n σ) :
    (s.set c p).child d = if d = c then some p else s.child d := by
  simp [System.set, Function.update_apply]

@[simp] theorem take_main (s : System n σ) (f : File n) (chunk : List UInt8) :
    (s.take f chunk).main = s.main := by
  cases f <;> rfl

@[simp] theorem take_child (s : System n σ) (f : File n) (chunk : List UInt8) :
    (s.take f chunk).child = s.child := by
  cases f <;> rfl

/-! ## A child -/

theorem startup_closes (fds : List ℕ) (table : Table (File n)) :
    startup (fds.map .close) table = some (table.closeAll fds) := by
  induction fds generalizing table with
  | nil => rfl
  | cons fd fds ih => exact ih (table.close fd)

/-- A step of a child concerns its own entry only, and keeps it wired. -/
theorem Process.Wired.move (hw : p.Wired c) (h : Move e s c p t) :
    t.main = s.main ∧ ∃ p', t.child = Function.update s.child c (some p') ∧ p'.Wired c := by
  have hstop (status : Status) : (p.stop status).Wired c := by simp [Process.Wired, Process.stop]
  cases h with
  | @dup2 old new calls fds hphase hdup2 =>
    simp only [Process.Wired, hphase, startup, hdup2, Option.bind_some] at hw
    refine ⟨rfl, _, rfl, ?_⟩
    exact hw
  | dup2Fails => exact ⟨rfl, _, rfl, hstop _⟩
  | close hphase =>
    simp only [Process.Wired, hphase, startup] at hw
    refine ⟨rfl, _, rfl, ?_⟩
    exact hw
  | exec hphase =>
    simp only [Process.Wired, hphase, startup] at hw
    obtain ⟨fds, hfds, hstandard⟩ := hw
    obtain rfl := Option.some.inj hfds
    refine ⟨rfl, _, rfl, ?_⟩
    exact hstandard
  | execFails => exact ⟨rfl, _, rfl, hstop _⟩
  | exit => exact ⟨rfl, _, rfl, hstop _⟩
  | write hphase =>
    simp only [Process.Wired, hphase] at hw
    refine ⟨rfl, _, rfl, ?_⟩
    exact hw
  | wrote hphase =>
    simp only [Process.Wired, hphase] at hw
    refine ⟨rfl, _, rfl, ?_⟩
    exact hw
  | read hphase =>
    simp only [Process.Wired, hphase] at hw
    refine ⟨take_main _ _ _, _, by rw [System.set, take_child], ?_⟩
    exact hw
  | killed => exact ⟨rfl, _, rfl, hstop _⟩
  | pipe hphase =>
    simp only [Process.Wired, hphase] at hw
    refine ⟨rfl, _, rfl, ?_⟩
    exact hw
  | output hphase =>
    simp only [Process.Wired, hphase] at hw
    refine ⟨rfl, _, rfl, ?_⟩
    exact hw
  | terminal hphase =>
    simp only [Process.Wired, hphase] at hw
    refine ⟨rfl, _, rfl, ?_⟩
    exact hw

theorem Wired.move (hw : Wired s) (hp : s.child c = some p) (h : Move e s c p t) : Wired t := by
  obtain ⟨hmain, p', hchild, hp'⟩ := (hw.child c p hp).move h
  refine ⟨hmain ▸ hw.main, fun d q hq => ?_, fun hcode d => ?_⟩
  · rw [hchild, Function.update_apply] at hq
    split_ifs at hq with hd
    · obtain rfl := Option.some.inj hq
      exact hd ▸ hp'
    · exact hw.child d q hq
  · rw [hmain] at hcode ⊢
    rw [← hw.forked hcode d, hchild, Function.update_apply]
    split_ifs with hd
    · simp [hd, hp]
    · rfl

/-! ## The parent -/

namespace Prepared

variable {m : Main n} {opened : Prop} {made : Pipe n → Prop}

/-- The table does not depend on the place. -/
theorem go (h : Prepared m opened made) {made' : Pipe n → Prop} (place : Place)
    (hmade : ∀ q, made' q → made q) : Prepared { m with place := place } opened made' :=
  ⟨h.standard, h.added, h.above, h.output, fun q hq => h.pipes q (hmade q hq)⟩

/-- Files other than the terminal are behind descriptors that were added. -/
theorem three_le (h : Prepared m opened made) {fd : ℕ} {f : File n} (hfd : m.fds.file fd = some f)
    (hf : f ≠ .terminal) : 3 ≤ fd := by
  by_contra hlt
  rw [h.standard fd (by omega)] at hfd
  exact hf (Option.some.inj hfd).symm

/-- One more file, behind the lowest unused descriptor. -/
theorem added_file (h : Prepared m opened made) {f : File n} :
    (∀ fd g, m.fds.file fd = some g → (m.fds.add f).file fd = some g) ∧
      (m.fds.add f).file m.fds.lowest = some f ∧ 3 ≤ m.fds.lowest ∧
      ∀ fd, 3 ≤ fd → (m.fds.add f).file fd ≠ none → fd ∈ m.descriptors ++ [m.fds.lowest] := by
  have hfree := Table.file_lowest (t := m.fds)
  refine ⟨fun fd g hg => ?_, ?_, ?_, fun fd hfd hopen => ?_⟩
  · rw [Table.add, Table.file_put, if_neg ?_, hg]
    rintro rfl
    rw [hfree] at hg
    cases hg
  · rw [Table.add, Table.file_put, if_pos rfl]
  · by_contra hlt
    rw [h.standard _ (by omega)] at hfree
    cases hfree
  · rw [Table.add, Table.file_put] at hopen
    split_ifs at hopen with hlow
    · simp [hlow]
    · exact List.mem_append_left _ (h.added fd hfd hopen)

/-- Opening a file and adding its descriptor. -/
theorem add (h : Prepared m opened made) (f : File n) {opened' : Prop} {made' : Pipe n → Prop}
    {m' : Main n} (hfds : m'.fds = m.fds.add f)
    (hdescriptors : m'.descriptors = m.descriptors ++ [m.fds.lowest])
    (houtput : opened' → m'.fds.file m'.outputFd = some .output)
    (hpipes : ∀ q, made' q → m'.fds.file (m'.pipes q).1 = some (.readEnd q) ∧
      m'.fds.file (m'.pipes q).2 = some (.writeEnd q)) : Prepared m' opened' made' := by
  obtain ⟨hkept, -, hlowest, hadded⟩ := h.added_file (f := f)
  refine ⟨fun fd hfd => ?_, fun fd hfd hopen => ?_, fun fd hfd => ?_, houtput, hpipes⟩
  · rw [hfds]
    exact hkept fd _ (h.standard fd hfd)
  · rw [hfds] at hopen
    rw [hdescriptors]
    exact hadded fd hfd hopen
  · rw [hdescriptors] at hfd
    rcases List.mem_append.mp hfd with hfd | hfd
    · exact h.above fd hfd
    · rw [List.mem_singleton] at hfd
      omega

theorem openOutput (h : Prepared m opened made) : Prepared m.openOutput True made := by
  obtain ⟨hkept, hnew, -⟩ := h.added_file (f := .output)
  refine h.add .output rfl rfl (fun _ => hnew) fun q hq => ?_
  exact ⟨hkept _ _ (h.pipes q hq).1, hkept _ _ (h.pipes q hq).2⟩

theorem pipe2 (h : Prepared m True made) (q : Pipe n) :
    Prepared (m.pipe2 q) True fun r => made r ∨ r = q := by
  -- the table after the first of the two descriptors
  let half : Main n :=
    { m with fds := m.fds.add (.readEnd q), descriptors := m.descriptors ++ [m.fds.lowest] }
  obtain ⟨hkept, hread, -⟩ := h.added_file (f := .readEnd q)
  have hhalf : Prepared half True made :=
    h.add (.readEnd q) rfl rfl (fun _ => hkept _ _ (h.output trivial)) fun r hr =>
      ⟨hkept _ _ (h.pipes r hr).1, hkept _ _ (h.pipes r hr).2⟩
  obtain ⟨hkept', hwrite, -⟩ := hhalf.added_file (f := .writeEnd q)
  refine hhalf.add (.writeEnd q) rfl (by simp [half, Main.pipe2])
    (fun _ => hkept' _ _ (hhalf.output trivial)) fun r hr => ?_
  by_cases hrq : r = q
  · subst hrq
    simp only [Main.pipe2, Function.update_self]
    exact ⟨hkept' _ _ hread, hwrite⟩
  · simp only [Main.pipe2, Function.update_of_ne hrq]
    obtain ⟨hr₁, hr₂⟩ := hhalf.pipes r (hr.resolve_right hrq)
    exact ⟨hkept' _ _ hr₁, hkept' _ _ hr₂⟩

/-- Closing what was added leaves the first three descriptors. -/
theorem file_closeAll (h : Prepared m opened made) (hclose : ClosesAdded e) (fds : Table (File n))
    (hfds : ∀ fd, 3 ≤ fd → fds.file fd ≠ none → fd ∈ m.descriptors) (fd : ℕ) :
    (fds.closeAll (e.closeall m.descriptors)).file fd = if fd < 3 then fds.file fd else none := by
  rw [Table.file_closeAll]
  split_ifs with hmem hlt hlt
  · have := h.above fd ((hclose _ _).mp hmem)
    omega
  · rfl
  · rfl
  · by_contra hopen
    exact hmem ((hclose _ _).mpr (hfds fd (by omega) hopen))

theorem closeAll (h : Prepared m opened made) (hclose : ClosesAdded e) :
    Standard (m.fds.closeAll (e.closeall m.descriptors)) .terminal .terminal := by
  have hfile := h.file_closeAll hclose m.fds h.added
  constructor
  · rw [hfile, if_pos (by decide), h.standard 0 (by decide)]
  · rw [hfile, if_pos (by decide), h.standard 1 (by decide)]
  · rw [hfile, if_pos (by decide), h.standard 2 (by decide)]
  · intro fd hfd
    rw [hfile, if_neg (by omega)]

/-- `exec_splitter`: the calls of the child lead to the table of a splitter. -/
theorem execSplitter_wired (h : Prepared m opened made) (hclose : ClosesAdded e) {newStdout : ℕ}
    {i : Fin n} (hout : m.fds.file newStdout = some (.writeEnd (some i))) :
    (forked m.fds (.dup2 newStdout 1 :: (e.closeall m.descriptors).map .close) :
      Process n σ).Wired (.splitter i) := by
  refine ⟨(m.fds.put 1 (.writeEnd (some i))).closeAll (e.closeall m.descriptors), ?_, ?_⟩
  · simp only [forked, startup, Table.dup2, hout, Option.map_some, Option.bind_some]
    exact startup_closes _ _
  have hfile := h.file_closeAll hclose (m.fds.put 1 (.writeEnd (some i))) fun fd hfd hopen => by
    rw [Table.file_put, if_neg (by omega)] at hopen
    exact h.added fd hfd hopen
  constructor
  · rw [hfile, if_pos (by decide), Table.file_put, if_neg (by decide), h.standard 0 (by decide)]
    rfl
  · rw [hfile, if_pos (by decide), Table.file_put, if_pos rfl]
    rfl
  · rw [hfile, if_pos (by decide), Table.file_put, if_neg (by decide), h.standard 2 (by decide)]
  · intro fd hfd
    rw [hfile, if_neg (by omega)]

/-- `exec_process`: the second `dup2` still finds its file, since the first one takes the
place of the standard input. -/
theorem execProcess_wired (h : Prepared m opened made) (hclose : ClosesAdded e)
    {newStdin newStdout : ℕ} (hin : m.fds.file newStdin = some c.stdin)
    (hout : m.fds.file newStdout = some c.stdout) (hterminal : c.stdout ≠ .terminal) :
    (forked m.fds (.dup2 newStdin 0 :: .dup2 newStdout 1 ::
      (e.closeall m.descriptors).map .close) : Process n σ).Wired c := by
  have hge := h.three_le hout hterminal
  have hout' : (m.fds.put 0 c.stdin).file newStdout = some c.stdout := by
    rw [Table.file_put, if_neg (by omega), hout]
  let fds : Table (File n) := Table.put (m.fds.put 0 c.stdin) 1 c.stdout
  refine ⟨fds.closeAll (e.closeall m.descriptors), ?_, ?_⟩
  · simp only [forked, startup, Table.dup2, hin, hout', Option.map_some, Option.bind_some]
    exact startup_closes _ _
  have hfile := h.file_closeAll hclose fds fun fd hfd hopen => by
    rw [Table.file_put, if_neg (by omega), Table.file_put, if_neg (by omega)] at hopen
    exact h.added fd hfd hopen
  constructor
  · rw [hfile, if_pos (by decide), Table.file_put, if_neg (by decide), Table.file_put, if_pos rfl]
  · rw [hfile, if_pos (by decide), Table.file_put, if_pos rfl]
  · rw [hfile, if_pos (by decide), Table.file_put, if_neg (by decide), Table.file_put,
      if_neg (by decide), h.standard 2 (by decide)]
  · intro fd hfd
    rw [hfile, if_neg (by omega)]

end Prepared

/-- A step of the parent that forks nobody. -/
theorem Wired.same_children (hw : Wired s) (hmain : t.main.Wired) (hchild : t.child = s.child)
    (hforked : (∀ code, t.main.place = .ended code → code = 0) →
      (∀ code, s.main.place = .ended code → code = 0) ∧
        ∀ c : Child n, t.main.place.Forked c ↔ s.main.place.Forked c) : Wired t := by
  refine ⟨hmain, fun c p hp => hw.child c p (hchild ▸ hp), fun hcode c => ?_⟩
  obtain ⟨hold, hsame⟩ := hforked hcode
  rw [hchild, hw.forked hold, hsame]

/-- A step of the parent that forks the child `c`. -/
theorem Wired.fork (hw : Wired s) (hmain : t.main.Wired) (hp : p.Wired c)
    (hchild : t.child = Function.update s.child c (some p))
    (hold : ∀ code, s.main.place ≠ .ended code)
    (hforked : ∀ d, t.main.place.Forked d ↔ d = c ∨ s.main.place.Forked d) : Wired t := by
  refine ⟨hmain, fun d q hq => ?_, fun _ d => ?_⟩
  · rw [hchild, Function.update_apply] at hq
    split_ifs at hq with hd
    · obtain rfl := Option.some.inj hq
      exact hd ▸ hp
    · exact hw.child d q hq
  · rw [hforked, ← hw.forked fun code h => absurd h (hold code), hchild, Function.update_apply]
    split_ifs with hd <;> simp [hd]

theorem Wired.mainMove (hclose : ClosesAdded e) (hw : Wired s)
    (hplace : ∀ code, s.main.place ≠ .ended code) (h : MainMove e s t) : Wired t := by
  have hgoing : ∀ code, s.main.place = .ended code → code = 0 :=
    fun code h => absurd h (hplace code)
  have hmain := hw.main
  cases h with
  | @fails code hcode =>
    exact hw.same_children rfl rfl fun hzero => absurd (hzero code rfl) hcode
  | openOutput hat =>
    simp only [Main.Wired, hat] at hmain
    refine hw.same_children (hmain.openOutput.go _ ?_) rfl fun _ => ⟨hgoing, ?_⟩
    · rintro q ⟨j, -, hj⟩
      omega
    · simp [System.go, hat, Place.Forked]
  | @mapperPipe i hi hat =>
    simp only [Main.Wired, hat] at hmain
    refine hw.same_children ((hmain.pipe2 (some ⟨i, hi⟩)).go _ ?_) rfl fun _ => ⟨hgoing, ?_⟩
    · rintro q ⟨j, rfl, hj⟩
      by_cases hji : j.val = i
      · exact .inr (by simp [← hji])
      · exact .inl ⟨j, rfl, by omega⟩
    · simp [System.go, hat, Place.Forked]
  | @reducerPipe i hi hat =>
    simp only [Main.Wired, hat] at hmain
    refine hw.same_children ((hmain.pipe2 none).go _ ?_) rfl fun _ => ⟨hgoing, ?_⟩
    · rintro (_ | j) -
      · exact .inr rfl
      · exact .inl ⟨j, rfl, by omega⟩
    · rintro (j | j | _) <;> simp [System.go, hat, Place.Forked]
  | @splitter i hi hat =>
    simp only [Main.Wired, hat] at hmain
    refine hw.fork (hmain.go _ fun _ h => h)
      (hmain.execSplitter_wired hclose (hmain.pipes _ trivial).2) rfl hplace ?_
    rintro (j | j | _)
    · simp [System.go, hat, Place.Forked, Fin.ext_iff]
      omega
    · simp [System.go, hat, Place.Forked]
    · simp [System.go, hat, Place.Forked]
  | @splitters i hi hat =>
    simp only [Main.Wired, hat] at hmain
    refine hw.same_children (hmain.go _ fun _ h => h) rfl fun _ => ⟨hgoing, ?_⟩
    rintro (j | j | _)
    · simp [System.go, hat, Place.Forked]
      omega
    · simp [System.go, hat, Place.Forked]
    · simp [System.go, hat, Place.Forked]
  | @mapper i hi hat =>
    simp only [Main.Wired, hat] at hmain
    refine hw.fork (hmain.go _ fun _ h => h)
      (hmain.execProcess_wired hclose (hmain.pipes _ trivial).1 (hmain.pipes _ trivial).2 ?_)
      rfl hplace ?_
    · simp [Child.stdout]
    rintro (j | j | _)
    · simp [System.go, hat, Place.Forked]
    · simp [System.go, hat, Place.Forked, Fin.ext_iff]
      omega
    · simp [System.go, hat, Place.Forked]
  | @reducer i hi hat =>
    simp only [Main.Wired, hat] at hmain
    refine hw.fork (hmain.closeAll hclose)
      (hmain.execProcess_wired hclose (hmain.pipes _ trivial).1 (hmain.output trivial) ?_)
      rfl hplace ?_
    · simp [Child.stdout]
    rintro (j | j | _)
    · simp [System.go, hat, Place.Forked]
    · simp [System.go, hat, Place.Forked]
      omega
    · simp [System.go, hat, Place.Forked]
  | close hat =>
    simp only [Main.Wired, hat] at hmain
    refine hw.same_children hmain rfl fun _ => ⟨hgoing, ?_⟩
    simp [System.go, hat, Place.Forked]
  | closed hat =>
    simp only [Main.Wired, hat] at hmain
    refine hw.same_children hmain rfl fun _ => ⟨hgoing, ?_⟩
    simp [System.go, hat, Place.Forked]
  | waitedReducer hat =>
    simp only [Main.Wired, hat] at hmain
    refine hw.same_children hmain rfl fun _ => ⟨hgoing, ?_⟩
    simp [System.go, hat, Place.Forked]
  | waitedMapper _ hat =>
    simp only [Main.Wired, hat] at hmain
    refine hw.same_children hmain rfl fun _ => ⟨hgoing, ?_⟩
    simp [System.go, hat, Place.Forked]
  | finished _ hat =>
    refine hw.same_children rfl rfl fun _ => ⟨hgoing, ?_⟩
    simp [System.end, hat, Place.Forked]

theorem start_wired (old : List UInt8) : Wired (start old : System n σ) := by
  refine ⟨?_, nofun, fun _ c => by simp [start, Place.Forked]⟩
  refine ⟨fun fd hfd => ?_, fun fd hfd hopen => ?_, nofun, nofun, nofun⟩
  · match fd, hfd with
    | 0, _ | 1, _ | 2, _ => rfl
  · obtain ⟨k, rfl⟩ := Nat.exists_eq_add_of_le hfd
    simp [start, Table.file] at hopen

theorem run_wired {as : List (Event n)} {old : List UInt8} (hclose : ClosesAdded e)
    (h : Run (Step e) (start old) as s) : Wired s := by
  refine h.invariant (start_wired old) fun {t a u} hw hstep => ?_
  rcases step_cases hstep with ⟨hplace, hmove⟩ | ⟨c, p, hp, hmove⟩
  · exact hw.mainMove hclose hplace hmove
  · exact hw.move hp hmove

end Cs241.Mapreduce
