import Cs241.Cracker.Subranges
import Cs241.Foundation.Runs

/-!
# The solution that `cracker2.c` prints

When all threads are joined, `found` tells whether a candidate has the hash, and `solution` is then
the pointer to such a candidate. But the thread that found it has freed it before it returned.
-/
namespace Cs241.Cracker.Subranges

open Foundation

variable {u : Utils} {n : ℕ} {line : Line u n}

/-- The candidates for the unknown part of a password, in the order of `incrementString`. The
threads share them: each candidate is in the range of one thread. -/
structure Space (line : Line u n) where
  total : ℕ
  candidate : ℕ → CString
  prefix_le : line.prefixLength ≤ line.job.password.length
  setStringPosition : ∀ k < total,
    u.setStringPosition (line.job.password.drop line.prefixLength) k = candidate k
  incrementString : ∀ k, k + 1 < total → (u.incrementString (candidate k)).2 = candidate (k + 1)
  subrange_le : ∀ i, (line.subrange i).1 + (line.subrange i).2 ≤ total
  existsUnique_subrange : ∀ k < total, ∃! i,
    (line.subrange i).1 ≤ k ∧ k < (line.subrange i).1 + (line.subrange i).2

namespace Space

variable (space : Space line)

/-- The password with the known prefix and a candidate. -/
def password (k : ℕ) : CString := line.key line.job.password (space.candidate k)

def Hit (k : ℕ) : Prop := u.cryptR (space.password k) [120, 120] = line.job.hash

instance (k : ℕ) : Decidable (space.Hit k) := inferInstanceAs (Decidable (_ = _))

/-- The first candidates of a thread do not have the hash. -/
def Missed (i : Fin n) (count : ℕ) : Prop := ∀ k < count, ¬ space.Hit ((line.subrange i).1 + k)

/-- The string is the password with a candidate that has the hash. -/
def Solves (password : CString) : Prop :=
  ∃ k < space.total, space.Hit k ∧ password = space.password k

/-- What is true when the summary is printed, if the work for the user is right. -/
def Prints (s : State n) : Prop :=
  (s.found = true → ∃ i, s.solution = some i ∧ (s.threads i).allocated = true ∧
    u.cryptR (s.threads i).password [120, 120] = line.job.hash) ∧
  (s.found = false → ∀ k < space.total, ¬ space.Hit k)

end Space

/-- The thread does not write to its password any more. -/
def Point.Settled : Point → Prop
  | .announcing | .murk | .returned => True
  | .absent | .starting | .head _ | .crypt _ | .solving => False

variable {space : Space line} {s s' : State n} {i j : Fin n} {t t' : Thread} {found found' : Bool}
  {k : ℕ}

theorem take_password (space : Space line) (k : ℕ) :
    (space.password k).take line.prefixLength = line.job.password.take line.prefixLength :=
  List.take_left' (List.length_take_of_le space.prefix_le)

theorem drop_password (space : Space line) (k : ℕ) :
    (space.password k).drop line.prefixLength = space.candidate k :=
  List.drop_left' (List.length_take_of_le space.prefix_le)

/-- Incrementing the unknown part gives the next password. -/
theorem key_incrementString (space : Space line) (hk : k + 1 < space.total) :
    line.key (space.password k)
        (u.incrementString ((space.password k).drop line.prefixLength)).2 =
      space.password (k + 1) := by
  rw [drop_password, space.incrementString k hk, Line.key, take_password]
  rfl

theorem missed_succ (h : space.Missed i k) (hmiss : ¬ space.Hit ((line.subrange i).1 + k)) :
    space.Missed i (k + 1) := by
  intro l hl
  rcases Nat.lt_succ_iff_lt_or_eq.mp hl with hl | rfl
  · exact h l hl
  · exact hmiss

/-! ## The threads -/

/-- What a thread has done. -/
def Space.Working (space : Space line) (i : Fin n) (found : Bool) (t : Thread) : Prop :=
  match t.point with
  | .absent => True
  | .starting => t.password = line.job.password
  | .head k => k ≤ (line.subrange i).2 ∧ space.Missed i k ∧
      (k < (line.subrange i).2 → t.password = space.password ((line.subrange i).1 + k))
  | .crypt k => k < (line.subrange i).2 ∧ space.Missed i k ∧
      t.password = space.password ((line.subrange i).1 + k)
  | .solving | .announcing => space.Solves t.password
  | .murk => found = true ∨ space.Missed i (line.subrange i).2
  | .returned => (found = true ∨ space.Missed i (line.subrange i).2) ∧ t.allocated = false

theorem Space.Working.mono (h : space.Working i found t) (hfound : found = true → found' = true) :
    space.Working i found' t := by
  obtain ⟨point, password, allocated⟩ := t
  cases point with
  | murk => exact h.imp_left hfound
  | returned => exact ⟨h.1.imp_left hfound, h.2⟩
  | _ => exact h

/-- A step of a thread that does not set `found`, or does it before `murk`. -/
theorem Space.Working.next (h : space.Working i found t) (hstep : nextThread line i found t = some t') :
    space.Working i (if t.point = .announcing then true else found) t' := by
  obtain ⟨point, password, allocated⟩ := t
  have hle := space.subrange_le i
  cases point with
  | absent => cases hstep
  | starting =>
    obtain rfl := Option.some.inj hstep
    obtain rfl : password = line.job.password := h
    refine ⟨Nat.zero_le _, fun l hl => absurd hl (Nat.not_lt_zero l), fun hpos => ?_⟩
    rw [Nat.add_zero, Space.password, ← space.setStringPosition _ (by omega)]
  | head k =>
    obtain rfl := Option.some.inj hstep
    obtain ⟨hk, hmissed, hpassword⟩ := h
    by_cases hlt : k < (line.subrange i).2
    · cases found with
      | true => simp [Space.Working, hlt]
      | false => simpa [Space.Working, hlt] using ⟨hmissed, hpassword hlt⟩
    · obtain rfl : k = (line.subrange i).2 := by omega
      simpa [Space.Working] using Or.inr hmissed
  | crypt k =>
    obtain ⟨hk, hmissed, hpassword⟩ := h
    simp only at hpassword
    subst hpassword
    by_cases hhit : space.Hit ((line.subrange i).1 + k)
    · obtain rfl := Option.some.inj ((if_pos hhit).symm.trans hstep)
      exact ⟨_, by omega, hhit, rfl⟩
    · obtain rfl := Option.some.inj ((if_neg hhit).symm.trans hstep)
      exact ⟨hk, missed_succ hmissed hhit, fun hlt => key_incrementString space (by omega)⟩
  | solving =>
    obtain rfl := Option.some.inj hstep
    exact h
  | announcing =>
    obtain rfl := Option.some.inj hstep
    exact .inl rfl
  | murk =>
    obtain rfl := Option.some.inj hstep
    exact ⟨h, rfl⟩
  | returned => cases hstep

/-- A thread that is settled keeps its password. -/
theorem nextThread_settled (hstep : nextThread line i found t = some t')
    (hsettled : t.point.Settled) : t'.point.Settled ∧ t'.password = t.password := by
  obtain ⟨point, password, allocated⟩ := t
  cases point with
  | announcing | murk =>
    obtain rfl := Option.some.inj hstep
    exact ⟨trivial, rfl⟩
  | returned => cases hstep
  | absent | starting | head _ | crypt _ | solving => exact hsettled.elim

theorem nextThread_announcing (hstep : nextThread line i found t = some t')
    (hpoint : t'.point = .announcing) : t.point = .solving := by
  obtain ⟨point, password, allocated⟩ := t
  cases point with
  | solving => rfl
  | absent | returned => cases hstep
  | starting | announcing | murk =>
    obtain rfl := Option.some.inj hstep
    cases hpoint
  | head k =>
    obtain rfl := Option.some.inj hstep
    dsimp only at hpoint
    split_ifs at hpoint
  | crypt k =>
    simp only [nextThread] at hstep
    split_ifs at hstep
    all_goals
      obtain rfl := Option.some.inj hstep
      cases hpoint

theorem nextThread_solving (hstep : nextThread line i found t = some t')
    (hpoint : t.point = .solving) : t' = { t with point := .announcing } := by
  simp only [nextThread, hpoint] at hstep
  exact (Option.some.inj hstep).symm

theorem nextThread_running (hstep : nextThread line i found t = some t') :
    t.point ≠ .absent ∧ t.point ≠ .returned := by
  constructor <;>
  · intro hpoint
    simp [nextThread, hpoint] at hstep

/-! ## The steps -/

/-- How far the threads are, for the main thread. -/
def State.Waits (s : State n) : Prop :=
  match s.main with
  | .creating i => ∀ j : Fin n, i ≤ j → (s.threads j).point = .absent
  | .joining i => ∀ j : Fin n, j < i → (s.threads j).point = .returned
  | .summary => ∀ j, (s.threads j).point = .returned

/-- The pointer `solution` is set before `found`, to a password that solves and stays as it is. -/
structure Space.Inv (space : Space line) (s : State n) : Prop where
  working : ∀ i, space.Working i s.found (s.threads i)
  solution : ∀ i, s.solution = some i →
    (s.threads i).point.Settled ∧ space.Solves (s.threads i).password
  found : s.found = true → s.solution.isSome = true
  announcing : ∀ i, (s.threads i).point = .announcing → s.solution.isSome = true
  waits : s.Waits

theorem inv_start (space : Space line) : space.Inv start where
  working _ := trivial
  solution _ h := by cases h
  found h := by cases h
  announcing _ h := by cases h
  waits _ _ := rfl

theorem stepThread_spec (h : stepThread line i s = some s') :
    ∃ t', nextThread line i s.found (s.threads i) = some t' ∧ s'.main = s.main ∧
      s'.threads = Function.update s.threads i t' ∧
      s'.found = (if (s.threads i).point = .announcing then true else s.found) ∧
      s'.solution = if (s.threads i).point = .solving then some i else s.solution := by
  obtain ⟨t', ht', rfl⟩ := Option.map_eq_some_iff.mp h
  exact ⟨t', ht', rfl, rfl, rfl, rfl⟩

namespace Space.Inv

/-- The threads that are not created or have returned stay so. -/
theorem waits_update (hwaits : s.Waits) (hmain : s'.main = s.main)
    (hthreads : s'.threads = Function.update s.threads i t')
    (habsent : (s.threads i).point ≠ .absent) (hreturned : (s.threads i).point ≠ .returned) :
    s'.Waits := by
  unfold State.Waits at hwaits ⊢
  rw [hmain, hthreads]
  have hkeep : ∀ {j p}, (s.threads j).point = p → p ≠ (s.threads i).point →
      (Function.update s.threads i t' j).point = p := by
    rintro j p rfl hne
    rw [Function.update_of_ne]
    rintro rfl
    exact hne rfl
  cases hmain : s.main with
  | creating k =>
    rw [hmain] at hwaits
    exact fun j hj => hkeep (hwaits j hj) habsent.symm
  | joining k =>
    rw [hmain] at hwaits
    exact fun j hj => hkeep (hwaits j hj) hreturned.symm
  | summary =>
    rw [hmain] at hwaits
    exact fun j => hkeep (hwaits j) hreturned.symm

theorem thread (h : space.Inv s) (hstep : stepThread line i s = some s') : space.Inv s' := by
  obtain ⟨t', hnext, hmain, hthreads, hfound, hsolution⟩ := stepThread_spec hstep
  obtain ⟨habsent, hreturned⟩ := nextThread_running hnext
  have hself := (h.working i).next hnext
  have hsome : s.solution.isSome = true → s'.solution.isSome = true := by
    rw [hsolution]
    split_ifs
    · exact fun _ => rfl
    · exact id
  refine ⟨fun j => ?_, fun j hj => ?_, fun hf => ?_, fun j hj => ?_,
    waits_update h.waits hmain hthreads habsent hreturned⟩
  · rw [hthreads, hfound]
    rcases eq_or_ne j i with rfl | hne
    · rw [Function.update_self]
      exact hself
    · rw [Function.update_of_ne hne]
      refine (h.working j).mono fun hf => ?_
      rw [hf, ite_self]
  · rw [hsolution] at hj
    rw [hthreads]
    by_cases hsolving : (s.threads i).point = .solving
    · -- the thread that is at `solution = task->password`
      rw [if_pos hsolving] at hj
      obtain rfl := Option.some.inj hj
      have hworking := h.working i
      rw [Space.Working, hsolving] at hworking
      rw [Function.update_self, nextThread_solving hnext hsolving]
      exact ⟨trivial, hworking⟩
    · rw [if_neg hsolving] at hj
      obtain ⟨hsettled, hsolves⟩ := h.solution j hj
      rcases eq_or_ne j i with rfl | hne
      · rw [Function.update_self]
        obtain ⟨hsettled', hpassword⟩ := nextThread_settled hnext hsettled
        exact ⟨hsettled', hpassword ▸ hsolves⟩
      · rw [Function.update_of_ne hne]
        exact ⟨hsettled, hsolves⟩
  · rw [hfound] at hf
    split_ifs at hf with hannouncing
    · exact hsome (h.announcing i hannouncing)
    · exact hsome (h.found hf)
  · rw [hthreads] at hj
    rcases eq_or_ne j i with rfl | hne
    · rw [Function.update_self] at hj
      rw [hsolution, if_pos (nextThread_announcing hnext hj)]
      rfl
    · rw [Function.update_of_ne hne] at hj
      exact hsome (h.announcing j hj)

theorem created (h : space.Inv s) (hi : (s.threads i).point = .absent) {m : Main}
    (hwaits : State.Waits { create line i s with main := m }) :
    space.Inv { create line i s with main := m } := by
  refine ⟨fun j => ?_, fun j hj => ?_, h.found, fun j hj => ?_, hwaits⟩
  · rcases eq_or_ne j i with rfl | hne
    · simp [create, Space.Working]
    · simpa [create, Function.update_of_ne hne] using h.working j
  · obtain ⟨hsettled, hsolves⟩ := h.solution j hj
    have hne : j ≠ i := by
      rintro rfl
      rw [hi] at hsettled
      exact hsettled
    simpa [create, Function.update_of_ne hne] using ⟨hsettled, hsolves⟩
  · rcases eq_or_ne j i with rfl | hne
    · simp [create] at hj
    · exact h.announcing j (by simpa [create, Function.update_of_ne hne] using hj)

theorem main (h : space.Inv s) (hstep : nextMain line s = some s') : space.Inv s' := by
  have hwaits := h.waits
  unfold State.Waits at hwaits
  unfold nextMain at hstep
  cases hmain : s.main with
  | creating i =>
    simp only [hmain] at hstep hwaits
    split_ifs at hstep with hi
    · obtain rfl := Option.some.inj hstep
      refine h.created (hwaits ⟨i, hi⟩ (Nat.le_refl i)) fun j hj => ?_
      have hne : j ≠ ⟨i, hi⟩ := by
        rintro rfl
        exact absurd hj (Nat.not_succ_le_self i)
      simpa [create, Function.update_of_ne hne] using hwaits j (by omega)
    · obtain rfl := Option.some.inj hstep
      exact { h with waits := fun j hj => absurd hj (Nat.not_lt_zero _) }
  | joining i =>
    simp only [hmain] at hstep hwaits
    split_ifs at hstep with hi hreturned
    · obtain rfl := Option.some.inj hstep
      refine { h with waits := fun j hj => ?_ }
      rcases Nat.lt_succ_iff_lt_or_eq.mp hj with hj | rfl
      · exact hwaits j hj
      · exact hreturned
    · obtain rfl := Option.some.inj hstep
      exact { h with waits := fun j => hwaits j (by omega) }
  | summary => simp [hmain] at hstep

theorem step {a : Action n} (h : space.Inv s) (hstep : Step line s a s') : space.Inv s' := by
  cases a with
  | main => exact h.main hstep
  | thread i => exact h.thread hstep

end Space.Inv

/-! ## The summary -/

section Summary

variable {as : List (Action n)}

theorem Space.inv (space : Space line) (hrun : Run (Step line) start as s) : space.Inv s :=
  hrun.invariant (inv_start space) Space.Inv.step

/-- When all threads are joined, `found` is right, and `solution` is a pointer to a password that
has the hash but is not allocated any more. -/
theorem summary_spec (space : Space line) (hrun : Run (Step line) start as s)
    (hmain : s.main = .summary) :
    (∀ i, (s.threads i).allocated = false) ∧ (s.found = true ↔ ∃ k < space.total, space.Hit k) ∧
      (s.found = true → ∃ i, s.solution = some i ∧ space.Solves (s.threads i).password) := by
  have hinv := space.inv hrun
  have hwaits := hinv.waits
  rw [State.Waits, hmain] at hwaits
  have hworking : ∀ i, (s.found = true ∨ space.Missed i (line.subrange i).2) ∧
      (s.threads i).allocated = false := by
    intro i
    have hi := hinv.working i
    rw [Space.Working, hwaits i] at hi
    exact hi
  have hsolution : s.found = true →
      ∃ i, s.solution = some i ∧ space.Solves (s.threads i).password := by
    intro hfound
    obtain ⟨i, hi⟩ := Option.isSome_iff_exists.mp (hinv.found hfound)
    exact ⟨i, hi, (hinv.solution i hi).2⟩
  refine ⟨fun i => (hworking i).2, ⟨fun hfound => ?_, ?_⟩, hsolution⟩
  · obtain ⟨i, -, k, hk, hhit, -⟩ := hsolution hfound
    exact ⟨k, hk, hhit⟩
  · rintro ⟨k, hk, hhit⟩
    -- the thread that has the candidate would have missed it
    obtain ⟨i, ⟨hle, hlt⟩, -⟩ := space.existsUnique_subrange k hk
    refine (hworking i).1.resolve_right fun hmissed => ?_
    apply hmissed (k - (line.subrange i).1) (by omega)
    rwa [Nat.add_sub_cancel' hle]

/-- What is printed is right exactly if no candidate has the hash. -/
theorem prints_iff (space : Space line) (hrun : Run (Step line) start as s)
    (hmain : s.main = .summary) : space.Prints s ↔ ∀ k < space.total, ¬ space.Hit k := by
  obtain ⟨hfreed, hfound, -⟩ := summary_spec space hrun hmain
  constructor
  · rintro ⟨hsolution, -⟩ k hk hhit
    obtain ⟨i, -, hallocated, -⟩ := hsolution (hfound.mpr ⟨k, hk, hhit⟩)
    exact Bool.false_ne_true ((hfreed i).symm.trans hallocated)
  · intro hmissed
    refine ⟨fun htrue => ?_, fun _ => hmissed⟩
    obtain ⟨k, hk, hhit⟩ := hfound.mp htrue
    exact absurd hhit (hmissed k hk)

end Summary

/-! ## Two threads -/

/-- Letters from `a` on; `crypt_r` answers with the key. -/
def letters : Utils where
  getPrefixLength := fun s => s.idxOf 46
  setStringPosition := fun s k => s.map fun _ => 97 + UInt8.ofNat k
  incrementString := fun s => (1, s.map (· + 1))
  cryptR := fun key _ => key

/-- The last letter is `a` for one thread and `b` for the other. -/
def twoLetters (hash : CString) : Line letters 2 where
  job := ⟨[120], hash, [98, 46]⟩
  getSubrange := fun _ _ id => (id - 1, 1)

def twoLettersSpace (hash : CString) : Space (twoLetters hash) where
  total := 2
  candidate := fun k => [97 + UInt8.ofNat k]
  prefix_le := Nat.le_succ 1
  setStringPosition := fun _ _ => rfl
  incrementString := fun k hk => by
    obtain rfl : k = 0 := by omega
    rfl
  subrange_le := fun i => by
    have hi := i.isLt
    simp only [Line.subrange, twoLetters]
    omega
  existsUnique_subrange := fun k hk => by
    refine ⟨⟨k, hk⟩, by simp [Line.subrange, twoLetters], fun i hi => Fin.ext ?_⟩
    have hrange : i.val + 1 - 1 ≤ k ∧ k < i.val + 1 - 1 + 1 := hi
    dsimp only
    omega

/-- The main thread creates both threads, these work one after the other, and are joined. -/
def inTurn (first second : ℕ) : List (Action 2) :=
  List.replicate 3 .main ++ List.replicate first (.thread 0) ++
    List.replicate second (.thread 1) ++ List.replicate 3 .main

/-- With a hash that no candidate has, the summary is right. -/
theorem prints_twoLetters : ∃ s, Run (Step (twoLetters [98, 99])) start (inTurn 5 5) s ∧
    s.main = .summary ∧
      ((twoLettersSpace [98, 99]).Prints s ↔
        ∀ k < (twoLettersSpace [98, 99]).total, ¬ (twoLettersSpace [98, 99]).Hit k) := by
  have hrun : ∃ s, Run (Step (twoLetters [98, 99])) start (inTurn 5 5) s ∧ s.main = .summary :=
    ⟨_, Run.of_fold rfl, rfl⟩
  obtain ⟨s, hrun, hmain⟩ := hrun
  exact ⟨s, hrun, hmain, prints_iff (twoLettersSpace [98, 99]) hrun hmain⟩

/-- The second thread finds the password, and the solution is a pointer to memory that it freed. -/
theorem not_prints_twoLetters : ∃ s, Run (Step (twoLetters [98, 98])) start (inTurn 5 6) s ∧
    s.main = .summary ∧ s.found = true ∧ s.solution = some 1 ∧
      (s.threads 1).allocated = false ∧ ¬ (twoLettersSpace [98, 98]).Prints s := by
  have hrun : ∃ s, Run (Step (twoLetters [98, 98])) start (inTurn 5 6) s ∧
      s.main = .summary ∧ s.found = true ∧ s.solution = some 1 ∧
        (s.threads 1).allocated = false :=
    ⟨_, Run.of_fold rfl, rfl, rfl, rfl, rfl⟩
  obtain ⟨s, hrun, hmain, hfound, hsolution, hfreed⟩ := hrun
  refine ⟨s, hrun, hmain, hfound, hsolution, hfreed, fun hprints => ?_⟩
  obtain ⟨i, hi, hallocated, -⟩ := hprints.1 hfound
  obtain rfl := Option.some.inj (hsolution.symm.trans hi)
  exact Bool.false_ne_true (hfreed.symm.trans hallocated)

end Cs241.Cracker.Subranges
