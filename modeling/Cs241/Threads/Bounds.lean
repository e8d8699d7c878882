import Cs241.Threads.Folds

/-!
# Divisions and indices

`par_reduce` halves the length when there are more threads than elements, and so
divides by zero for the shortest lists. Behind that the indices are values of type
`int`, in which the boundaries of a very long list wrap around: a range whose start
has become negative is harmless only when its end lies no further.
-/
namespace Cs241.Threads

open Foundation

variable {α : Type*} {c : Call α} {s s' : Program α} {a : Action}

/-- Every thread that is to read an element finds one. -/
def Program.InBounds (c : Call α) (s : Program α) : Prop :=
  ∀ t ∈ s.threads, t.i < t.endIndex → 0 ≤ t.i ∧ t.i < c.list.length

/-- The call divides by no zero, and no order of its steps leads a thread out of the list. -/
def Call.Safe [Zero α] (c : Call α) : Prop :=
  ∃ s₀, parReduce (some c.list) c.reduceFunc c.baseCase c.numThreads = some s₀ ∧
    ∀ as s, Run (Step c) s₀ as s → s.InBounds c

/-- The range of thread `k` is empty or begins at an index. -/
def Call.InRange (c : Call α) (k : ℕ) : Prop :=
  0 ≤ toInt (c.boundary k) ∨ toInt (c.boundary (k + 1)) ≤ toInt (c.boundary k)

/-- Below `2^31` elements no boundary wraps around. -/
theorem Call.inRange_of_lt (h : c.list.length < 2 ^ 31) (k : ℕ) : c.InRange k := by
  have hlt := (c.boundary_le k).trans_lt h
  left
  rw [toInt_of_lt (Int.natCast_nonneg _) (by exact_mod_cast hlt)]
  exact Int.natCast_nonneg _

theorem threadCount_pos_iff (hthreads : 1 ≤ c.numThreads) :
    0 < c.threadCount ↔ c.list ≠ [] ∧ (c.list.length = 1 → c.numThreads = 1) := by
  rw [← List.length_pos_iff, Call.threadCount]
  split_ifs with hmore <;> omega

/-! ## The ranges -/

/-- Thread `k` goes through its range, whose boundaries are those of the list as an `int`. -/
structure Ranged (c : Call α) (k : ℕ) (t : ThreadData α) : Prop where
  lt : k < c.threadCount
  endIndex : t.endIndex = toInt (c.boundary (k + 1))
  le : toInt (c.boundary k) ≤ t.i

/-- The program with the first `n` threads created and none of them started. -/
def Call.launched (c : Call α) (n : ℕ) : Program α :=
  { threads := (List.range n).map fun k =>
      ⟨toInt (c.boundary k), toInt (c.boundary (k + 1)), c.baseCase, toInt (c.boundary k)⟩
    main := .creating n (toInt (c.boundary n)) }

/-- The ranges of the threads, and the start of the next while they are created. -/
structure RangeInv (c : Call α) (s : Program α) : Prop where
  threads : ∀ k t, s.threads[k]? = some t → Ranged c k t
  main : ∀ i start, s.main = .creating i start →
    s.threads.length = i ∧ start = toInt (c.boundary i)

theorem toInt_boundary_zero (h : 0 < c.threadCount) : toInt (c.boundary 0) = 0 := by
  rw [Call.boundary, if_pos h, Nat.zero_mul]
  rfl

theorem launched_zero (h : 0 < c.threadCount) : c.launched 0 = ⟨[], .creating 0 0⟩ := by
  rw [Call.launched, toInt_boundary_zero h]
  rfl

theorem launched_succ {n : ℕ} (hn : n < c.threadCount) :
    Step c (c.launched n) .main (c.launched (n + 1)) := by
  have hnext : (c.launched n).next c .main =
      some (createThread c (c.launched n) n (toInt (c.boundary n))) := if_pos hn
  rw [Step, hnext, createThread_eq hn]
  simp [Call.launched, List.range_succ]

theorem run_launched (h : 0 < c.threadCount) {n : ℕ} (hn : n ≤ c.threadCount) :
    Run (Step c) ⟨[], .creating 0 0⟩ (List.replicate n .main) (c.launched n) := by
  induction n with
  | zero =>
    rw [launched_zero h]
    exact .refl
  | succ n ih =>
    rw [List.replicate_succ']
    exact (ih (by omega)).tail (launched_succ hn)

theorem Ranged.inBounds {k : ℕ} {t : ThreadData α} (h : Ranged c k t) (hk : c.InRange k)
    (hlt : t.i < t.endIndex) : 0 ≤ t.i ∧ t.i < c.list.length := by
  obtain ⟨-, hend, hle⟩ := h
  rw [hend] at hlt
  rcases hk with hstart | hempty
  · have hboundary := toInt_le (Int.natCast_nonneg (c.boundary (k + 1)))
    have hlength := c.boundary_le (k + 1)
    omega
  · omega

theorem RangeInv.init (h : 0 < c.threadCount) : RangeInv c ⟨[], .creating 0 0⟩ where
  threads := fun k t hk => by simp at hk
  main := by
    rintro i start ⟨⟩
    exact ⟨rfl, (toInt_boundary_zero h).symm⟩

theorem RangeInv.step (h : RangeInv c s) (hstep : Step c s a s') : RangeInv c s' := by
  cases step_move hstep with
  | @create i start hmain hi =>
    obtain ⟨hlen, hstart⟩ := h.main i start hmain
    rw [hstart, createThread_eq hi]
    constructor
    · intro k t hk
      rw [List.getElem?_append] at hk
      split_ifs at hk with hold
      · exact h.threads k t hk
      · obtain ⟨hk', rfl⟩ := List.getElem?_eq_some_iff.mp hk
        obtain rfl : k = i := by simp at hk'; omega
        rw [List.getElem_singleton]
        constructor
        · exact hi
        · dsimp only
        · dsimp only
          rfl
    · intro j next hcreating
      obtain ⟨rfl, hnext⟩ := Main.creating.inj hcreating
      exact ⟨by simp [hlen], hnext.symm⟩
  | created hmain hi => exact ⟨h.threads, fun _ _ hcreating => by simp at hcreating⟩
  | join hmain hi ht hend => exact ⟨h.threads, fun _ _ hcreating => by simp at hcreating⟩
  | joined hmain hi => exact ⟨h.threads, fun _ _ hcreating => by simp at hcreating⟩
  | @round k t t' ht hlt hround =>
    rw [reduceRound, if_pos hlt] at hround
    obtain ⟨x, -, rfl⟩ := Option.map_eq_some_iff.mp hround
    refine ⟨fun j v hv => ?_, fun i start hmain => by simpa using h.main i start hmain⟩
    rw [List.getElem?_set] at hv
    split_ifs at hv with hj hbound
    · subst hj
      obtain rfl := Option.some.inj hv
      obtain ⟨hk, hend, hle⟩ := h.threads k t ht
      exact ⟨hk, hend, hle.trans (Int.le_add_one le_rfl)⟩
    · exact h.threads j v hv

/-- `par_reduce` divides by no zero and stays in the list exactly when the list has an element, a
list of one element goes to one thread, and no range of the threads begins before the list. -/
theorem parReduce_safe_iff [Zero α] (c : Call α) (hthreads : 1 ≤ c.numThreads) :
    c.Safe ↔ c.list ≠ [] ∧ (c.list.length = 1 → c.numThreads = 1) ∧
      ∀ k < c.threadCount, c.InRange k := by
  rw [← and_assoc, ← threadCount_pos_iff hthreads]
  constructor
  · rintro ⟨s₀, hs₀, hrun⟩
    have hpos : 0 < c.threadCount := by
      by_contra hzero
      have hnone : parReduce (some c.list) c.reduceFunc c.baseCase c.numThreads = none :=
        if_pos (Nat.eq_zero_of_not_pos hzero)
      rw [hnone] at hs₀
      simp at hs₀
    obtain rfl : ⟨[], .creating 0 0⟩ = s₀ := by
      have hsome : parReduce (some c.list) c.reduceFunc c.baseCase c.numThreads =
          some ⟨[], .creating 0 0⟩ := if_neg hpos.ne'
      exact Option.some.inj (hsome.symm.trans hs₀)
    refine ⟨hpos, fun k hk => ?_⟩
    -- when all threads have been created, thread `k` stands at the start of its range
    have hbounds := hrun _ _ (run_launched hpos le_rfl)
    have hthread := hbounds _ (List.mem_map_of_mem (List.mem_range.mpr hk))
    dsimp only at hthread
    by_cases hlt : toInt (c.boundary k) < toInt (c.boundary (k + 1))
    · exact .inl (hthread hlt).1
    · exact .inr (Int.not_lt.mp hlt)
  · rintro ⟨hpos, hranges⟩
    refine ⟨_, if_neg hpos.ne', fun as s hrun t ht hlt => ?_⟩
    have hinv := hrun.invariant (RangeInv.init hpos) fun h hs => h.step hs
    obtain ⟨k, hk⟩ := List.mem_iff_getElem?.mp ht
    have hranged := hinv.threads k t hk
    exact hranged.inBounds (hranges k hranged.lt) hlt

theorem parReduce_safe_iff_five : Call.Safe (α := ℕ) ⟨[1, 2, 3, 4, 5], (· + ·), 0, 2⟩ :=
  (parReduce_safe_iff ⟨[1, 2, 3, 4, 5], (· + ·), 0, 2⟩ (by decide)).mpr
    ⟨by decide, by decide, fun k _ => Call.inRange_of_lt (by decide) k⟩

/-- One element and two threads: `1 / 2` threads are left, and the length is divided by zero. -/
theorem not_safe_singleton :
    1 ≤ (⟨[7], (· + ·), 0, 2⟩ : Call ℕ).numThreads ∧
      ¬ Call.Safe (α := ℕ) ⟨[7], (· + ·), 0, 2⟩ := by
  refine ⟨by decide, ?_⟩
  rintro ⟨s₀, hs₀, -⟩
  have hnone : parReduce (some [7]) (· + ·) 0 2 = none := rfl
  exact absurd (hnone.symm.trans hs₀) (by simp)

end Cs241.Threads
