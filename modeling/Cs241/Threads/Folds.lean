import Cs241.Foundation.Runs
import Cs241.Foundation.Tiles
import Cs241.Threads.Model
import Mathlib.Algebra.BigOperators.Group.List.Basic
import Mathlib.Tactic.Ring

/-!
# The sum is the fold of the list

The ranges of the threads tile the list. A thread has folded the part of its range that it has gone
through, and the main thread the part of the list that belongs to the threads it has joined, in
whatever order they take their steps. Every step brings the end nearer.
-/
namespace Cs241.Threads

open Foundation

variable {α : Type*} {c : Call α}

/-! ## Boundaries -/

/-- Where the range of thread `k` begins, and that of the thread before it ends. -/
def Call.boundary (c : Call α) (k : ℕ) : ℕ :=
  if k < c.threadCount then k * (c.list.length / c.threadCount) else c.list.length

theorem threadCount_le (c : Call α) : c.threadCount ≤ c.list.length := by
  unfold Call.threadCount
  split_ifs with h
  · exact Nat.div_le_self _ _
  · omega

namespace Call

theorem boundary_last : c.boundary c.threadCount = c.list.length := if_neg (lt_irrefl _)

theorem boundary_le (k : ℕ) : c.boundary k ≤ c.list.length := by
  rcases Nat.lt_or_ge k c.threadCount with hk | hk
  · have hmul := Nat.mul_div_le c.list.length c.threadCount
    rw [Call.boundary, if_pos hk]
    exact (Nat.mul_le_mul_right _ hk.le).trans hmul
  · rw [Call.boundary, if_neg (by omega)]

/-- The end that the main thread computes. -/
theorem endIndex_eq {k : ℕ} (hk : k < c.threadCount) :
    (if k = c.threadCount - 1 then toInt c.list.length
      else toInt (toInt (c.boundary k) + c.offset)) = toInt (c.boundary (k + 1)) := by
  split_ifs with hlast
  · rw [Call.boundary, if_neg (by omega)]
  · rw [Call.offset, toInt_toInt_add_toInt, Call.boundary, if_pos hk, Call.boundary,
      if_pos (by omega), Nat.succ_mul, Nat.cast_add]

end Call

/-- What is asked of the arguments: no length is divided by zero, and lengths are of type `int`. -/
structure Call.Valid (c : Call α) : Prop where
  pos : 0 < c.threadCount
  lt : c.list.length < 2 ^ 31

namespace Call.Valid

variable (h : c.Valid)
include h

theorem toInt_boundary (k : ℕ) : toInt (c.boundary k) = c.boundary k := by
  have hlt := (c.boundary_le k).trans_lt h.lt
  exact toInt_of_lt (Int.natCast_nonneg _) (by exact_mod_cast hlt)

theorem boundary_zero : c.boundary 0 = 0 := by rw [Call.boundary, if_pos h.pos, Nat.zero_mul]

theorem boundary_lt {k : ℕ} (hk : k < c.threadCount) : c.boundary k < c.boundary (k + 1) := by
  have hquot : 0 < c.list.length / c.threadCount := Nat.div_pos (threadCount_le c) h.pos
  rw [Call.boundary, if_pos hk, Call.boundary]
  split_ifs with hnext
  · rw [Nat.succ_mul]
    omega
  · -- the last range gets what the division leaves
    have hmul := Nat.mul_div_le c.list.length c.threadCount
    have hsucc : k * (c.list.length / c.threadCount) + c.list.length / c.threadCount ≤
        c.threadCount * (c.list.length / c.threadCount) := by
      rw [← Nat.succ_mul]
      exact Nat.mul_le_mul_right _ hk
    omega

/-- The ranges tile the list. -/
theorem tiles : Tiles 0 ((List.range c.threadCount).map fun k => (c.boundary k, c.boundary (k + 1)))
    c.list.length := by
  rw [← Call.boundary_last (c := c)]
  suffices hall : ∀ n ≤ c.threadCount, Tiles 0
      ((List.range n).map fun k => (c.boundary k, c.boundary (k + 1))) (c.boundary n) from
    hall _ le_rfl
  intro n hn
  induction n with
  | zero =>
    rw [h.boundary_zero]
    exact .nil 0
  | succ n ih =>
    rw [List.range_succ, List.map_append]
    exact (ih (by omega)).concat (h.boundary_lt (by omega))

end Call.Valid

/-! ## The invariant -/

/-- The fold of a part of the list. -/
def Call.fold (c : Call α) (a b : ℕ) : α := (slice c.list (a, b)).foldl c.reduceFunc c.baseCase

/-- Thread `k` has its range and has folded it up to its index. -/
structure Working (c : Call α) (k : ℕ) (t : ThreadData α) : Prop where
  start : t.start = c.boundary k
  endIndex : t.endIndex = c.boundary (k + 1)
  progress : ∃ i : ℕ, t.i = i ∧ c.boundary k ≤ i ∧ i ≤ c.boundary (k + 1) ∧
    t.reducedOutput = c.fold (c.boundary k) i

/-- Where the main thread is, with the number of threads there are. -/
def MainInv (c : Call α) (created : ℕ) : Main α → Prop
  | .creating i start => created = i ∧ i ≤ c.threadCount ∧ start = c.boundary i
  | .joining i sum => created = c.threadCount ∧ i ≤ c.threadCount ∧ sum = c.fold 0 (c.boundary i)
  | .returned sum => created = c.threadCount ∧ sum = c.fold 0 c.list.length

structure Inv (c : Call α) (s : Program α) : Prop where
  threads : ∀ k t, s.threads[k]? = some t → Working c k t
  main : MainInv c s.threads.length s.main

/-- The function is associative, and the base case changes nothing behind another value. -/
structure Call.Folds (c : Call α) : Prop where
  assoc : ∀ x y z, c.reduceFunc (c.reduceFunc x y) z = c.reduceFunc x (c.reduceFunc y z)
  identity : ∀ x, c.reduceFunc x c.baseCase = x

theorem fold_self (a : ℕ) : c.fold a a = c.baseCase := by
  rw [Call.fold, slice_self, List.foldl_nil]

theorem fold_succ {a i : ℕ} {x : α} (ha : a ≤ i) (hx : c.list[i]? = some x) :
    c.reduceFunc (c.fold a i) x = c.fold a (i + 1) := by
  rw [Call.fold, Call.fold, slice_succ ha hx, List.foldl_append, List.foldl_cons, List.foldl_nil]

theorem fold_append (h : c.Folds) {a b d : ℕ} (hab : a ≤ b) (hbd : b ≤ d) :
    c.reduceFunc (c.fold a b) (c.fold b d) = c.fold a d := by
  rw [Call.fold, Call.fold, Call.fold, ← slice_append c.list hab hbd, List.foldl_append]
  exact (foldl_eq_apply h.assoc h.identity _ _).symm

/-! ## One step -/

/-- The numbers of steps that the threads have to take. -/
def Program.pending (s : Program α) : ℕ :=
  (s.threads.map fun t => (t.endIndex - t.i).toNat).sum

/-- A bound for the steps to come. -/
def Call.measure (c : Call α) (s : Program α) : ℕ :=
  s.pending + match s.main with
    | .creating i start => 2 * c.threadCount + 2 - i + (c.list.length - start.toNat)
    | .joining i _ => c.threadCount + 1 - i
    | .returned _ => 0

section Steps

variable {s s' : Program α} {a : Action} {k : ℕ} {t : ThreadData α}

/-- A thread that takes a step folds one more element. -/
theorem Working.round (h : Working c k t) (hlt : t.i < t.endIndex) :
    ∃ t', reduceRound c t = some t' ∧ Working c k t' ∧ t'.endIndex = t.endIndex ∧
      t'.i = t.i + 1 := by
  obtain ⟨hstart, hend, i, hi, hle, -, hout⟩ := h
  rw [hi, hend] at hlt
  have hlt' : i < c.boundary (k + 1) := by exact_mod_cast hlt
  have hlen : i < c.list.length := hlt'.trans_le (c.boundary_le _)
  have hget : c.list[i]? = some c.list[i] := List.getElem?_eq_getElem hlen
  have helement : element c.list t.i = some c.list[i] := by
    rw [element, hi, if_pos (Int.natCast_nonneg i), Int.toNat_natCast, hget]
  refine ⟨{ t with reducedOutput := c.reduceFunc t.reducedOutput c.list[i], i := t.i + 1 }, ?_,
    ⟨hstart, hend, i + 1, by rw [hi]; rfl, by omega, hlt', ?_⟩, rfl, rfl⟩
  · rw [reduceRound, if_pos (by rwa [hi, hend]), helement]
    rfl
  · rw [hout, fold_succ hle hget]

theorem Working.finished (h : Working c k t) (hge : ¬ t.i < t.endIndex) :
    t.reducedOutput = c.fold (c.boundary k) (c.boundary (k + 1)) := by
  obtain ⟨-, hend, i, hi, -, hle, hout⟩ := h
  rw [hi, hend] at hge
  obtain rfl : i = c.boundary (k + 1) := by omega
  exact hout

theorem pending_set {t' : ThreadData α} (h : s.threads[k]? = some t) (hlt : t.i < t.endIndex)
    (hend : t'.endIndex = t.endIndex) (hi : t'.i = t.i + 1) (main : Main α) :
    Program.pending ⟨s.threads.set k t', main⟩ < s.pending := by
  obtain ⟨hk, rfl⟩ := List.getElem?_eq_some_iff.mp h
  have hsplit := List.take_append_drop k s.threads
  rw [← List.getElem_cons_drop hk] at hsplit
  unfold Program.pending
  dsimp only
  rw [← hsplit, List.map_append, List.sum_append, List.map_cons, List.sum_cons, hsplit,
    List.set_eq_take_append_cons_drop, if_pos hk, List.map_append, List.sum_append, List.map_cons,
    List.sum_cons, hend, hi]
  omega

theorem pending_append (t : ThreadData α) (main : Main α) :
    Program.pending ⟨s.threads ++ [t], main⟩ = s.pending + (t.endIndex - t.i).toNat := by
  simp [Program.pending]

/-- What a step can do. -/
inductive Move (c : Call α) (s : Program α) : Program α → Prop
  | create {i : ℕ} {start : ℤ} (hmain : s.main = .creating i start) (hi : i < c.threadCount) :
      Move c s (createThread c s i start)
  | created {i : ℕ} {start : ℤ} (hmain : s.main = .creating i start) (hi : c.threadCount ≤ i) :
      Move c s { s with main := .joining 0 c.baseCase }
  | join {i : ℕ} {sum : α} {t : ThreadData α} (hmain : s.main = .joining i sum)
      (hi : i < c.threadCount) (ht : s.threads[i]? = some t) (hend : ¬ t.i < t.endIndex) :
      Move c s { s with main := .joining (i + 1) (c.reduceFunc sum t.reducedOutput) }
  | joined {i : ℕ} {sum : α} (hmain : s.main = .joining i sum) (hi : c.threadCount ≤ i) :
      Move c s { s with main := .returned sum }
  | round {k : ℕ} {t t' : ThreadData α} (ht : s.threads[k]? = some t) (hlt : t.i < t.endIndex)
      (hround : reduceRound c t = some t') : Move c s { s with threads := s.threads.set k t' }

theorem step_move (h : Step c s a s') : Move c s s' := by
  unfold Step Program.next at h
  cases a with
  | main =>
    cases hmain : s.main with
    | creating i start =>
      simp only [hmain] at h
      split_ifs at h with hi
      · exact Option.some.inj h ▸ .create hmain hi
      · exact Option.some.inj h ▸ .created hmain (by omega)
    | joining i sum =>
      simp only [hmain] at h
      split_ifs at h with hi
      · obtain ⟨t, ht, h⟩ := Option.bind_eq_some_iff.mp h
        split_ifs at h with hend
        exact Option.some.inj h ▸ .join hmain hi ht hend
      · exact Option.some.inj h ▸ .joined hmain (by omega)
    | returned sum => simp [hmain] at h
  | thread k =>
    obtain ⟨t, ht, h⟩ := Option.bind_eq_some_iff.mp h
    obtain ⟨t', hround, rfl⟩ := Option.map_eq_some_iff.mp h
    have hlt : t.i < t.endIndex := by
      by_contra hge
      rw [reduceRound, if_neg hge] at hround
      simp at hround
    exact .round ht hlt hround

theorem createThread_eq {i : ℕ} (hi : i < c.threadCount) :
    createThread c s i (toInt (c.boundary i)) =
      ⟨s.threads ++
          [⟨toInt (c.boundary i), toInt (c.boundary (i + 1)), c.baseCase, toInt (c.boundary i)⟩],
        .creating (i + 1) (toInt (c.boundary (i + 1)))⟩ := by
  rw [createThread, Call.endIndex_eq hi]

/-- A step keeps the invariant, and lowers the bound for those that follow. -/
theorem Inv.step (hvalid : c.Valid) (hfolds : c.Folds) (h : Inv c s) (hstep : Step c s a s') :
    Inv c s' ∧ c.measure s' < c.measure s := by
  have hmainInv := h.main
  cases step_move hstep with
  | @create i start hmain hi =>
    rw [hmain] at hmainInv
    obtain ⟨hlen, -, rfl⟩ := hmainInv
    have hlt := hvalid.boundary_lt hi
    have hle := c.boundary_le (i + 1)
    rw [← hvalid.toInt_boundary i, createThread_eq hi, hvalid.toInt_boundary,
      hvalid.toInt_boundary]
    refine ⟨⟨fun k t hk => ?_, by simp [hlen], by omega, rfl⟩, ?_⟩
    · rw [List.getElem?_append] at hk
      split_ifs at hk with hold
      · exact h.threads k t hk
      · obtain ⟨hk', rfl⟩ := List.getElem?_eq_some_iff.mp hk
        obtain rfl : k = i := by simp at hk'; omega
        simp only [List.getElem_singleton]
        exact ⟨rfl, rfl, c.boundary k, rfl, le_rfl, hlt.le, (fold_self _).symm⟩
    · simp only [Call.measure, hmain, pending_append, Int.toNat_natCast]
      omega
  | @created i start hmain hi =>
    rw [hmain] at hmainInv
    obtain ⟨hlen, hle, rfl⟩ := hmainInv
    obtain rfl : i = c.threadCount := by omega
    refine ⟨⟨h.threads, hlen, Nat.zero_le _, ?_⟩, ?_⟩
    · rw [hvalid.boundary_zero, fold_self]
    · simp only [Call.measure, hmain, Program.pending]
      omega
  | @join i sum t hmain hi ht hend =>
    rw [hmain] at hmainInv
    obtain ⟨hlen, -, rfl⟩ := hmainInv
    refine ⟨⟨h.threads, hlen, hi, ?_⟩, ?_⟩
    · rw [(h.threads i t ht).finished hend,
        fold_append hfolds (Nat.zero_le _) (hvalid.boundary_lt hi).le]
    · simp only [Call.measure, hmain, Program.pending]
      omega
  | @joined i sum hmain hi =>
    rw [hmain] at hmainInv
    obtain ⟨hlen, hle, rfl⟩ := hmainInv
    obtain rfl : i = c.threadCount := by omega
    refine ⟨⟨h.threads, hlen, by rw [Call.boundary_last]⟩, ?_⟩
    simp only [Call.measure, hmain, Program.pending]
    omega
  | @round k t t' ht hlt hround =>
    obtain ⟨u, hu, hworking, hend, hi⟩ := (h.threads k t ht).round hlt
    obtain rfl := Option.some.inj (hu.symm.trans hround)
    refine ⟨⟨fun j v hv => ?_, by simpa using h.main⟩, ?_⟩
    · rw [List.getElem?_set] at hv
      split_ifs at hv with hj hbound
      · obtain rfl := Option.some.inj hv
        exact hj ▸ hworking
      · exact h.threads j v hv
    · have hpending := pending_set ht hlt hend hi s.main
      simp only [Call.measure]
      omega

/-- Until the end some step can be taken. -/
theorem Inv.progress (h : Inv c s) (hrunning : ∀ sum, s.main ≠ .returned sum) :
    ∃ a s', Step c s a s' := by
  have hmainInv := h.main
  cases hmain : s.main with
  | creating i start =>
    refine ⟨.main, if i < c.threadCount then createThread c s i start
      else { s with main := .joining 0 c.baseCase }, ?_⟩
    simp only [Step, Program.next, hmain]
    split_ifs <;> rfl
  | joining i sum =>
    rw [hmain] at hmainInv
    rcases Nat.lt_or_ge i c.threadCount with hi | hi
    · obtain ⟨t, ht⟩ : ∃ t, s.threads[i]? = some t :=
        ⟨_, List.getElem?_eq_getElem (hmainInv.1.symm ▸ hi)⟩
      by_cases hend : t.i < t.endIndex
      · -- the main thread waits for thread `i`, which can go on
        obtain ⟨t', hround, -⟩ := (h.threads i t ht).round hend
        refine ⟨.thread i, { s with threads := s.threads.set i t' }, ?_⟩
        simp only [Step, Program.next, ht, Option.bind_some, hround, Option.map_some]
      · refine ⟨.main, { s with main := .joining (i + 1) (c.reduceFunc sum t.reducedOutput) }, ?_⟩
        simp only [Step, Program.next, hmain, if_pos hi, ht, Option.bind_some, if_neg hend]
    · refine ⟨.main, { s with main := .returned sum }, ?_⟩
      simp only [Step, Program.next, hmain, if_neg (Nat.not_lt.mpr hi)]
  | returned sum => exact absurd hmain (hrunning sum)

end Steps

/-! ## Whole runs -/

/-- The threads have ranges that tile the list. -/
def Program.Covers (s : Program α) (list : List α) : Prop :=
  ∃ ranges : List (ℕ × ℕ),
    (s.threads.map fun t => (t.start, t.endIndex)) = ranges.map (fun r => ((r.1 : ℤ), (r.2 : ℤ))) ∧
      Tiles 0 ranges list.length ∧
        ∀ x < list.length, ∃! r, r ∈ ranges ∧ r.1 ≤ x ∧ x < r.2

theorem Inv.covers (hvalid : c.Valid) {s : Program α} (h : Inv c s)
    (hlen : s.threads.length = c.threadCount) : s.Covers c.list := by
  refine ⟨(List.range c.threadCount).map fun k => (c.boundary k, c.boundary (k + 1)), ?_,
    hvalid.tiles, fun x hx => hvalid.tiles.existsUnique (Nat.zero_le x) hx⟩
  refine List.ext_getElem? fun k => ?_
  rw [List.getElem?_map, List.getElem?_map, List.getElem?_map]
  rcases Nat.lt_or_ge k c.threadCount with hk | hk
  · have hget := List.getElem?_eq_getElem (l := s.threads) (i := k) (hlen.symm ▸ hk)
    have hworking := h.threads k _ hget
    rw [hget, List.getElem?_range hk, Option.map_some, Option.map_some, Option.map_some,
      hworking.start, hworking.endIndex]
  · rw [List.getElem?_eq_none (by omega), List.getElem?_eq_none (by simpa using hk)]
    rfl

/-- In every order of steps the call comes to its end after a bounded number of them, and returns
the fold of the list from the base case. -/
theorem parReduce_folds [Zero α] (list : List α) (reduceFunc : α → α → α) (baseCase : α)
    (numThreads : ℕ) (hvalid : Call.Valid ⟨list, reduceFunc, baseCase, numThreads⟩)
    (hfolds : Call.Folds ⟨list, reduceFunc, baseCase, numThreads⟩) :
    ∃ s₀ bound, parReduce (some list) reduceFunc baseCase numThreads = some s₀ ∧
      ∀ as s, Run (Step ⟨list, reduceFunc, baseCase, numThreads⟩) s₀ as s →
        as.length ≤ bound ∧
        ((∀ sum, s.main ≠ .returned sum) →
          ∃ a s', Step ⟨list, reduceFunc, baseCase, numThreads⟩ s a s') ∧
        ∀ sum, s.main = .returned sum →
          sum = list.foldl reduceFunc baseCase ∧ s.Covers list := by
  set c : Call α := ⟨list, reduceFunc, baseCase, numThreads⟩ with hc
  have hinit : Inv c ⟨[], .creating 0 0⟩ :=
    ⟨fun k t hk => by simp at hk, rfl, Nat.zero_le _, by rw [hvalid.boundary_zero]; rfl⟩
  refine ⟨_, c.measure ⟨[], .creating 0 0⟩, if_neg hvalid.pos.ne', fun as s hrun => ?_⟩
  obtain ⟨hinv, hlen⟩ := hrun.length_add_le c.measure hinit fun h hs => h.step hvalid hfolds hs
  refine ⟨by omega, hinv.progress, fun sum hsum => ?_⟩
  have hmain := hinv.main
  rw [hsum] at hmain
  refine ⟨?_, hinv.covers hvalid hmain.1⟩
  rw [hmain.2, Call.fold, slice, List.take_length, List.drop_zero]

/-- Five numbers and two threads. -/
theorem parReduce_folds_five : ∃ s₀ bound, parReduce (some [1, 2, 3, 4, 5]) (· + ·) 0 2 = some s₀ ∧
    ∀ as s, Run (Step ⟨[1, 2, 3, 4, 5], (· + ·), (0 : ℕ), 2⟩) s₀ as s →
      as.length ≤ bound ∧
      ((∀ sum, s.main ≠ .returned sum) →
        ∃ a s', Step ⟨[1, 2, 3, 4, 5], (· + ·), 0, 2⟩ s a s') ∧
      ∀ sum, s.main = .returned sum →
        sum = [1, 2, 3, 4, 5].foldl (· + ·) 0 ∧ s.Covers [1, 2, 3, 4, 5] :=
  parReduce_folds [1, 2, 3, 4, 5] (· + ·) 0 2 ⟨by decide, by decide⟩ ⟨Nat.add_assoc, Nat.add_zero⟩

end Cs241.Threads
