import Mathlib.Data.List.Basic

/-!
# Streams that arrive in pieces

The two ends of a stream as a program sees them through `read` and `write`: a
call passes a part of what was asked for, or is interrupted. What each call
meets is laid down in a plan, after which calls pass all they can. The usual
loops around the two calls do not depend on the plan.
-/
namespace Cs241.Foundation

/-- What one call meets: it is interrupted, or passes at most `n + 1` elements. -/
inductive Event
  | interrupted
  | atMost (n : ℕ)

/-- The end that reads: the elements still to come, after which the stream ends. -/
structure Source (β : Type*) where
  rest : List β
  plan : List Event

/-- The end that writes: the elements that were sent. -/
structure Sink (β : Type*) where
  sent : List β
  plan : List Event

variable {β : Type*}

namespace Source

/-- The elements read, none of them at the end of the stream; `none` when interrupted. -/
def read (n : ℕ) : Source β → Option (List β) × Source β
  | ⟨rest, []⟩ => (some (rest.take n), ⟨rest.drop n, []⟩)
  | ⟨rest, .interrupted :: plan⟩ => (none, ⟨rest, plan⟩)
  | ⟨rest, .atMost k :: plan⟩ =>
    (some (rest.take (min n (k + 1))), ⟨rest.drop (min n (k + 1)), plan⟩)

theorem read_interrupted {n : ℕ} {s s' : Source β} (h : s.read n = (none, s')) :
    s'.rest = s.rest ∧ s'.plan.length < s.plan.length := by
  obtain ⟨rest, _ | ⟨_ | k, plan⟩⟩ := s
  · simp [read] at h
  · obtain rfl : ⟨rest, plan⟩ = s' := (Prod.mk.inj h).2
    simp
  · simp [read] at h

theorem read_some {n : ℕ} {s s' : Source β} {xs : List β} (hn : 0 < n)
    (h : s.read n = (some xs, s')) : s.rest = xs ++ s'.rest ∧ xs.length ≤ n ∧
      (xs = [] → s.rest = []) ∧ s'.plan.length ≤ s.plan.length := by
  have htake : ∀ m, 0 < m → s.rest.take m = [] → s.rest = [] := by
    intro m hm h
    rcases List.take_eq_nil_iff.mp h with h | h
    · omega
    · exact h
  obtain ⟨rest, _ | ⟨_ | k, plan⟩⟩ := s
  · obtain ⟨rfl, rfl⟩ : rest.take n = xs ∧ ⟨rest.drop n, []⟩ = s' := by simpa [read] using h
    exact ⟨by simp, List.length_take_le .., htake n hn, by simp⟩
  · simp [read] at h
  · obtain ⟨rfl, rfl⟩ :
        rest.take (min n (k + 1)) = xs ∧ ⟨rest.drop (min n (k + 1)), plan⟩ = s' := by
      simpa [read] using h
    exact ⟨by simp, Nat.le_trans (List.length_take_le ..) (Nat.min_le_left ..),
      htake _ (by omega), by simp⟩

/-- The loop that reads until `count` elements are placed or the stream has ended: its return
value, zero in the second case, and what was placed. -/
def readLoop (count : ℕ) (placed : List β) (s : Source β) : ℕ × List β × Source β :=
  if _ : placed.length < count then
    match _ : s.read (count - placed.length) with
    | (none, s') => readLoop count placed s'
    | (some [], s') => (0, placed, s')
    | (some (x :: xs), s') => readLoop count (placed ++ x :: xs) s'
  else (placed.length, placed, s)
termination_by count - placed.length + s.plan.length
decreasing_by
  · have hlt := (read_interrupted ‹_›).2
    omega
  · have hlt := (read_some (n := count - placed.length) (by omega) ‹_›).2.2.2
    simp only [List.length_append, List.length_cons]
    omega

theorem readLoop_spec {count : ℕ} {placed : List β} {s : Source β} (hle : placed.length ≤ count) :
    (s.readLoop count placed).1 = (if count ≤ placed.length + s.rest.length then count else 0) ∧
      (s.readLoop count placed).2.1 = placed ++ s.rest.take (count - placed.length) ∧
      (s.readLoop count placed).2.2.rest = s.rest.drop (count - placed.length) := by
  fun_induction readLoop count placed s with
  | case1 placed s hlt s' h ih =>
    have hread := (read_interrupted h).1
    rw [← hread]
    exact ih hle
  | case2 placed s hlt s' h =>
    obtain ⟨hrest, -, hend, -⟩ := read_some (by omega) h
    have hs := hend rfl
    have hs' : s'.rest = [] := by simpa [hs] using hrest.symm
    simp [hs, hs']
    omega
  | case3 placed s hlt x xs s' h ih =>
    obtain ⟨hrest, hlen, -, -⟩ := read_some (by omega) h
    obtain ⟨hret, hplaced, hleft⟩ := ih (by simp only [List.length_append]; omega)
    have hcount :
        count - (placed ++ x :: xs).length = count - placed.length - (x :: xs).length := by
      simp only [List.length_append]
      omega
    rw [hret, hplaced, hleft, hcount, hrest, List.take_append, List.drop_append,
      List.take_of_length_le hlen, List.drop_of_length_le hlen]
    simp [Nat.add_assoc, Nat.add_comm 1]
  | case4 placed s hlt =>
    obtain rfl : placed.length = count := by omega
    simp

def readAll (count : ℕ) (s : Source β) : ℕ × List β × Source β := s.readLoop count []

variable (count : ℕ) (s : Source β)

/-- The loop ends with zero when too few elements were left. -/
theorem readAll_fst :
    (s.readAll count).1 = if count ≤ s.rest.length then count else 0 := by
  exact (readLoop_spec (s := s) (Nat.zero_le count)).1.trans (by simp)

theorem readAll_placed : (s.readAll count).2.1 = s.rest.take count :=
  (readLoop_spec (s := s) (Nat.zero_le count)).2.1

theorem readAll_rest : (s.readAll count).2.2.rest = s.rest.drop count :=
  (readLoop_spec (s := s) (Nat.zero_le count)).2.2

variable {count s}

theorem readAll_of_le (h : count ≤ s.rest.length) :
    ∃ s', s.readAll count = (count, s.rest.take count, s') ∧ s'.rest = s.rest.drop count :=
  ⟨_, Prod.ext ((readAll_fst count s).trans (if_pos h)) (Prod.ext (readAll_placed count s) rfl),
    readAll_rest count s⟩

theorem readAll_of_lt (h : s.rest.length < count) :
    ∃ s', s.readAll count = (0, s.rest, s') ∧ s'.rest = [] := by
  refine ⟨_, Prod.ext ((readAll_fst count s).trans (if_neg (by omega)))
    (Prod.ext ((readAll_placed count s).trans ?_) rfl), (readAll_rest count s).trans ?_⟩
  · exact List.take_of_length_le (Nat.le_of_lt h)
  · exact List.drop_of_length_le (Nat.le_of_lt h)

end Source

namespace Sink

/-- The number of elements that were sent; `none` when interrupted. -/
def write (xs : List β) : Sink β → Option ℕ × Sink β
  | ⟨sent, []⟩ => (some xs.length, ⟨sent ++ xs, []⟩)
  | ⟨sent, .interrupted :: plan⟩ => (none, ⟨sent, plan⟩)
  | ⟨sent, .atMost k :: plan⟩ => (some (min xs.length (k + 1)), ⟨sent ++ xs.take (k + 1), plan⟩)

variable {xs : List β} {s s' : Sink β}

theorem write_interrupted (h : s.write xs = (none, s')) :
    s'.sent = s.sent ∧ s'.plan.length < s.plan.length := by
  obtain ⟨sent, _ | ⟨_ | k, plan⟩⟩ := s
  · simp [write] at h
  · obtain rfl : ⟨sent, plan⟩ = s' := (Prod.mk.inj h).2
    simp
  · simp [write] at h

theorem write_some {n : ℕ} (h : s.write xs = (some n, s')) : s'.sent = s.sent ++ xs.take n ∧
    n ≤ xs.length ∧ (n = 0 → xs = []) ∧ s'.plan.length ≤ s.plan.length := by
  obtain ⟨sent, _ | ⟨_ | k, plan⟩⟩ := s
  · obtain ⟨rfl, rfl⟩ : xs.length = n ∧ ⟨sent ++ xs, []⟩ = s' := by simpa [write] using h
    simp
  · simp [write] at h
  · obtain ⟨rfl, rfl⟩ : min xs.length (k + 1) = n ∧ ⟨sent ++ xs.take (k + 1), plan⟩ = s' := by
      simpa [write] using h
    refine ⟨?_, by omega, fun h => List.eq_nil_of_length_eq_zero (by omega), by simp⟩
    exact congrArg (sent ++ ·) (by rw [List.take_eq_take_min, Nat.min_comm])

/-- The loop that writes until everything is sent, from index `written` on. -/
def writeLoop (xs : List β) (written : ℕ) (s : Sink β) : ℕ × Sink β :=
  if _ : written < xs.length then
    match _ : s.write (xs.drop written) with
    | (none, s') => writeLoop xs written s'
    | (some 0, s') => (0, s')
    | (some (n + 1), s') => writeLoop xs (written + (n + 1)) s'
  else (written, s)
termination_by xs.length - written + s.plan.length
decreasing_by
  · have hlt := (write_interrupted ‹_›).2
    omega
  · have hlt := (write_some ‹_›).2.2.2
    omega

theorem writeLoop_spec {written : ℕ} (hle : written ≤ xs.length) :
    (s.writeLoop xs written).1 = xs.length ∧
      (s.writeLoop xs written).2.sent = s.sent ++ xs.drop written := by
  fun_induction writeLoop xs written s with
  | case1 written s hlt s' h ih =>
    rw [← (write_interrupted h).1]
    exact ih hle
  | case2 written s hlt s' h =>
    have hnil := (write_some h).2.2.1 rfl
    simp at hnil
    omega
  | case3 written s hlt n s' h ih =>
    obtain ⟨hsent, hn, -, -⟩ := write_some h
    obtain ⟨hret, hall⟩ := ih (by simp at hn; omega)
    refine ⟨hret, ?_⟩
    rw [hall, hsent, List.append_assoc, ← List.drop_drop, List.take_append_drop]
  | case4 written s hlt =>
    obtain rfl : written = xs.length := by omega
    simp

def writeAll (xs : List β) (s : Sink β) : ℕ × Sink β := s.writeLoop xs 0

variable (xs s)

theorem writeAll_fst : (s.writeAll xs).1 = xs.length := (writeLoop_spec (Nat.zero_le _)).1

theorem writeAll_sent : (s.writeAll xs).2.sent = s.sent ++ xs := (writeLoop_spec (Nat.zero_le _)).2

end Sink

end Cs241.Foundation
