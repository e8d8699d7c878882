import Mathlib.Data.List.Basic
import Mathlib.Data.List.Infix
import Mathlib.Data.Set.Function
import Mathlib.Logic.Function.Basic
import Mathlib.Order.Interval.Set.Basic

/-!
# A sequence that is laid out in memory

The positions of a sequence lie wherever an address map puts them. Values are stored at
consecutive positions and collected from them; as long as the addresses are different,
what is stored is what is collected, and every other place keeps its value.
-/
namespace Cs241.Foundation

section Scatter

variable {α β : Type*} [DecidableEq α]

/-- Store values at the positions from `p` on. -/
def scatter (m : α → β) (addr : ℕ → α) : ℕ → List β → α → β
  | _, [] => m
  | p, b :: bs => scatter (Function.update m (addr p) b) addr (p + 1) bs

/-- The `n` values at the positions from `p` on. -/
def gather (m : α → β) (addr : ℕ → α) (p n : ℕ) : List β :=
  (List.range n).map fun k => m (addr (p + k))

variable {m m' : α → β} {addr addr' : ℕ → α} {p p' q n k : ℕ} {bs cs : List β} {x : α}

theorem scatter_append : scatter m addr p (bs ++ cs) =
    scatter (scatter m addr p bs) addr (p + bs.length) cs := by
  induction bs generalizing m p with
  | nil => rfl
  | cons b bs ih =>
    rw [List.cons_append, scatter, scatter, ih, List.length_cons, Nat.add_right_comm, Nat.add_assoc]

/-- Only the addresses of the positions count. -/
theorem scatter_congr (h : ∀ k < bs.length, addr (p + k) = addr' (p' + k)) :
    scatter m addr p bs = scatter m addr' p' bs := by
  induction bs generalizing m p p' with
  | nil => rfl
  | cons b bs ih =>
    have hhead := h 0 (Nat.zero_lt_succ _)
    rw [Nat.add_zero, Nat.add_zero] at hhead
    rw [scatter, scatter, hhead]
    refine ih fun k hk => ?_
    have htail := h (k + 1) (Nat.succ_lt_succ hk)
    rwa [← Nat.add_assoc, Nat.add_right_comm p, ← Nat.add_assoc, Nat.add_right_comm p'] at htail

/-- Every other place keeps its value. -/
theorem scatter_of_ne (h : ∀ k < bs.length, addr (p + k) ≠ x) : scatter m addr p bs x = m x := by
  induction bs generalizing m p with
  | nil => rfl
  | cons b bs ih =>
    have hhead : addr p ≠ x := h 0 (Nat.zero_lt_succ _)
    rw [scatter, ih, Function.update_of_ne hhead.symm]
    intro k hk
    have htail := h (k + 1) (Nat.succ_lt_succ hk)
    rwa [← Nat.add_assoc, Nat.add_right_comm] at htail

/-- Each value is where its position is. -/
theorem scatter_apply (hinj : Set.InjOn addr (Set.Ico p (p + bs.length))) (hk : k < bs.length) :
    scatter m addr p bs (addr (p + k)) = bs[k] := by
  induction bs generalizing m p k with
  | nil => exact absurd hk (Nat.not_lt_zero k)
  | cons b bs ih =>
    rw [List.length_cons] at hk
    rw [List.length_cons] at hinj
    rw [scatter]
    cases k with
    | zero =>
      rw [scatter_of_ne, Nat.add_zero, Function.update_self]
      · rfl
      · intro j hj heq
        have hpos : p + 1 + j = p + 0 :=
          hinj ⟨by omega, by omega⟩ ⟨by omega, by omega⟩ heq
        omega
    | succ k =>
      have hk' : k < bs.length := by omega
      have htail := ih (m := Function.update m (addr p) b) (p := p + 1) (k := k)
        (hinj.mono (Set.Ico_subset_Ico (by omega) (by omega))) hk'
      rw [Nat.add_right_comm, Nat.add_assoc] at htail
      rw [htail]
      rfl

omit [DecidableEq α]

@[simp] theorem length_gather : (gather m addr p n).length = n := by simp [gather]

theorem gather_congr (h : ∀ k < n, m (addr (p + k)) = m' (addr' (p' + k))) :
    gather m addr p n = gather m' addr' p' n :=
  List.map_congr_left fun k hk => h k (List.mem_range.mp hk)

theorem getElem_gather (h : k < (gather m addr p n).length) :
    (gather m addr p n)[k] = m (addr (p + k)) := by
  simp [gather]

theorem gather_add (n k : ℕ) :
    gather m addr p (n + k) = gather m addr p n ++ gather m addr (p + n) k := by
  simp [gather, List.range_add, Nat.add_assoc]

theorem take_gather (hk : k ≤ n) : (gather m addr p n).take k = gather m addr p k := by
  obtain ⟨j, rfl⟩ := Nat.exists_eq_add_of_le hk
  rw [gather_add, List.take_left' length_gather]

theorem drop_gather : (gather m addr p n).drop k = gather m addr (p + k) (n - k) := by
  rcases Nat.le_total k n with hk | hk
  · obtain ⟨j, rfl⟩ := Nat.exists_eq_add_of_le hk
    rw [gather_add, List.drop_left' length_gather, Nat.add_sub_cancel_left]
  · rw [List.drop_eq_nil_of_le (by simpa using hk), Nat.sub_eq_zero_of_le hk]
    rfl

end Scatter

section Overwrite

variable {α β : Type*} [DecidableEq α] {m : α → β} {addr : ℕ → α} {p q n : ℕ} {bs : List β}

/-- What was stored is collected. -/
theorem gather_scatter (hinj : Set.InjOn addr (Set.Ico p (p + bs.length))) :
    gather (scatter m addr p bs) addr p bs.length = bs :=
  List.ext_getElem length_gather fun k hk hk' => by
    rw [getElem_gather, scatter_apply hinj hk']

/-- Positions that were not stored to keep their values. -/
theorem gather_scatter_of_disjoint (h : ∀ j < bs.length, ∀ k < n, addr (p + j) ≠ addr (q + k)) :
    gather (scatter m addr p bs) addr q n = gather m addr q n :=
  gather_congr fun k hk => scatter_of_ne fun j hj => h j hj k hk

/-- A list with other values from `p` on, extended if needed. -/
def overwrite (c : List β) (p : ℕ) (bs : List β) : List β :=
  c.take p ++ bs ++ c.drop (p + bs.length)

/-- Storing into a sequence overwrites it. -/
theorem gather_scatter_overwrite (hp : p ≤ n)
    (hinj : Set.InjOn addr (Set.Iio (max n (p + bs.length)))) :
    gather (scatter m addr p bs) addr 0 (max n (p + bs.length)) =
      overwrite (gather m addr 0 n) p bs := by
  obtain ⟨k, hk⟩ := Nat.exists_eq_add_of_le (Nat.le_max_right n (p + bs.length))
  have hinj' : ∀ i < p + bs.length + k, ∀ j < p + bs.length + k, addr i = addr j → i = j :=
    fun i hi j hj => hinj (hk ▸ hi) (hk ▸ hj)
  rw [overwrite, take_gather hp, drop_gather, hk, gather_add, gather_add]
  simp only [Nat.zero_add]
  congr 1
  · congr 1
    · refine gather_scatter_of_disjoint fun j hj i hi heq => ?_
      have := hinj' (p + j) (by omega) (0 + i) (by omega) heq
      omega
    · exact gather_scatter fun i hi j hj =>
        hinj' i (hi.2.trans_le (Nat.le_add_right _ k)) j (hj.2.trans_le (Nat.le_add_right _ k))
  · have hlen : n - (p + bs.length) = k := by omega
    rw [hlen]
    refine gather_scatter_of_disjoint fun j hj i hi heq => ?_
    have := hinj' (p + j) (by omega) (p + bs.length + i) (by omega) heq
    omega

/-- Storing at the end, or ahead of it and ending there. -/
theorem gather_scatter_end (hp : p ≤ n) (hinj : Set.InjOn addr (Set.Iio (p + bs.length))) :
    gather (scatter m addr p bs) addr 0 (p + bs.length) = (gather m addr 0 n).take p ++ bs := by
  rw [take_gather hp, gather_add, Nat.zero_add]
  congr 1
  · refine gather_scatter_of_disjoint fun j hj k hk heq => ?_
    have := hinj (Set.mem_Iio.mpr (by omega)) (Set.mem_Iio.mpr (by omega)) heq
    omega
  · exact gather_scatter (hinj.mono fun k hk => hk.2)

end Overwrite

end Cs241.Foundation
