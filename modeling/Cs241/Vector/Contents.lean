import Mathlib.Data.List.InsertIdx
import Cs241.Vector.Model

/-!
# The contents of a vector

Slots `0 .. size - 1` are compared with a list. Each operation is specified
once over arbitrary callbacks; with callbacks that copy values the operations
are the list operations of the same names.
-/
namespace Cs241.Vector

variable {α : Type*} {env : Env α} {v v' : Vec α}

/-- The list in slots `0 .. size - 1`. -/
def contents (v : Vec α) : List α := (List.range v.size).map v.array

@[simp] theorem length_contents (v : Vec α) : (contents v).length = v.size := by simp [contents]

theorem getElem?_contents (v : Vec α) (i : ℕ) :
    (contents v)[i]? = if i < v.size then some (v.array i) else none := by
  unfold contents
  rw [List.getElem?_map]
  split_ifs with h
  · simp [List.getElem?_range h]
  · simp [Nat.le_of_not_lt h]

section Slots

variable (v : Vec α) (i j : ℕ) (x : α)

@[simp] theorem destroyAt_array : (v.destroyAt i).array = v.array := rfl
@[simp] theorem destroyAt_size : (v.destroyAt i).size = v.size := rfl
@[simp] theorem destroyAt_capacity : (v.destroyAt i).capacity = v.capacity := rfl
@[simp] theorem constructAt_array : (v.constructAt i x).array = Function.update v.array i x := rfl
@[simp] theorem constructAt_size : (v.constructAt i x).size = v.size := rfl
@[simp] theorem constructAt_capacity : (v.constructAt i x).capacity = v.capacity := rfl
@[simp] theorem move_array : (v.move i j).array = Function.update v.array j (v.array i) := rfl
@[simp] theorem move_size : (v.move i j).size = v.size := rfl
@[simp] theorem move_capacity : (v.move i j).capacity = v.capacity := rfl
@[simp] theorem copyTo_size : (copyTo env v i x).size = v.size := rfl
@[simp] theorem copyTo_capacity : (copyTo env v i x).capacity = v.capacity := rfl

end Slots

@[simp] theorem contents_destroyAt (v : Vec α) (i : ℕ) :
    contents (v.destroyAt i) = contents v := rfl

@[simp] theorem contents_constructAt (v : Vec α) (i : ℕ) (x : α) :
    contents (v.constructAt i x) = (contents v).set i x := by
  apply List.ext_getElem?
  intro j
  rw [getElem?_contents, List.getElem?_set, getElem?_contents]
  simp only [constructAt_size, constructAt_array, Function.update_apply, length_contents]
  by_cases hji : j = i
  · subst hji
    simp
  · simp [hji, Ne.symm hji]

theorem contents_copyTo (env : Env α) (v : Vec α) (i : ℕ) (x : α) :
    ∃ t, contents (copyTo env v i x) = (contents v).set i (env.copyConstructor t x) :=
  ⟨v.log.length, contents_constructAt _ _ _⟩

/-! ## Loops -/

section Loops

variable (k i n : ℕ)

@[simp] theorem destroyLoop_array (v : Vec α) : (destroyLoop k i v).array = v.array := by
  induction k generalizing i v with
  | zero => rfl
  | succ k ih => exact ih (i + 1) _

@[simp] theorem destroyLoop_capacity (v : Vec α) : (destroyLoop k i v).capacity = v.capacity := by
  induction k generalizing i v with
  | zero => rfl
  | succ k ih => exact ih (i + 1) _

@[simp] theorem constructLoop_capacity (v : Vec α) :
    (constructLoop env k i v).capacity = v.capacity := by
  induction k generalizing i v with
  | zero => rfl
  | succ k ih => exact ih (i + 1) _

theorem constructLoop_array_of_lt (v : Vec α) {j : ℕ} (hj : j < i) :
    (constructLoop env k i v).array j = v.array j := by
  induction k generalizing i v with
  | zero => rfl
  | succ k ih =>
    rw [constructLoop, ih (i + 1) _ (by omega)]
    simp [Vec.constructAt, show j ≠ i by omega]

theorem constructLoop_array_of_le (v : Vec α) {j : ℕ} (hij : i ≤ j) (hj : j < i + k) :
    ∃ t, (constructLoop env k i v).array j = env.defaultConstructor t := by
  induction k generalizing i v with
  | zero => omega
  | succ k ih =>
    rw [constructLoop]
    by_cases hji : j = i
    · rw [constructLoop_array_of_lt k (i + 1) _ (by omega)]
      exact ⟨v.log.length, by simp [Vec.constructAt, hji]⟩
    · exact ih (i + 1) _ (by omega) (by omega)

@[simp] theorem shiftUp_size (v : Vec α) : (shiftUp k i v).size = v.size := by
  induction k generalizing i v with
  | zero => rfl
  | succ k ih => exact ih (i - 1) _

@[simp] theorem shiftUp_capacity (v : Vec α) : (shiftUp k i v).capacity = v.capacity := by
  induction k generalizing i v with
  | zero => rfl
  | succ k ih => exact ih (i - 1) _

/-- The insertion loop moves the slots `i - k .. i - 1` up by one. -/
theorem shiftUp_array (v : Vec α) (hk : k ≤ i) (j : ℕ) :
    (shiftUp k i v).array j = if i - k < j ∧ j ≤ i then v.array (j - 1) else v.array j := by
  induction k generalizing i v with
  | zero =>
    rw [shiftUp, if_neg (by omega)]
  | succ k ih =>
    rw [shiftUp, ih (i - 1) _ (by omega)]
    simp only [Vec.move, Function.update_apply]
    by_cases hji : j = i
    · have hbelow : ¬ (i - 1 - k < i ∧ i ≤ i - 1) := by omega
      have hmoved : i - (k + 1) < i ∧ i ≤ i := by omega
      rw [hji, if_neg hbelow, if_pos rfl, if_pos hmoved]
    · by_cases hnext : j - 1 = i
      · rw [if_neg (by omega), if_neg hji, if_neg (by omega)]
      · rw [if_neg hnext, if_neg hji]
        exact if_congr (by omega) rfl rfl

@[simp] theorem shiftDown_size (v : Vec α) : (shiftDown k i v).size = v.size := by
  induction k generalizing i v with
  | zero => rfl
  | succ k ih => exact ih (i + 1) _

@[simp] theorem shiftDown_capacity (v : Vec α) : (shiftDown k i v).capacity = v.capacity := by
  induction k generalizing i v with
  | zero => rfl
  | succ k ih => exact ih (i + 1) _

/-- The erasing loop moves the slots `i + 1 .. i + k` down by one. -/
theorem shiftDown_array (v : Vec α) (j : ℕ) :
    (shiftDown k i v).array j = if i ≤ j ∧ j < i + k then v.array (j + 1) else v.array j := by
  induction k generalizing i v with
  | zero =>
    rw [shiftDown, if_neg (by omega)]
  | succ k ih =>
    rw [shiftDown, ih (i + 1) _]
    simp only [Vec.move, Function.update_apply]
    by_cases hji : j = i
    · have hlater : ¬ (i + 1 ≤ i ∧ i < i + 1 + k) := by omega
      have hmoved : i ≤ i ∧ i < i + (k + 1) := by omega
      rw [hji, if_neg hlater, if_pos rfl, if_pos hmoved]
    · by_cases hnext : j + 1 = i
      · rw [if_neg (by omega), if_neg hji, if_neg (by omega)]
      · rw [if_neg hnext, if_neg hji]
        exact if_congr (by omega) rfl rfl

end Loops

/-! ## Operations -/

theorem doubleUntil_le : ∀ {fuel c target c' : ℕ}, doubleUntil fuel c target = some c' → target ≤ c'
  | 0, _, _, _, h => by simp [doubleUntil] at h
  | fuel + 1, c, target, c', h => by
    rw [doubleUntil] at h
    split_ifs at h with hlt
    · exact doubleUntil_le h
    · obtain rfl := Option.some.inj h
      omega

/-- What `vector_reserve` leaves of a vector. -/
structure Reserved (v v' : Vec α) (n : ℕ) : Prop where
  size : v'.size = v.size
  le : v.capacity ≤ v'.capacity
  room : n ≤ v'.capacity
  array : ∀ i < v.capacity, v'.array i = v.array i

theorem vectorReserve_spec {n : ℕ} (h : vectorReserve env v n = some v') : Reserved v v' n := by
  unfold vectorReserve at h
  split_ifs at h with hn
  · obtain rfl := Option.some.inj h
    exact ⟨rfl, le_rfl, hn, fun _ _ => rfl⟩
  · obtain ⟨c, hc, h⟩ := Option.bind_eq_some_iff.mp h
    have hle := doubleUntil_le hc
    dsimp only at h
    split_ifs at h
    obtain rfl := Option.some.inj h
    refine ⟨rfl, by dsimp only; omega, hle, fun i hi => ?_⟩
    dsimp only
    rw [if_pos hi]

theorem Reserved.contents {n : ℕ} (h : Reserved v v' n) (hv : v.size ≤ v.capacity) :
    contents v' = contents v := by
  unfold Vector.contents
  rw [h.size]
  exact List.map_congr_left fun i hi => h.array i (by have := List.mem_range.mp hi; omega)

theorem vectorReserve_returns (env : Env α) (v : Vec α) {n : ℕ} (hn : n < 2 ^ 60) :
    ∃ v', vectorReserve env v n = some v' ∧ Grows v.capacity n v'.capacity := by
  unfold vectorReserve
  split_ifs with hle
  · exact ⟨v, rfl, .inl ⟨hle, rfl⟩⟩
  · obtain ⟨c, hc, hc60, hleast⟩ := getNewCapacity_spec hn.le
    have hpos : n ≤ c := hleast.1.2
    have hmod : c * 8 % 2 ^ 64 = c * 8 := Nat.mod_eq_of_lt (by omega)
    rw [hc, Option.bind_some, hmod, if_neg (by omega)]
    exact ⟨_, rfl, .inr ⟨by omega, hleast⟩⟩

/-- The default-constructed tail of a grown vector. -/
def Defaults (env : Env α) (ds : List α) : Prop := ∀ x ∈ ds, ∃ t, x = env.defaultConstructor t

/-- `vector_resize` cuts the list or appends default objects. -/
theorem vectorResize_spec {n : ℕ} (hv : v.size ≤ v.capacity) (h : vectorResize env v n = some v') :
    v'.size = n ∧ v.capacity ≤ v'.capacity ∧ n ≤ v'.capacity ∧
      ∃ ds, Defaults env ds ∧ contents v' = (contents v).take n ++ ds := by
  unfold vectorResize at h
  split_ifs at h with hn
  · obtain rfl := Option.some.inj h
    refine ⟨rfl, by simp, by simpa using hn.trans hv, [], by simp [Defaults], ?_⟩
    apply List.ext_getElem?
    intro i
    rw [List.append_nil, List.getElem?_take, getElem?_contents, getElem?_contents]
    simp only [destroyLoop_array]
    split_ifs <;> first | rfl | omega
  · obtain ⟨u, hu, rfl⟩ := Option.map_eq_some_iff.mp h
    have hres := vectorReserve_spec hu
    have hsize := hres.size
    refine ⟨rfl, by simpa using hres.le, by simpa using hres.room,
      (List.range' v.size (n - v.size)).map (constructLoop env (n - u.size) u.size u).array, ?_, ?_⟩
    · intro x hx
      obtain ⟨i, hi, rfl⟩ := List.mem_map.mp hx
      obtain ⟨hlo, hhi⟩ := List.mem_range'_1.mp hi
      exact constructLoop_array_of_le _ _ u (by omega) (by omega)
    · apply List.ext_getElem?
      intro i
      have htake : (contents v).take n = contents v := List.take_of_length_le (by simp; omega)
      rw [htake, List.getElem?_append, getElem?_contents, length_contents]
      dsimp only
      by_cases hi : i < v.size
      · rw [if_pos (by omega), if_pos hi, getElem?_contents, if_pos hi,
          constructLoop_array_of_lt _ _ u (by omega), hres.array i (by omega)]
      · rw [if_neg hi, List.getElem?_map]
        by_cases hin : i < n
        · have hoff : i - v.size < n - v.size := by omega
          rw [if_pos hin, List.getElem?_range' hoff]
          simp [show v.size + (i - v.size) = i by omega]
        · rw [if_neg hin, List.getElem?_eq_none (by simp; omega)]
          rfl

theorem vectorResize_returns (env : Env α) (v : Vec α) {n : ℕ} (hn : n < 2 ^ 60) :
    ∃ v', vectorResize env v n = some v' ∧
      Grows v.capacity (if n ≤ v.size then 0 else n) v'.capacity := by
  unfold vectorResize
  split_ifs with hle
  · exact ⟨_, rfl, .inl ⟨Nat.zero_le _, by simp⟩⟩
  · obtain ⟨u, hu, hg⟩ := vectorReserve_returns env v hn
    rw [hu]
    exact ⟨_, rfl, by simpa using hg⟩

theorem vectorSet_spec {i : ℕ} {x : α} (h : vectorSet env v i x = some v') :
    i < v.size ∧ v'.size = v.size ∧ v'.capacity = v.capacity ∧
      ∃ t, contents v' = (contents v).set i (env.copyConstructor t x) := by
  unfold vectorSet at h
  split_ifs at h with hi
  obtain rfl := Option.some.inj h
  exact ⟨hi, rfl, rfl, contents_copyTo _ _ _ _⟩

/-- Growing by one slot appends one default object. -/
theorem vectorResize_succ (hv : v.size ≤ v.capacity)
    (h : vectorResize env v (v.size + 1) = some v') :
    v'.size = v.size + 1 ∧ v.capacity ≤ v'.capacity ∧ v.size + 1 ≤ v'.capacity ∧
      ∃ y, contents v' = contents v ++ [y] := by
  obtain ⟨hsize, hcap, hroom, ds, -, hds⟩ := vectorResize_spec hv h
  refine ⟨hsize, hcap, hroom, ?_⟩
  have hlen := congrArg List.length hds
  rw [List.take_of_length_le (by simp)] at hds hlen
  simp only [length_contents, List.length_append, hsize] at hlen
  obtain ⟨y, rfl⟩ := List.length_eq_one_iff.mp (show ds.length = 1 by omega)
  exact ⟨y, hds⟩

theorem vectorPushBack_spec {x : α} (hv : v.size ≤ v.capacity)
    (h : vectorPushBack env v x = some v') :
    v'.size = v.size + 1 ∧ v.capacity ≤ v'.capacity ∧ v.size + 1 ≤ v'.capacity ∧
      ∃ t, contents v' = contents v ++ [env.copyConstructor t x] := by
  obtain ⟨u, hu, rfl⟩ := Option.map_eq_some_iff.mp h
  obtain ⟨hsize, hcap, hroom, y, hy⟩ := vectorResize_succ hv hu
  obtain ⟨t, ht⟩ := contents_copyTo env (u.destroyAt (u.size - 1)) (u.size - 1) x
  refine ⟨hsize, hcap, hroom, t, ?_⟩
  rw [ht, contents_destroyAt, hy, hsize, Nat.add_sub_cancel, List.set_append_right _ _ (by simp)]
  simp

theorem vectorPopBack_spec (hv : v.size ≤ v.capacity) (h : vectorPopBack env v = some v') :
    v.size ≠ 0 ∧ v'.size = v.size - 1 ∧ v.capacity ≤ v'.capacity ∧
      contents v' = (contents v).dropLast := by
  unfold vectorPopBack at h
  split_ifs at h with hne
  obtain ⟨hsize, hcap, -, ds, -, hds⟩ := vectorResize_spec hv h
  have hlen := congrArg List.length hds
  simp only [length_contents, List.length_append, List.length_take, hsize] at hlen
  obtain rfl : ds = [] := List.length_eq_zero_iff.mp (by omega)
  refine ⟨hne, hsize, hcap, ?_⟩
  rw [hds, List.append_nil, List.dropLast_eq_take, length_contents]

theorem vectorInsert_spec {i : ℕ} {x : α} (hv : v.size ≤ v.capacity)
    (h : vectorInsert env v i x = some v') :
    i ≤ v.size ∧ v'.size = v.size + 1 ∧ v.capacity ≤ v'.capacity ∧ v.size + 1 ≤ v'.capacity ∧
      ∃ t, contents v' = (contents v).insertIdx i (env.copyConstructor t x) := by
  unfold vectorInsert at h
  split_ifs at h with hi
  obtain ⟨u, hu, rfl⟩ := Option.map_eq_some_iff.mp h
  obtain ⟨hsize, hcap, hroom, y, hy⟩ := vectorResize_succ hv hu
  have hslot : ∀ j < v.size, u.array j = v.array j := by
    intro j hj
    have hj' := congrArg (fun l => l[j]?) hy
    rw [List.getElem?_append_left (by simpa using hj), getElem?_contents, getElem?_contents,
      if_pos hj, if_pos (by omega)] at hj'
    exact Option.some.inj hj'
  obtain ⟨t, ht⟩ := contents_copyTo env
    (shiftUp (u.size - 1 - i) (u.size - 1) (u.destroyAt (u.size - 1))) i x
  refine ⟨hi, by simpa using hsize, by simpa using hcap, by simpa using hroom, t, ht.trans ?_⟩
  apply List.ext_getElem?
  intro j
  rw [List.getElem?_set, List.getElem?_insertIdx]
  simp only [getElem?_contents, length_contents, shiftUp_size, destroyAt_size, hsize,
    Nat.add_sub_cancel, shiftUp_array _ _ _ (show v.size - i ≤ v.size by omega), destroyAt_array]
  rcases Nat.lt_trichotomy j i with hji | rfl | hji
  · have hstays : ¬ (v.size - (v.size - i) < j ∧ j ≤ v.size) := by omega
    rw [if_neg (show i ≠ j by omega), if_pos hji, if_neg hstays,
      if_pos (show j < v.size + 1 by omega), if_pos (show j < v.size by omega),
      hslot j (by omega)]
  · simp [hi, Nat.lt_succ_of_le hi]
  · rw [if_neg (show i ≠ j by omega), if_neg (show ¬ j < i by omega),
      if_neg (show j ≠ i by omega)]
    by_cases hj : j ≤ v.size
    · have hmoved : v.size - (v.size - i) < j ∧ j ≤ v.size := by omega
      rw [if_pos (show j < v.size + 1 by omega), if_pos hmoved,
        if_pos (show j - 1 < v.size by omega), hslot (j - 1) (by omega)]
    · rw [if_neg (show ¬ j < v.size + 1 by omega), if_neg (show ¬ j - 1 < v.size by omega)]

theorem vectorErase_spec {i : ℕ} (hv : v.size ≤ v.capacity) (h : vectorErase env v i = some v') :
    i < v.size ∧ v'.size = v.size - 1 ∧ v.capacity ≤ v'.capacity ∧
      contents v' = (contents v).eraseIdx i := by
  unfold vectorErase at h
  split_ifs at h with hi
  obtain ⟨hsize, hcap, -, ds, -, hds⟩ := vectorResize_spec (by simpa using hv) h
  have hlen := congrArg List.length hds
  simp only [length_contents, List.length_append, List.length_take, shiftDown_size,
    destroyAt_size, hsize] at hlen
  obtain rfl : ds = [] := List.length_eq_zero_iff.mp (by omega)
  refine ⟨hi, by simpa using hsize, by simpa using hcap, ?_⟩
  rw [hds, List.append_nil]
  apply List.ext_getElem?
  intro j
  rw [List.getElem?_take, List.getElem?_eraseIdx]
  simp only [getElem?_contents, shiftDown_size, destroyAt_size, shiftDown_array, destroyAt_array]
  by_cases hj : j < v.size - 1
  · rw [if_pos hj, if_pos (show j < v.size by omega), if_pos (show j + 1 < v.size by omega)]
    by_cases hji : j < i
    · rw [if_neg (by omega), if_pos hji, if_pos (by omega)]
    · rw [if_pos (by omega), if_neg hji]
  · rw [if_neg hj]
    split_ifs <;> first | rfl | omega

end Cs241.Vector
