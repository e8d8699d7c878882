import Mathlib.Data.Multiset.AddSub
import Mathlib.Algebra.Order.Group.Multiset
import Mathlib.Algebra.Order.Ring.Int
import Cs241.Vector.Refinement

/-!
# Who destroys what

The record of a vector is replayed on the multiset of the objects that were
constructed and not yet destroyed. Every operation but `vector_erase` keeps
these equal to the contents. `vector_erase` destroys two values while the
vector shrinks by one, so that a balance of calls tells where it was used.
-/
namespace Cs241.Vector

variable {α : Type*} {env : Env α} {v v' : Vec α}

section Replay

variable [DecidableEq α]

/-- The live objects after a record, newest first; `none` if some call of the destructor got
another value or some index was not below the capacity. -/
def replay : List (Event α) → Option (Multiset α)
  | [] => some 0
  | .construct x :: es => (replay es).map (x ::ₘ ·)
  | .destroy x :: es =>
    (replay es).bind fun live => if x ∈ live then some (live.erase x) else none
  | .access i capacity :: es =>
    (replay es).bind fun live => if i < capacity then some live else none
  | .realloc _ :: es => replay es

/-- The live objects of `v` are the members of `l`. -/
def Owns (v : Vec α) (l : List α) : Prop := replay v.log = some ↑l

theorem Owns.perm {l l' : List α} (h : Owns v l) (hp : l.Perm l') : Owns v l' :=
  h.trans (congrArg some (Multiset.coe_eq_coe.mpr hp))

theorem Owns.destroyAt {l : List α} {i : ℕ} (h : Owns v (v.array i :: l)) (hi : i < v.capacity) :
    Owns (v.destroyAt i) l := by
  unfold Owns at h
  simp [Owns, Vec.destroyAt, replay, h, hi]

theorem Owns.constructAt {l : List α} {i : ℕ} {x : α} (h : Owns v l) (hi : i < v.capacity) :
    Owns (v.constructAt i x) (x :: l) := by
  unfold Owns at h
  simp [Owns, Vec.constructAt, replay, h, hi]

theorem Owns.move {l : List α} {i j : ℕ} (h : Owns v l) (hi : i < v.capacity)
    (hj : j < v.capacity) : Owns (v.move i j) l := by
  unfold Owns at h
  simp [Owns, Vec.move, replay, h, hi, hj]

/-! ## Loops -/

theorem Owns.destroyLoop {l : List α} {k i : ℕ}
    (h : Owns v ((List.range' i k).map v.array ++ l)) (hk : i + k ≤ v.capacity) :
    Owns (Vector.destroyLoop k i v) l := by
  induction k generalizing i v with
  | zero => simpa [Vector.destroyLoop] using h
  | succ k ih =>
    apply ih (h.destroyAt (by omega))
    rw [destroyAt_capacity]
    omega

theorem Owns.constructLoop {k i : ℕ} (h : Owns v ((List.range i).map v.array))
    (hk : i + k ≤ v.capacity) :
    Owns (Vector.constructLoop env k i v)
      ((List.range (i + k)).map (Vector.constructLoop env k i v).array) := by
  induction k generalizing i v with
  | zero => exact h
  | succ k ih =>
    have hslots : (List.range (i + 1)).map
        (v.constructAt i (env.defaultConstructor v.log.length)).array =
          (List.range i).map v.array ++ [env.defaultConstructor v.log.length] := by
      rw [List.range_succ, List.map_append, List.map_singleton]
      congr 1
      · apply List.map_congr_left
        intro j hj
        simp [(List.mem_range.mp hj).ne]
      · simp
    have hone := (h.constructAt (x := env.defaultConstructor v.log.length)
      (by omega : i < v.capacity)).perm (List.perm_append_singleton _ _).symm
    rw [← hslots] at hone
    have hloop := ih hone (by rw [constructAt_capacity]; omega)
    rwa [show i + 1 + k = i + (k + 1) by omega] at hloop

theorem Owns.shiftUp {l : List α} {k i : ℕ} (h : Owns v l) (hi : i < v.capacity) :
    Owns (Vector.shiftUp k i v) l := by
  induction k generalizing i v with
  | zero => exact h
  | succ k ih =>
    apply ih (h.move (by omega) hi)
    rw [move_capacity]
    omega

/-! ## Operations -/

theorem Owns.vectorReserve {l : List α} {n : ℕ} (h : Owns v l)
    (hr : vectorReserve env v n = some v') : Owns v' l := by
  unfold Vector.vectorReserve at hr
  split_ifs at hr with hn
  · exact Option.some.inj hr ▸ h
  · obtain ⟨c, -, hr⟩ := Option.bind_eq_some_iff.mp hr
    dsimp only at hr
    split_ifs at hr
    exact Option.some.inj hr ▸ h

theorem Owns.vectorResize {n : ℕ} (h : Owns v (contents v)) (hv : v.size ≤ v.capacity)
    (hr : vectorResize env v n = some v') : Owns v' (contents v') := by
  unfold Vector.vectorResize at hr
  split_ifs at hr with hn
  · obtain rfl := Option.some.inj hr
    have hsplit : contents v =
        (List.range n).map v.array ++ (List.range' n (v.size - n)).map v.array := by
      unfold contents
      rw [← List.map_append, List.range_eq_range', List.range_eq_range']
      congr 1
      have happ := List.range'_append_1 (s := 0) (m := n) (n := v.size - n)
      rw [Nat.zero_add, Nat.add_sub_cancel' hn] at happ
      exact happ.symm
    rw [hsplit] at h
    have hkept := (h.perm List.perm_append_comm).destroyLoop (by omega)
    change Owns (Vector.destroyLoop (v.size - n) n v)
      ((List.range n).map (Vector.destroyLoop (v.size - n) n v).array)
    rwa [destroyLoop_array]
  · obtain ⟨u, hu, rfl⟩ := Option.map_eq_some_iff.mp hr
    have hres := vectorReserve_spec hu
    have hroom := hres.room
    have hu' : Owns u (contents u) := (hres.contents hv).symm ▸ h.vectorReserve hu
    have hfill : u.size + (n - u.size) = n := by
      have := hres.size
      omega
    have hloop : Owns (Vector.constructLoop env (n - u.size) u.size u) _ :=
      Owns.constructLoop hu' (by omega)
    rwa [hfill] at hloop

omit [DecidableEq α] in
/-- The element at `i` in front, the others behind it. -/
theorem contents_perm_eraseIdx {i : ℕ} (hi : i < v.size) :
    (contents v).Perm (v.array i :: (contents v).eraseIdx i) := by
  have hlt : i < (contents v).length := by simpa using hi
  have hget : (contents v)[i] = v.array i := by simp [contents]
  exact hget ▸ (List.getElem_cons_eraseIdx_perm hlt).symm

theorem Owns.destroyElement {i : ℕ} (h : Owns v (contents v)) (hv : v.size ≤ v.capacity)
    (hi : i < v.size) : Owns (v.destroyAt i) ((contents v).eraseIdx i) :=
  (h.perm (contents_perm_eraseIdx hi)).destroyAt (by omega)

/-- Filling the slot of the only element that is not owned. -/
theorem Owns.copyTo {i : ℕ} {x : α} {l : List α} (h : Owns v l) (hv : v.size ≤ v.capacity)
    (hi : i < v.size) (hl : (contents (copyTo env v i x)).eraseIdx i = l) :
    Owns (copyTo env v i x) (contents (copyTo env v i x)) := by
  have hfill : Owns (Vector.copyTo env v i x) (_ :: l) := h.constructAt (by omega)
  have hsize : i < (Vector.copyTo env v i x).size := hi
  apply hfill.perm
  have hperm := contents_perm_eraseIdx hsize
  rw [hl] at hperm
  simpa [Vector.copyTo] using hperm.symm

theorem Owns.vectorSet {i : ℕ} {x : α} (h : Owns v (contents v)) (hv : v.size ≤ v.capacity)
    (hr : vectorSet env v i x = some v') : Owns v' (contents v') := by
  unfold Vector.vectorSet at hr
  split_ifs at hr with hi
  obtain rfl := Option.some.inj hr
  apply (h.destroyElement hv hi).copyTo hv hi
  obtain ⟨t, ht⟩ := contents_copyTo env (v.destroyAt i) i x
  rw [ht, List.eraseIdx_set_eq, contents_destroyAt]

theorem Owns.vectorPushBack {x : α} (h : Owns v (contents v)) (hv : v.size ≤ v.capacity)
    (hr : vectorPushBack env v x = some v') : Owns v' (contents v') := by
  obtain ⟨u, hu, rfl⟩ := Option.map_eq_some_iff.mp hr
  obtain ⟨hsize, -, hroom, -⟩ := vectorResize_succ hv hu
  have hlast : u.size - 1 < u.size := by omega
  have hu' := (h.vectorResize hv hu).destroyElement (by omega) hlast
  apply hu'.copyTo (by simpa using hsize ▸ hroom) hlast
  obtain ⟨t, ht⟩ := contents_copyTo env (u.destroyAt (u.size - 1)) (u.size - 1) x
  rw [ht, List.eraseIdx_set_eq, contents_destroyAt]

theorem Owns.vectorInsert {i : ℕ} {x : α} (h : Owns v (contents v)) (hv : v.size ≤ v.capacity)
    (hr : vectorInsert env v i x = some v') : Owns v' (contents v') := by
  obtain ⟨hi, -, -, -, t, ht⟩ := vectorInsert_spec hv hr
  obtain ⟨u, hu, rfl⟩ := Option.map_eq_some_iff.mp ((if_pos hi).symm.trans hr)
  obtain ⟨hsize, -, hroom, y, hy⟩ := vectorResize_succ hv hu
  have hlast : u.size - 1 < u.size := by omega
  have hshift := ((h.vectorResize hv hu).destroyElement (by omega) hlast).shiftUp
    (k := u.size - 1 - i) (i := u.size - 1) (by rw [destroyAt_capacity]; omega)
  refine hshift.copyTo ?_ ?_ ?_
  · rw [shiftUp_size, shiftUp_capacity]
    exact hsize ▸ hroom
  · rw [shiftUp_size, destroyAt_size]
    omega
  · apply (congrArg (List.eraseIdx · i) ht).trans
    rw [List.eraseIdx_insertIdx_self, hy, hsize, Nat.add_sub_cancel]
    simp [List.eraseIdx_append_of_length_le]

/-- Every operation other than `vector_erase` leaves exactly the contents alive. -/
theorem Owns.apply {op : Op α} (h : Owns v (contents v)) (hv : v.size ≤ v.capacity)
    (he : op.isErase = false) (hr : op.apply env v = some v') : Owns v' (contents v') := by
  cases op with
  | pushBack x => exact h.vectorPushBack hv hr
  | popBack =>
    change Vector.vectorPopBack env v = some v' at hr
    unfold Vector.vectorPopBack at hr
    split_ifs at hr
    exact h.vectorResize hv hr
  | insert i x => exact h.vectorInsert hv hr
  | erase i => exact absurd he (by simp [Op.isErase])
  | set i x => exact h.vectorSet hv hr
  | resize n => exact h.vectorResize hv hr
  | reserve n => exact (vectorReserve_spec hr).contents hv ▸ h.vectorReserve hr
  | clear =>
    have hr : Vector.vectorResize env v 0 = some v' := hr
    exact h.vectorResize hv hr

end Replay

/-! ## Balance -/

/-- Calls of the constructors less calls of the destructor. -/
def balance : List (Event α) → ℤ
  | [] => 0
  | .construct _ :: es => balance es + 1
  | .destroy _ :: es => balance es - 1
  | _ :: es => balance es

theorem card_replay [DecidableEq α] :
    ∀ {es : List (Event α)} {live : Multiset α}, replay es = some live → live.card = balance es
  | [], _, h => by
    obtain rfl := Option.some.inj h
    rfl
  | .construct x :: es, _, h => by
    obtain ⟨live, hl, rfl⟩ := Option.map_eq_some_iff.mp h
    simp [balance, card_replay hl]
  | .destroy x :: es, _, h => by
    obtain ⟨live, hl, h⟩ := Option.bind_eq_some_iff.mp h
    split_ifs at h with hx
    obtain rfl := Option.some.inj h
    have hcard := Multiset.card_erase_add_one hx
    have := card_replay hl
    rw [balance]
    omega
  | .access i c :: es, _, h => by
    obtain ⟨live, hl, h⟩ := Option.bind_eq_some_iff.mp h
    split_ifs at h with hi
    obtain rfl := Option.some.inj h
    exact (card_replay hl : _ = balance es)
  | .realloc _ :: es, live, h => (card_replay h : _ = balance es)

section Loops

variable (k i : ℕ) (v : Vec α)

@[simp] theorem balance_destroyLoop : balance (destroyLoop k i v).log = balance v.log - k := by
  induction k generalizing i v with
  | zero => simp [destroyLoop]
  | succ k ih =>
    rw [destroyLoop, ih]
    simp [Vec.destroyAt, balance]
    omega

@[simp] theorem balance_constructLoop :
    balance (constructLoop env k i v).log = balance v.log + k := by
  induction k generalizing i v with
  | zero => simp [constructLoop]
  | succ k ih =>
    rw [constructLoop, ih]
    simp [Vec.constructAt, balance]
    omega

@[simp] theorem balance_shiftUp : balance (shiftUp k i v).log = balance v.log := by
  induction k generalizing i v with
  | zero => rfl
  | succ k ih => exact ih (i - 1) _

@[simp] theorem balance_shiftDown : balance (shiftDown k i v).log = balance v.log := by
  induction k generalizing i v with
  | zero => rfl
  | succ k ih => exact ih (i + 1) _

@[simp] theorem balance_destroyAt : balance (v.destroyAt i).log = balance v.log - 1 := rfl

@[simp] theorem balance_copyTo (x : α) :
    balance (copyTo env v i x).log = balance v.log + 1 := rfl

end Loops

theorem balance_vectorReserve {n : ℕ} (h : vectorReserve env v n = some v') :
    balance v'.log = balance v.log := by
  unfold vectorReserve at h
  split_ifs at h with hn
  · rw [Option.some.inj h]
  · obtain ⟨c, -, h⟩ := Option.bind_eq_some_iff.mp h
    dsimp only at h
    split_ifs at h
    obtain rfl := Option.some.inj h
    rfl

theorem balance_vectorResize {n : ℕ} (h : vectorResize env v n = some v') :
    v'.size = n ∧ balance v'.log = balance v.log + (n - v.size) := by
  unfold vectorResize at h
  split_ifs at h with hn
  · obtain rfl := Option.some.inj h
    refine ⟨rfl, ?_⟩
    rw [balance_destroyLoop]
    omega
  · obtain ⟨u, hu, rfl⟩ := Option.map_eq_some_iff.mp h
    have hsize := (vectorReserve_spec hu).size
    refine ⟨rfl, ?_⟩
    rw [balance_constructLoop, balance_vectorReserve hu, hsize]
    omega

/-- Only `vector_erase` calls the destructor once more than the size accounts for. -/
theorem balance_apply {op : Op α} (h : op.apply env v = some v') :
    balance v'.log - v'.size = balance v.log - v.size - if op.isErase then 1 else 0 := by
  cases op with
  | pushBack x =>
    obtain ⟨u, hu, rfl⟩ := Option.map_eq_some_iff.mp h
    obtain ⟨hs, hb⟩ := balance_vectorResize hu
    simp [Op.isErase]
    omega
  | popBack =>
    change vectorPopBack env v = some v' at h
    unfold vectorPopBack at h
    split_ifs at h
    obtain ⟨hs, hb⟩ := balance_vectorResize h
    simp [Op.isErase]
    omega
  | insert i x =>
    change vectorInsert env v i x = some v' at h
    unfold vectorInsert at h
    split_ifs at h
    obtain ⟨u, hu, rfl⟩ := Option.map_eq_some_iff.mp h
    obtain ⟨hs, hb⟩ := balance_vectorResize hu
    simp [Op.isErase]
    omega
  | erase i =>
    change vectorErase env v i = some v' at h
    unfold vectorErase at h
    split_ifs at h
    obtain ⟨hs, hb⟩ := balance_vectorResize h
    simp only [shiftDown_size, destroyAt_size, balance_shiftDown, balance_destroyAt] at hs hb
    simp [Op.isErase]
    omega
  | set i x =>
    change vectorSet env v i x = some v' at h
    unfold vectorSet at h
    split_ifs at h
    obtain rfl := Option.some.inj h
    simp [Op.isErase]
  | resize n =>
    obtain ⟨hs, hb⟩ := balance_vectorResize h
    simp [Op.isErase]
    omega
  | reserve n =>
    have hb := balance_vectorReserve h
    have hs := (vectorReserve_spec h).size
    simp [Op.isErase]
    omega
  | clear =>
    have h : vectorResize env v 0 = some v' := h
    obtain ⟨hs, hb⟩ := balance_vectorResize h
    simp [Op.isErase]
    omega

/-! ## Whole runs -/

theorem size_le_capacity {op : Op α} (hv : v.size ≤ v.capacity) (h : op.apply env v = some v') :
    v'.size ≤ v'.capacity := by
  cases op with
  | pushBack x =>
    obtain ⟨hs, -, hr, -⟩ := vectorPushBack_spec hv h
    omega
  | popBack =>
    obtain ⟨-, hs, hc, -⟩ := vectorPopBack_spec hv h
    omega
  | insert i x =>
    obtain ⟨-, hs, -, hr, -⟩ := vectorInsert_spec hv h
    omega
  | erase i =>
    obtain ⟨-, hs, hc, -⟩ := vectorErase_spec hv h
    omega
  | set i x =>
    obtain ⟨-, hs, hc, -⟩ := vectorSet_spec h
    omega
  | resize n =>
    obtain ⟨hs, -, hr, -⟩ := vectorResize_spec hv h
    omega
  | reserve n =>
    have hres := vectorReserve_spec h
    have := hres.size
    have := hres.le
    omega
  | clear =>
    have h : vectorResize env v 0 = some v' := h
    obtain ⟨hs, -, hr, -⟩ := vectorResize_spec hv h
    omega

theorem Owns.runOps [DecidableEq α] {ops : List (Op α)} (h : Owns v (contents v))
    (hv : v.size ≤ v.capacity) (he : ∀ op ∈ ops, op.isErase = false)
    (hr : runOps env v ops = some v') : Owns v' (contents v') := by
  induction ops generalizing v with
  | nil => exact Option.some.inj hr ▸ h
  | cons op ops ih =>
    obtain ⟨u, hu, hr⟩ := Option.bind_eq_some_iff.mp hr
    exact ih (h.apply hv (he op List.mem_cons_self) hu) (size_le_capacity hv hu)
      (fun op hop => he op (List.mem_cons_of_mem _ hop)) hr

theorem balance_runOps {ops : List (Op α)} (hr : runOps env v ops = some v') :
    balance v'.log - v'.size = balance v.log - v.size - ops.countP Op.isErase := by
  induction ops generalizing v with
  | nil => simp [Option.some.inj hr]
  | cons op ops ih =>
    obtain ⟨u, hu, hr⟩ := Option.bind_eq_some_iff.mp hr
    rw [ih hr, balance_apply hu, List.countP_cons]
    push_cast
    omega

/-- `vector_destroy` ends the run with one more `vector_clear`. -/
theorem runFull_eq (env : Env α) (ops : List (Op α)) :
    runFull env ops = runOps env (vectorCreate env) (ops ++ [.clear]) := by
  rw [runFull, runOps_append]
  simp only [Vector.runOps, Op.apply]
  rfl

/-- A run from `vector_create` to `vector_destroy` destroys what it constructed, each object
once and nothing else, inside the array, exactly when it never calls `vector_erase`. -/
theorem runFull_replay_iff [DecidableEq α] {ops : List (Op α)} (hr : runFull env ops = some v) :
    replay v.log = some 0 ↔ ∀ op ∈ ops, op.isErase = false := by
  have hempty : v.size = 0 := by
    obtain ⟨u, -, hu⟩ := Option.bind_eq_some_iff.mp hr
    have hu : vectorResize env u 0 = some v := hu
    exact (balance_vectorResize hu).1
  rw [runFull_eq] at hr
  have hclear : ∀ op ∈ [(Op.clear : Op α)], op.isErase = false := by simp [Op.isErase]
  constructor
  · intro h op hop
    have hbal := balance_runOps hr
    have hcard := card_replay h
    have hcreate : balance (vectorCreate env).log = 0 := rfl
    have hsize : (vectorCreate env).size = 0 := rfl
    rw [hcreate, hsize, ← hcard, Multiset.card_zero] at hbal
    have hnone : (ops ++ [Op.clear]).countP Op.isErase = 0 := by omega
    simpa using List.countP_eq_zero.mp hnone op (List.mem_append_left _ hop)
  · intro he
    have hno : ∀ op ∈ ops ++ [Op.clear], op.isErase = false := fun op hop =>
      (List.mem_append.mp hop).elim (he op) (hclear op)
    have howns := Owns.runOps (v := vectorCreate env) rfl (Nat.zero_le _) hno hr
    have hnil : contents v = [] := List.length_eq_zero_iff.mp (by simpa using hempty)
    rwa [Owns, hnil] at howns

/-- Objects are numbers here. -/
theorem runFull_replay_iff_insert :
    ∃ v, runFull numbers [.pushBack 7, .insert 0 5, .popBack] = some v ∧ replay v.log = some 0 := by
  have h : (runFull numbers [.pushBack 7, .insert 0 5, .popBack]).isSome = true := by decide +kernel
  obtain ⟨v, hv⟩ := Option.isSome_iff_exists.mp h
  exact ⟨v, hv, (runFull_replay_iff hv).mpr (by decide)⟩

/-- The shift of `vector_erase` reads the slot behind the last element, and what it holds, here
the 9 of fresh memory, goes to the destructor. -/
theorem runFull_erase_not_replay :
    ¬ ∀ (env : Env ℕ) (ops : List (Op ℕ)) (v : Vec ℕ), runFull env ops = some v →
      replay v.log = some 0 := by
  intro hall
  have h : ((runFull numbers [.pushBack 7, .erase 0]).map fun v => replay v.log) =
      some none := by decide +kernel
  obtain ⟨v, hv, hlog⟩ := Option.map_eq_some_iff.mp h
  rw [hall _ _ _ hv] at hlog
  exact absurd hlog (by simp)

end Cs241.Vector
