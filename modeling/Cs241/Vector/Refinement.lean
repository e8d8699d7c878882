import Cs241.Foundation.Runs
import Cs241.Vector.Contents

/-!
# Vectors as lists

An abstract vector is a list. The abstract operations leave open only which
objects the default constructor returns. A vector whose copy constructor copies
the value follows them, and its capacity follows the reallocation law.
-/
namespace Cs241.Vector

open Foundation

variable {α : Type*} {env : Env α} {v : Vec α}

/-- The list operation of the same name. -/
def OnList (env : Env α) (l : List α) : Op α → List α → Prop
  | .pushBack x, l' => l' = l ++ [x]
  | .popBack, l' => l' = l.dropLast
  | .insert i x, l' => l' = l.insertIdx i x
  | .erase i, l' => l' = l.eraseIdx i
  | .set i x, l' => l' = l.set i x
  | .resize n, l' => ∃ ds, Defaults env ds ∧ l'.length = n ∧ l' = l.take n ++ ds
  | .reserve _, l' => l' = l
  | .clear, l' => l' = []

/-- The asserted precondition of an operation on a vector of `size` elements. -/
def Op.Valid (size : ℕ) : Op α → Prop
  | .popBack => size ≠ 0
  | .insert i _ => i ≤ size
  | .erase i => i < size
  | .set i _ => i < size
  | _ => True

/-- The size an operation asks for. -/
def Op.request (size : ℕ) : Op α → ℕ
  | .pushBack _ | .insert _ _ => size + 1
  | .popBack | .erase _ => size - 1
  | .set _ _ => size
  | .resize n | .reserve n => n
  | .clear => 0

/-- The size an operation leaves. -/
def Op.sizeAfter (size : ℕ) : Op α → ℕ
  | .reserve _ => size
  | op => op.request size

/-- Operations whose preconditions hold one after another and whose sizes stay below `2 ^ 60`. -/
def ValidRun : ℕ → List (Op α) → Prop
  | _, [] => True
  | size, op :: ops => (op.Valid size ∧ op.request size < 2 ^ 60) ∧ ValidRun (op.sizeAfter size) ops

theorem Grows.of_resize {c n size c' : ℕ} (hs : size ≤ c)
    (h : Grows c (if n ≤ size then 0 else n) c') : Grows c n c' := by
  split_ifs at h with hn
  · rcases h with ⟨-, rfl⟩ | ⟨hc, -⟩
    · exact .inl ⟨by omega, rfl⟩
    · omega
  · exact h

theorem vectorResize_grows (env : Env α) (hv : v.size ≤ v.capacity) {n : ℕ} (hn : n < 2 ^ 60) :
    ∃ v', vectorResize env v n = some v' ∧ Grows v.capacity n v'.capacity := by
  obtain ⟨v', h, hg⟩ := vectorResize_returns env v hn
  exact ⟨v', h, hg.of_resize hv⟩

/-- `v'` is what the list operation and the reallocation law make of `v`. -/
structure Follows (env : Env α) (v : Vec α) (op : Op α) (v' : Vec α) : Prop where
  contents : OnList env (contents v) op (contents v')
  size : v'.size = op.sizeAfter v.size
  room : v'.size ≤ v'.capacity
  capacity : Grows v.capacity (op.request v.size) v'.capacity

/-- Each operation returns and does what the list operation does. -/
theorem apply_follows (hcopy : ∀ t x, env.copyConstructor t x = x) (hv : v.size ≤ v.capacity)
    {op : Op α} (hvalid : op.Valid v.size) (hn : op.request v.size < 2 ^ 60) :
    ∃ v', op.apply env v = some v' ∧ Follows env v op v' := by
  cases op with
  | pushBack x =>
    obtain ⟨u, hu, hg⟩ := vectorResize_grows env hv hn
    have happ : vectorPushBack env v x = some _ := Option.map_eq_some_iff.mpr ⟨u, hu, rfl⟩
    obtain ⟨hsize, -, hroom, t, ht⟩ := vectorPushBack_spec hv happ
    rw [hcopy] at ht
    exact ⟨_, happ, ht, hsize, by omega, hg⟩
  | popBack =>
    obtain ⟨u, hu, hg⟩ := vectorResize_grows env hv hn
    have happ : vectorPopBack env v = some u := (if_pos hvalid).trans hu
    obtain ⟨-, hsize, hcap, hl⟩ := vectorPopBack_spec hv happ
    exact ⟨u, happ, hl, hsize, by omega, hg⟩
  | insert i x =>
    obtain ⟨u, hu, hg⟩ := vectorResize_grows env hv hn
    have happ : vectorInsert env v i x = some _ :=
      (if_pos hvalid).trans (Option.map_eq_some_iff.mpr ⟨u, hu, rfl⟩)
    obtain ⟨-, hsize, -, hroom, t, ht⟩ := vectorInsert_spec hv happ
    rw [hcopy] at ht
    exact ⟨_, happ, ht, hsize, by omega, by simpa using hg⟩
  | erase i =>
    have hv' : (shiftDown (v.size - i) i (v.destroyAt i)).size ≤
        (shiftDown (v.size - i) i (v.destroyAt i)).capacity := by simpa using hv
    obtain ⟨u, hu, hg⟩ := vectorResize_grows env hv' (n := v.size - 1) hn
    have happ : vectorErase env v i = some u := (if_pos hvalid).trans (by simpa using hu)
    obtain ⟨-, hsize, hcap, hl⟩ := vectorErase_spec hv happ
    exact ⟨u, happ, hl, hsize, by omega, by simpa [Op.request] using hg⟩
  | set i x =>
    have happ : vectorSet env v i x = some _ := if_pos hvalid
    obtain ⟨-, hsize, hcap, t, ht⟩ := vectorSet_spec happ
    rw [hcopy] at ht
    exact ⟨_, happ, ht, hsize, by omega, .inl ⟨hv, hcap⟩⟩
  | resize n =>
    obtain ⟨u, hu, hg⟩ := vectorResize_grows env hv (n := n) hn
    obtain ⟨hsize, -, hroom, ds, hds, hl⟩ := vectorResize_spec hv hu
    exact ⟨u, hu, ⟨ds, hds, by simpa using hsize, hl⟩, hsize, by omega, hg⟩
  | reserve n =>
    obtain ⟨u, hu, hg⟩ := vectorReserve_returns env v (n := n) hn
    have hres := vectorReserve_spec hu
    exact ⟨u, hu, hres.contents hv, hres.size, by have := hres.size; have := hres.le; omega, hg⟩
  | clear =>
    obtain ⟨u, hu, hg⟩ := vectorResize_grows env hv (n := 0) hn
    obtain ⟨hsize, -, -, -⟩ := vectorResize_spec hv hu
    exact ⟨u, hu, List.length_eq_zero_iff.mp (by simpa using hsize), hsize, by omega, hg⟩

theorem runOps_follows (hcopy : ∀ t x, env.copyConstructor t x = x) {ops : List (Op α)} :
    ∀ {v : Vec α}, v.size ≤ v.capacity → ValidRun v.size ops →
      ∃ v', runOps env v ops = some v' ∧ Run (OnList env) (contents v) ops (contents v') ∧
        v'.size ≤ v'.capacity := by
  induction ops with
  | nil => exact fun {v} hv _ => ⟨v, rfl, .refl, hv⟩
  | cons op ops ih =>
    intro v hv ⟨⟨hvalid, hn⟩, hrest⟩
    obtain ⟨u, hu, hf⟩ := apply_follows hcopy hv hvalid hn
    obtain ⟨v', h, hrun, hv'⟩ := ih hf.room (hf.size ▸ hrest)
    exact ⟨v', by rw [runOps, hu]; exact h, .head hf.contents hrun, hv'⟩

/-- Every run of valid calls from `vector_create` returns, holds the list that the list
operations give, and obeys the reallocation law at the next call. -/
theorem vectorCreate_refines (hcopy : ∀ t x, env.copyConstructor t x = x) :
    (vectorCreate env).capacity = 8 ∧ ∀ ops : List (Op α), ValidRun 0 ops →
      ∃ v, runOps env (vectorCreate env) ops = some v ∧
        Run (OnList env) [] ops (contents v) ∧ v.size ≤ v.capacity ∧
        ∀ op : Op α, op.Valid v.size → op.request v.size < 2 ^ 60 →
          ∃ v', op.apply env v = some v' ∧ Follows env v op v' := by
  refine ⟨rfl, fun ops hops => ?_⟩
  obtain ⟨v, h, hrun, hv⟩ := runOps_follows (v := vectorCreate env) hcopy (Nat.zero_le _) hops
  exact ⟨v, h, hrun, hv, fun op hvalid hn => apply_follows hcopy hv hvalid hn⟩

/-- Callbacks that copy a number, on memory full of 9. -/
def numbers : Env ℕ :=
  { copyConstructor := fun _ x => x, defaultConstructor := fun _ => 0, fresh := fun _ _ => 9 }

theorem vectorCreate_refines_erase :
    ∃ v, runOps numbers (vectorCreate numbers) [.resize 9, .insert 0 7, .erase 9] = some v ∧
      Run (OnList numbers) [] [.resize 9, .insert 0 7, .erase 9] (contents v) ∧
      v.size ≤ v.capacity := by
  have hcopy : ∀ t x, numbers.copyConstructor t x = x := fun _ _ => rfl
  obtain ⟨v, h, hrun, hv, -⟩ := (vectorCreate_refines hcopy).2 [.resize 9, .insert 0 7, .erase 9]
    (by simp [ValidRun, Op.Valid, Op.request, Op.sizeAfter])
  exact ⟨v, h, hrun, hv⟩

end Cs241.Vector
