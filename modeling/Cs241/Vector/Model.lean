import Mathlib.Algebra.Order.Monoid.Unbundled.Pow
import Mathlib.Data.Nat.Basic
import Mathlib.Logic.Function.Basic
import Mathlib.Order.Bounds.Basic
import Mathlib.Tactic.NormNum

/-!
# The growable array of `vector/vector.c`

A vector holds pointers of an arbitrary type `α`. The callbacks may answer
differently at every call, so they get the number of events so far; slots that
`malloc` or `realloc` provides hold arbitrary values. Every call of a
constructor or of the destructor, every index used into the array and every
`realloc` is recorded, newest first.

An operation answers `none` where the source does not return: an assertion
fails, or `get_new_capacity` runs for ever.
-/
namespace Cs241.Vector

/-- What an operation did to the outside. -/
inductive Event (α : Type*)
  | construct (x : α)
  | destroy (x : α)
  | access (i capacity : ℕ)
  | realloc (bytes : ℕ)

/-- The callbacks of the vector and the contents of fresh memory. -/
structure Env (α : Type*) where
  copyConstructor : ℕ → α → α
  defaultConstructor : ℕ → α
  fresh : ℕ → ℕ → α

structure Vec (α : Type*) where
  array : ℕ → α
  size : ℕ
  capacity : ℕ
  log : List (Event α)

variable {α : Type*} (env : Env α)

namespace Vec

variable (v : Vec α)

/-- Call the destructor on `array[i]`. -/
def destroyAt (i : ℕ) : Vec α :=
  { v with log := .destroy (v.array i) :: .access i v.capacity :: v.log }

/-- Store a newly constructed object in `array[i]`. -/
def constructAt (i : ℕ) (x : α) : Vec α :=
  { v with array := Function.update v.array i x,
           log := .access i v.capacity :: .construct x :: v.log }

/-- `array[dst] = array[src]`. -/
def move (src dst : ℕ) : Vec α :=
  { v with array := Function.update v.array dst (v.array src),
           log := .access dst v.capacity :: .access src v.capacity :: v.log }

end Vec

/-- The loop of `get_new_capacity`, on 64-bit numbers. -/
def doubleUntil : ℕ → ℕ → ℕ → Option ℕ
  | 0, _, _ => none
  | fuel + 1, newCapacity, target =>
    if newCapacity < target then doubleUntil fuel (newCapacity * 2 % 2 ^ 64) target
    else some newCapacity

/-- After 64 doublings the capacity has wrapped to 0 and stays there. -/
def getNewCapacity (target : ℕ) : Option ℕ := doubleUntil 65 1 target

def vectorCreate : Vec α := { array := env.fresh 0, size := 0, capacity := 8, log := [] }

/-- `realloc` of no bytes answers `NULL`, on which the assertion fails. -/
def vectorReserve (v : Vec α) (n : ℕ) : Option (Vec α) :=
  if n ≤ v.capacity then some v
  else
    (getNewCapacity n).bind fun newCapacity =>
      let bytes := newCapacity * 8 % 2 ^ 64
      if bytes = 0 then none
      else some { v with
        array := fun i => if i < v.capacity then v.array i else env.fresh v.log.length i
        capacity := newCapacity
        log := .realloc bytes :: v.log }

/-- `for (i = n; i < size; i++) destructor(vector_get(this, i))`, for `k` rounds. -/
def destroyLoop : ℕ → ℕ → Vec α → Vec α
  | 0, _, v => v
  | k + 1, i, v => destroyLoop k (i + 1) (v.destroyAt i)

/-- `for (i = size; i < n; i++) array[i] = default_constructor()`, for `k` rounds. -/
def constructLoop : ℕ → ℕ → Vec α → Vec α
  | 0, _, v => v
  | k + 1, i, v =>
    constructLoop k (i + 1) (v.constructAt i (env.defaultConstructor v.log.length))

def vectorResize (v : Vec α) (n : ℕ) : Option (Vec α) :=
  if n ≤ v.size then
    some { destroyLoop (v.size - n) n v with size := n }
  else
    (vectorReserve env v n).map fun v =>
      { constructLoop env (n - v.size) v.size v with size := n }

/-- `array[position] = copy_constructor(element)`. -/
def copyTo (v : Vec α) (position : ℕ) (element : α) : Vec α :=
  v.constructAt position (env.copyConstructor v.log.length element)

def vectorSet (v : Vec α) (position : ℕ) (element : α) : Option (Vec α) :=
  if position < v.size then some (copyTo env (v.destroyAt position) position element) else none

def vectorPushBack (v : Vec α) (element : α) : Option (Vec α) :=
  (vectorResize env v (v.size + 1)).map fun v =>
    copyTo env (v.destroyAt (v.size - 1)) (v.size - 1) element

def vectorPopBack (v : Vec α) : Option (Vec α) :=
  if v.size ≠ 0 then vectorResize env v (v.size - 1) else none

/-- `for (i = size - 1; i > position; i--) array[i] = array[i - 1]`, for `k` rounds. -/
def shiftUp : ℕ → ℕ → Vec α → Vec α
  | 0, _, v => v
  | k + 1, i, v => shiftUp k (i - 1) (v.move (i - 1) i)

def vectorInsert (v : Vec α) (position : ℕ) (element : α) : Option (Vec α) :=
  if position ≤ v.size then
    (vectorResize env v (v.size + 1)).map fun v =>
      let v := v.destroyAt (v.size - 1)
      copyTo env (shiftUp (v.size - 1 - position) (v.size - 1) v) position element
  else none

/-- `for (i = position; i < size; i++) array[i] = array[i + 1]`, for `k` rounds. -/
def shiftDown : ℕ → ℕ → Vec α → Vec α
  | 0, _, v => v
  | k + 1, i, v => shiftDown k (i + 1) (v.move (i + 1) i)

/-- The last round of the shift reads `array[size]`, and the shrinking `vector_resize` then
passes what it found there to the destructor. -/
def vectorErase (v : Vec α) (position : ℕ) : Option (Vec α) :=
  if position < v.size then
    let v := shiftDown (v.size - position) position (v.destroyAt position)
    vectorResize env v (v.size - 1)
  else none

def vectorClear (v : Vec α) : Option (Vec α) := vectorResize env v 0

/-- What remains of the vector is only its record: the array and the struct are freed. -/
def vectorDestroy (v : Vec α) : Option (Vec α) := vectorClear env v

inductive Op (α : Type*)
  | pushBack (element : α)
  | popBack
  | insert (position : ℕ) (element : α)
  | erase (position : ℕ)
  | set (position : ℕ) (element : α)
  | resize (n : ℕ)
  | reserve (n : ℕ)
  | clear

def Op.apply (v : Vec α) : Op α → Option (Vec α)
  | .pushBack x => vectorPushBack env v x
  | .popBack => vectorPopBack env v
  | .insert i x => vectorInsert env v i x
  | .erase i => vectorErase env v i
  | .set i x => vectorSet env v i x
  | .resize n => vectorResize env v n
  | .reserve n => vectorReserve env v n
  | .clear => vectorClear env v

def Op.isErase : Op α → Bool
  | .erase _ => true
  | _ => false

/-- Operations one after another, as long as each returns. -/
def runOps (v : Vec α) : List (Op α) → Option (Vec α)
  | [] => some v
  | op :: ops => (op.apply env v).bind fun v => runOps v ops

/-- From `vector_create` to `vector_destroy`. -/
def runFull (ops : List (Op α)) : Option (Vec α) :=
  (runOps env (vectorCreate env) ops).bind (vectorDestroy env)

theorem runOps_append (v : Vec α) (ops ops' : List (Op α)) :
    runOps env v (ops ++ ops') = (runOps env v ops).bind fun v => runOps env v ops' := by
  induction ops generalizing v with
  | nil => rfl
  | cons op ops ih =>
    simp only [List.cons_append, runOps, Option.bind_assoc]
    congr 1
    funext v
    exact ih v

/-! ## Capacity -/

/-- The law of reallocation: a request beyond `c` moves the capacity to the least power of two
that holds it, any other leaves it. -/
def Grows (c n c' : ℕ) : Prop :=
  (n ≤ c ∧ c' = c) ∨ (c < n ∧ IsLeast {p | (∃ k, p = 2 ^ k) ∧ n ≤ p} c')

theorem Grows.le {c n c' : ℕ} (h : Grows c n c') : c ≤ c' ∧ n ≤ c' := by
  rcases h with ⟨hn, rfl⟩ | ⟨hn, hleast⟩
  · exact ⟨le_rfl, hn⟩
  · have hle := hleast.1.2
    exact ⟨by omega, hle⟩

/-- Started at a power of two whose half is too small, doubling ends at the least power that
is large enough. -/
theorem doubleUntil_spec {target e : ℕ} (he : e < 64) (hle : target ≤ 2 ^ e) :
    ∀ fuel k : ℕ, k ≤ e → e - k < fuel → (∀ j < k, 2 ^ j < target) →
      ∃ c, doubleUntil fuel (2 ^ k) target = some c ∧ c ≤ 2 ^ e ∧
        IsLeast {p | (∃ k, p = 2 ^ k) ∧ target ≤ p} c := by
  intro fuel
  induction fuel with
  | zero => intro k _ hf; omega
  | succ fuel ih =>
    intro k hke hf hlow
    rw [doubleUntil]
    split_ifs with hk
    · have hne : k ≠ e := by
        rintro rfl
        omega
      have hmod : 2 ^ k * 2 % 2 ^ 64 = 2 ^ (k + 1) := by
        rw [← pow_succ]
        exact Nat.mod_eq_of_lt (Nat.pow_lt_pow_right (by norm_num) (by omega))
      rw [hmod]
      apply ih (k + 1) (by omega) (by omega)
      intro j hj
      rcases Nat.lt_succ_iff_lt_or_eq.mp hj with hj | rfl
      exacts [hlow j hj, hk]
    · refine ⟨2 ^ k, rfl, Nat.pow_le_pow_right (by norm_num) hke, ⟨⟨k, rfl⟩, by omega⟩, ?_⟩
      rintro _ ⟨⟨j, rfl⟩, hj⟩
      apply Nat.pow_le_pow_right (by norm_num)
      by_contra hjk
      exact absurd (hlow j (by omega)) (by omega)

theorem getNewCapacity_spec {target : ℕ} (h : target ≤ 2 ^ 60) :
    ∃ c, getNewCapacity target = some c ∧ c ≤ 2 ^ 60 ∧
      IsLeast {p | (∃ k, p = 2 ^ k) ∧ target ≤ p} c :=
  doubleUntil_spec (by norm_num) h 65 0 (by norm_num) (by norm_num) (by simp)

end Cs241.Vector
