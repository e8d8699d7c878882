import Cs241.Foundation.Loops
import Cs241.Vector.Refinement
import Mathlib.Tactic.Ring

/-!
# Requests of any size

`get_new_capacity` doubles a number of 64 bits and `vector_reserve` multiplies the result by 8. Up
to `2 ^ 60` places neither wraps. Beyond, the product wraps to 0 bytes, and from `2 ^ 63 + 1` on the
doubling itself wraps to 0, where the loop stays.
-/
namespace Cs241.Vector

open Foundation

/-- The loop of `get_new_capacity(target)`, one round. -/
def capacityRound (target newCapacity : ℕ) : Round ℕ ℕ :=
  if newCapacity < target then .next (newCapacity * 2 % 2 ^ 64) else .exit newCapacity

/-- The functions that ask for places. -/
inductive Call
  | reserve
  | resize

variable {α : Type*} (env : Env α)

def Call.apply (v : Vec α) (n : ℕ) : Call → Option (Vec α)
  | .reserve => vectorReserve env v n
  | .resize => vectorResize env v n

/-- The call gets to `get_new_capacity(n)`. -/
def Call.Enters (v : Vec α) (n : ℕ) : Call → Prop
  | .reserve => v.capacity < n
  | .resize => v.size < n ∧ v.capacity < n

/-- The call passes so many bytes to `realloc`. -/
def Call.Reallocates (call : Call) (v : Vec α) (n bytes : ℕ) : Prop :=
  call.Enters v n ∧ ∃ c, Ends (capacityRound n) 1 c ∧ bytes = c * 8 % 2 ^ 64

/-- A call that needs more capacity finds one, and passes 8 bytes for each of a power of two of
places that is enough, or is refused and leaves the vector. -/
structure Call.Meets (call : Call) (v : Vec α) (n : ℕ) : Prop where
  terminates : call.Enters v n → ∃ c, Ends (capacityRound n) 1 c
  bytes_eq : ∀ bytes, call.Reallocates v n bytes → ∃ k, n ≤ 2 ^ k ∧ bytes = 8 * 2 ^ k
  refused : call.Enters v n → (¬ ∃ bytes, call.Reallocates v n bytes) → call.apply env v n = some v

/-! ## The loop -/

section Capacity

variable {n c : ℕ}

theorem doubleUntil_eq_iterate (fuel c n : ℕ) :
    doubleUntil fuel c n = iterate (capacityRound n) fuel c := by
  induction fuel generalizing c with
  | zero => rfl
  | succ fuel ih =>
    rw [doubleUntil, iterate, capacityRound]
    split_ifs with h
    · exact ih _
    · rfl

/-- No number that the loop comes to is as large as `n`. -/
theorem not_ends_capacityRound (h : 2 ^ 63 < n) : ¬ Ends (capacityRound n) 1 c := by
  refine Ends.not_of_invariant (I := fun c => c = 0 ∨ ∃ k ≤ 63, c = 2 ^ k) (fun c hc => ?_)
    (.inr ⟨0, by norm_num, rfl⟩)
  have hlt : c < n := by
    rcases hc with rfl | ⟨k, hk, rfl⟩
    · omega
    · exact (Nat.pow_le_pow_right (by norm_num) hk).trans_lt h
  refine .inr ⟨_, if_pos hlt, ?_⟩
  rcases hc with rfl | ⟨k, hk, rfl⟩
  · exact .inl rfl
  rcases Nat.lt_or_eq_of_le hk with hk | rfl
  · refine .inr ⟨k + 1, hk, ?_⟩
    rw [← pow_succ]
    exact Nat.mod_eq_of_lt (Nat.pow_lt_pow_right (by norm_num) (by omega))
  · exact .inl rfl

theorem exists_ends_capacityRound (h : n ≤ 2 ^ 63) :
    ∃ k, Ends (capacityRound n) 1 (2 ^ k) ∧ n ≤ 2 ^ k ∧ (n ≤ 2 ^ 60 → k ≤ 60) := by
  obtain ⟨c, hc, -, ⟨⟨k, rfl⟩, hle⟩, hleast⟩ :=
    doubleUntil_spec (by norm_num) h 65 0 (by norm_num) (by norm_num) (by simp)
  rw [doubleUntil_eq_iterate] at hc
  refine ⟨k, ⟨65, hc⟩, hle, fun hn => ?_⟩
  exact (Nat.pow_le_pow_iff_right (by norm_num)).mp (hleast ⟨⟨60, rfl⟩, hn⟩)

/-- The model of `get_new_capacity` runs the loop for long enough. -/
theorem getNewCapacity_eq_some_iff : getNewCapacity n = some c ↔ Ends (capacityRound n) 1 c := by
  rw [getNewCapacity, doubleUntil_eq_iterate]
  refine ⟨fun h => ⟨65, h⟩, fun h => ?_⟩
  rcases Nat.lt_or_ge (2 ^ 63) n with hn | hn
  · exact absurd h (not_ends_capacityRound hn)
  · obtain ⟨d, hd, -⟩ := doubleUntil_spec (by norm_num) hn 65 0 (by norm_num) (by norm_num) (by simp)
    rw [doubleUntil_eq_iterate] at hd
    exact h.unique ⟨65, hd⟩ ▸ hd

/-- Eight times a power of two from `2 ^ 61` on has no bit below the 64th. -/
theorem eight_mul_emod {k : ℕ} (h : 60 < k) : 2 ^ k * 8 % 2 ^ 64 = 0 := by
  obtain ⟨j, rfl⟩ := Nat.exists_eq_add_of_lt h
  exact Nat.mod_eq_zero_of_dvd ⟨2 ^ j, by ring⟩

end Capacity

/-! ## The calls -/

section Calls

variable {env} {v v' : Vec α} {n : ℕ} {call : Call}

/-- What a call that enters and returns has passed to `realloc` is in the log of `vector_reserve`,
and is not nothing. -/
theorem vectorReserve_reallocates (hn : v.capacity < n) (h : vectorReserve env v n = some v') :
    ∃ bytes, Call.reserve.Reallocates v n bytes ∧ bytes ≠ 0 ∧ v'.log = .realloc bytes :: v.log := by
  rw [vectorReserve, if_neg (by omega)] at h
  obtain ⟨c, hc, hbytes⟩ := Option.bind_eq_some_iff.mp h
  dsimp only at hbytes
  split_ifs at hbytes with hzero
  obtain rfl := Option.some.inj hbytes
  exact ⟨_, ⟨hn, c, getNewCapacity_eq_some_iff.mp hc, rfl⟩, hzero, rfl⟩

theorem Call.Meets.of_le (h : n ≤ 2 ^ 60) : call.Meets env v n := by
  obtain ⟨k, hends, hle, hk⟩ := exists_ends_capacityRound (h.trans (by norm_num))
  refine ⟨fun _ => ⟨_, hends⟩, ?_, fun henters hnone => ?_⟩
  · rintro bytes ⟨-, c, hc, rfl⟩
    obtain rfl := hends.unique hc
    have hbound : 2 ^ k ≤ 2 ^ 60 := Nat.pow_le_pow_right (by norm_num) (hk h)
    exact ⟨k, hle, by rw [Nat.mod_eq_of_lt (by omega), Nat.mul_comm]⟩
  · exact absurd ⟨_, henters, _, hends, rfl⟩ hnone

theorem Call.Meets.of_not_enters (h : ¬ call.Enters v n) : call.Meets env v n :=
  ⟨fun henters => absurd henters h, fun _ hrealloc => absurd hrealloc.1 h,
    fun henters => absurd henters h⟩

/-- Beyond `2 ^ 60` either the bytes wrap to none at all or the loop does not end. -/
theorem Call.Meets.le (h : call.Meets env v n) (henters : call.Enters v n) : n ≤ 2 ^ 60 := by
  by_contra hn
  obtain ⟨c, hc⟩ := h.terminates henters
  rcases Nat.lt_or_ge (2 ^ 63) n with hlarge | hlarge
  · exact not_ends_capacityRound hlarge hc
  · obtain ⟨k, hends, hle, -⟩ := exists_ends_capacityRound hlarge
    have hk : 60 < k := by
      by_contra hk
      have hbound : 2 ^ k ≤ 2 ^ 60 := Nat.pow_le_pow_right (by norm_num) (by omega)
      omega
    obtain ⟨j, -, hj⟩ := h.bytes_eq 0 ⟨henters, _, hends, (eight_mul_emod hk).symm⟩
    have hpos := Nat.two_pow_pos j
    omega

end Calls

end Cs241.Vector
