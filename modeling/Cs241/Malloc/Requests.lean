import Mathlib.Order.Bounds.Basic
import Mathlib.Tactic.IntervalCases
import Cs241.Malloc.Safety

/-!
# Sizes near the limits of 64 bits

The header is added to a request and the sum is rounded up in 64-bit arithmetic,
which wraps for the last fifteen sizes; `calloc` multiplies in the same arithmetic.
What `malloc` then hands out is far too small, and it never returns `NULL`.
-/
namespace Cs241.Malloc

open Foundation

variable {base : ℕ} {w w' : World} {h : Heap} {bs fl : List Block}

theorem roundRequest_wraps {size : ℕ} (hlt : size < 2 ^ 64) (hw : ¬ NoWrap size) :
    roundRequest size ≤ 8 := by
  unfold NoWrap at hw
  unfold roundRequest
  rw [if_neg (by omega)]
  dsimp only
  by_cases hsum : size + 8 < 2 ^ 64
  · obtain ⟨k, hk, hk7, hsize⟩ : ∃ k, 1 ≤ k ∧ k ≤ 7 ∧ size + 8 = 2 ^ 64 - k :=
      ⟨2 ^ 64 - (size + 8), by omega, by omega, by omega⟩
    rw [hsize]
    interval_cases k <;> decide
  · obtain ⟨k, hk7, hsize⟩ : ∃ k, k ≤ 7 ∧ (size + 8) % 2 ^ 64 = k :=
      ⟨size + 8 - 2 ^ 64, by omega, by omega⟩
    rw [hsize]
    interval_cases k <;> decide

/-- What a caller of `malloc` relies on: the least multiple of eight with room for the header and
the request. -/
theorem roundRequest_isLeast_iff {size : ℕ} (hlt : size < 2 ^ 64) :
    IsLeast {n | n % 8 = 0 ∧ max size 24 + 8 ≤ n} (roundRequest size) ↔ NoWrap size := by
  constructor
  · rintro ⟨⟨-, hroom⟩, -⟩
    by_contra hw
    have hsmall := roundRequest_wraps hlt hw
    omega
  · intro hw
    obtain ⟨haligned, hroom, hleast⟩ := roundRequest_spec hw
    exact ⟨⟨haligned, hroom⟩, fun n ⟨hn, hle⟩ => by omega⟩

/-- The first listed node that passes the fit test heads a block with room for the request, and if
none passes then the request does not wrap. -/
def Roomy (h : Heap) (size : ℕ) : Prop :=
  (∀ pre x post, Chain h.mem h.head (pre ++ x :: post) →
    (∀ y ∈ pre, fitWord h.mem y < roundRequest (size % 2 ^ 64)) →
    roundRequest (size % 2 ^ 64) ≤ fitWord h.mem x →
      size + 8 ≤ getSize h.mem (nodeSize h.mem x)) ∧
  ∀ xs, Chain h.mem h.head xs → (∀ y ∈ xs, fitWord h.mem y < roundRequest (size % 2 ^ 64)) →
    NoWrap size

theorem HeapInv.chain (hi : HeapInv base h bs fl) : Chain h.mem h.head (fl.map Block.node) := by
  rw [hi.list.head]
  exact chain_of_seg hi.list.links hi.list.nodes.pos

theorem HeapInv.roomy_fresh_iff {size : ℕ} (hi : HeapInv base h bs fl)
    (hall : ∀ c ∈ fl, fitWord h.mem c.node < roundRequest (size % 2 ^ 64)) :
    Roomy h size ↔ NoWrap size := by
  have hnodes : ∀ y ∈ fl.map Block.node, fitWord h.mem y < roundRequest (size % 2 ^ 64) :=
    List.forall_mem_map.mpr hall
  refine ⟨fun hr => hr.2 _ hi.chain hnodes, fun hw => ⟨fun pre x post hc _ hfit => ?_,
    fun _ _ _ => hw⟩⟩
  have hx : x ∈ fl.map Block.node := hi.chain.unique hc ▸ by simp
  exact absurd (hnodes x hx) (by omega)

/-- The first node of a list that passes the fit test. -/
theorem first_unique {m : Mem} {space x x' : ℕ} {pre post pre' post' : List ℕ}
    (hpre : ∀ y ∈ pre, fitWord m y < space) (hfit : space ≤ fitWord m x)
    (hpre' : ∀ y ∈ pre', fitWord m y < space) (hfit' : space ≤ fitWord m x')
    (heq : pre ++ x :: post = pre' ++ x' :: post') : x = x' := by
  have hfind : ∀ {pre x post}, (∀ y ∈ pre, fitWord m y < space) → space ≤ fitWord m x →
      (pre ++ x :: post).find? (fun y => space ≤ fitWord m y) = some x := by
    intro pre x post hpre hfit
    rw [List.find?_eq_some_iff_append]
    exact ⟨by simpa using hfit, pre, post, rfl, fun y hy => by simpa using hpre y hy⟩
  have hx : some x = some x' := by rw [← hfind hpre hfit, heq, hfind hpre' hfit']
  exact Option.some.inj hx

theorem HeapInv.roomy_reuse_iff {size : ℕ} {pre post : List Block} {b : Block}
    (hi : HeapInv base h bs (pre ++ b :: post))
    (hfit : roundRequest (size % 2 ^ 64) ≤ fitWord h.mem b.node)
    (hpre : ∀ c ∈ pre, fitWord h.mem c.node < roundRequest (size % 2 ^ 64)) :
    Roomy h size ↔ size + 8 ≤ b.size := by
  have hheader : getSize h.mem (nodeSize h.mem b.node) = b.size := by
    rw [hi.sizes b (by simp), hi.getSize_payload (hi.free_sub (by simp))]
  have hchain : Chain h.mem h.head (pre.map Block.node ++ b.node :: post.map Block.node) := by
    simpa using hi.chain
  constructor
  · intro hr
    rw [← hheader]
    exact hr.1 _ _ _ hchain (List.forall_mem_map.mpr hpre) hfit
  · intro hroom
    refine ⟨fun pre' x post' hc hpre' hfit' => ?_, fun xs hc hall => ?_⟩
    · have hx := first_unique hpre' hfit' (List.forall_mem_map.mpr hpre) hfit (hc.unique hchain)
      rw [hx, hheader]
      exact hroom
    · obtain rfl := hchain.unique hc
      exact absurd (hall b.node (by simp)) (by omega)

/-- What `malloc` hands out has room for the request before it was cut to 64 bits, if and only if
the condition holds. -/
theorem HeapInv.malloc_room_iff {fuel size p : ℕ} {h' : Heap} (hi : HeapInv base h bs fl)
    (hm : Malloc.malloc fuel h (size % 2 ^ 64) = some (p, h')) :
    size + 8 ≤ getSize h'.mem p ↔ Roomy h size := by
  rcases hi.malloc_cases hm with ⟨rfl, hbrk, hall, rfl⟩ | ⟨pre, b, post, rfl, rfl, rfl, hfit, hpre⟩
  · rw [hi.roomy_fresh_iff hall, getSize, Nat.add_sub_cancel]
    dsimp only
    rw [readWord_writeWord (by omega)]
    constructor
    · intro hroom
      have hlt : size < 2 ^ 64 := by omega
      rw [Nat.mod_eq_of_lt hlt] at hroom
      by_contra hw
      have hsmall := roundRequest_wraps hlt hw
      unfold NoWrap at hw
      omega
    · intro hw
      rw [hw.mod_eq]
      have hround := roundRequest_spec hw
      omega
  · rw [hi.roomy_reuse_iff hfit hpre, hi.reuse.1.getSize_payload (hi.free_sub (by simp))]

/-- A request that gets the room it needs does not wrap. -/
theorem HeapInv.noWrap_of_roomy {fuel size p : ℕ} {h' : Heap} (hi : HeapInv base h bs fl)
    (hr : Roomy h size) (hm : Malloc.malloc fuel h (size % 2 ^ 64) = some (p, h')) :
    NoWrap size := by
  rcases hi.malloc_cases hm with ⟨-, -, hall, -⟩ | ⟨pre, b, post, rfl, -, -, hfit, hpre⟩
  · exact (hi.roomy_fresh_iff hall).mp hr
  · have hroom := (hi.roomy_reuse_iff hfit hpre).mp hr
    have hfin := (hi.tiles.bounds.2 b (hi.free_sub (by simp))).2
    have hbrk := hi.brk
    have haligned := b.aligned
    unfold NoWrap
    simp only [Block.fin] at hfin
    omega

/-! ## Runs -/

/-- Every `calloc` so far had room for what it cleared. -/
def CallocRoomy (w : World) : Op → Prop
  | .calloc num size => Roomy w.heap (num * size)
  | _ => True

theorem Inv.step_callocRoomy {op : Op} (hi : Inv base w bs fl)
    (hs : Guarded (Step Physical) CallocRoomy w op w') : ∃ bs' fl', Inv base w' bs' fl' := by
  obtain ⟨hg, hs⟩ := hs
  cases hs with
  | malloc hw hm =>
    obtain ⟨bs', fl', hi', -⟩ := hi.malloc hw hm
    exact ⟨bs', fl', hi'⟩
  | calloc hw hm =>
    obtain ⟨⟨p, h⟩, hm', heq⟩ := Option.map_eq_some_iff.mp hm
    obtain ⟨rfl, rfl⟩ := Prod.mk.inj heq
    have hroom := (hi.toHeapInv.malloc_room_iff hm').mpr hg
    rw [hw.mod_eq] at hm' ⊢
    obtain ⟨bs', fl', hi', -⟩ := hi.malloc hw hm'
    exact ⟨bs', fl', hi'.write_physical (by simp) le_rfl (by dsimp only; omega)
      fun _ ha => fill_of_lt ha⟩
  | free hp =>
    obtain ⟨b, hinv⟩ := hi.free hp
    exact ⟨_, _, hinv⟩
  | freeNull => exact ⟨bs, fl, by simpa [Malloc.free] using hi⟩
  | store hmay => exact ⟨bs, fl, hi.store hmay⟩

/-- The break that `malloc` moves, where no listed node passes the fit test. -/
theorem malloc_sbrk {fuel size p : ℕ} {h' : Heap}
    (hnone : findNode h.mem (roundRequest size) fuel h.head = some 0)
    (hm : Malloc.malloc fuel h size = some (p, h')) :
    p = h.brk + 8 ∧ h'.brk - h.brk = roundRequest size := by
  unfold Malloc.malloc at hm
  dsimp only at hm
  rw [hnone, Option.bind_some, if_neg (by simp), sbrk] at hm
  split_ifs at hm with hbrk
  · obtain ⟨rfl, rfl⟩ := Prod.mk.inj (Option.some.inj hm)
    exact ⟨rfl, by dsimp only; omega⟩
  · simp at hm

end Cs241.Malloc
