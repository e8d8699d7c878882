import Cs241.Foundation.ByteMemory
import Cs241.Foundation.Runs

/-!
# The allocator of `malloc/alloc.c`

A block is a `size_t` header followed by its payload; a freed block carries a
`struct node` in the last 24 bytes of its payload. All state is in the bytes of
memory plus the two globals and the program break, so the heap model keeps the
bytes and reads every header and every pointer back from them.

The postfix operators in `*(ptr->size)--` and `*(this->size)++` apply to the
pointer: they move `ptr->size` by one `size_t` and leave the header as it is.
-/
namespace Cs241.Malloc

open Foundation

/-- Memory, the globals `head` and `tail`, and the program break. -/
structure Heap where
  mem : Mem
  head : ℕ
  tail : ℕ
  brk : ℕ

/-- The word at offset `k` of the `struct node` at `x`. -/
def field (m : Mem) (x k : ℕ) : ℕ := readWord m (x + k)

def setField (m : Mem) (x k v : ℕ) : Mem := writeWord m (x + k) v

/-- `x->size`, a pointer to a `size_t`. -/
abbrev nodeSize (m : Mem) (x : ℕ) : ℕ := field m x 0

/-- `x->next`. -/
abbrev nodeNext (m : Mem) (x : ℕ) : ℕ := field m x 8

/-- `x->prev`. -/
abbrev nodePrev (m : Mem) (x : ℕ) : ℕ := field m x 16

def getSize (m : Mem) (ptr : ℕ) : ℕ := readWord m (ptr - 8)

def getSizePtr (ptr : ℕ) : ℕ := ptr - 8

def getPtr (ptr : ℕ) : ℕ := ptr + 8

/-- `remove_node`: unlink `ptr`, then step `ptr->size` back to the header. -/
def removeNode (h : Heap) (ptr : ℕ) : Heap :=
  if ptr = 0 then h
  else
    let h :=
      if nodePrev h.mem ptr ≠ 0 ∧ nodeNext h.mem ptr ≠ 0 then
        let m := setField h.mem (nodePrev h.mem ptr) 8 (nodeNext h.mem ptr)
        { h with mem := setField m (nodeNext m ptr) 16 (nodePrev m ptr) }
      else if nodePrev h.mem ptr ≠ 0 then
        { h with mem := setField h.mem (nodePrev h.mem ptr) 8 0 }
      else if nodeNext h.mem ptr ≠ 0 then
        let m := setField h.mem (nodeNext h.mem ptr) 16 0
        { h with head := nodeNext h.mem ptr, mem := setField m ptr 8 0 }
      else { h with head := 0 }
    { h with mem := setField h.mem ptr 0 (nodeSize h.mem ptr - 8) }

/-- `while (space % 8 != 0) space++`, on 64-bit numbers. -/
def alignUp : ℕ → ℕ → ℕ
  | 0, space => space
  | fuel + 1, space => if space % 8 ≠ 0 then alignUp fuel ((space + 1) % 2 ^ 64) else space

/-- The block size `malloc` computes for a request; eight rounds always suffice. -/
def roundRequest (size : ℕ) : ℕ :=
  let space := if size < 24 then 24 else size
  alignUp 8 ((space + 8) % 2 ^ 64)

/-- The word the fit test `*(curr->size) >= space` reads for the node `x`. -/
def fitWord (m : Mem) (x : ℕ) : ℕ := readWord m (nodeSize m x)

/-- The `while (curr)` loop of `malloc`: the first node whose test succeeds, or `NULL`.
It may follow a corrupted list for ever, hence the fuel. -/
def findNode (m : Mem) (space : ℕ) : ℕ → ℕ → Option ℕ
  | 0, _ => none
  | fuel + 1, curr =>
    if curr = 0 then some 0
    else if space ≤ fitWord m curr then some curr
    else findNode m space fuel (nodeNext m curr)

/-- The nodes that loop visits from `curr` until it reads `NULL`. -/
def Chain (m : Mem) : ℕ → List ℕ → Prop
  | curr, [] => curr = 0
  | curr, x :: xs => curr = x ∧ x ≠ 0 ∧ Chain m (nodeNext m x) xs

instance decidableChain (m : Mem) : ∀ curr xs, Decidable (Chain m curr xs)
  | curr, [] => inferInstanceAs (Decidable (curr = 0))
  | curr, x :: xs =>
    have := decidableChain m (nodeNext m x) xs
    inferInstanceAs (Decidable (curr = x ∧ x ≠ 0 ∧ Chain m (nodeNext m x) xs))

/-- A contiguous `sbrk` that succeeds while the break stays an address. -/
def sbrk (h : Heap) (increment : ℕ) : Option (ℕ × Heap) :=
  if h.brk + increment < 2 ^ 64 then some (h.brk, { h with brk := h.brk + increment }) else none

def malloc (fuel : ℕ) (h : Heap) (size : ℕ) : Option (ℕ × Heap) :=
  let space := roundRequest size
  (findNode h.mem space fuel h.head).bind fun curr =>
    if curr ≠ 0 then
      let h := removeNode h curr
      some (getPtr (nodeSize h.mem curr), h)
    else
      (sbrk h space).map fun (block, h) =>
        (getPtr block, { h with mem := writeWord h.mem block space })

def calloc (fuel : ℕ) (h : Heap) (num size : ℕ) : Option (ℕ × Heap) :=
  (malloc fuel h (num * size % 2 ^ 64)).map fun (alloc, h) =>
    (alloc, { h with mem := fill h.mem alloc 0 (num * size % 2 ^ 64) })

def free (h : Heap) (ptr : ℕ) : Heap :=
  if ptr = 0 then h
  else
    let this := (ptr - 8 + getSize h.mem ptr) - 24
    let m := setField h.mem this 0 (getSizePtr ptr)
    let m := setField m this 0 (nodeSize m this + 8)
    if h.head = 0 then
      let m := setField m this 16 0
      { h with mem := setField m this 8 0, head := this, tail := this }
    else
      let m := setField m this 16 0
      let m := setField m this 8 h.head
      { h with mem := setField m h.head 16 this, head := this }

/-- The heap together with the pointers the caller holds and the sizes it asked for. -/
structure World where
  heap : Heap
  live : List (ℕ × ℕ)

/-- The empty free list, with the break at `base` over arbitrary memory. -/
def World.init (m : Mem) (base : ℕ) : World :=
  { heap := { mem := m, head := 0, tail := 0, brk := base }, live := [] }

/-- What a caller may do between two calls is to write single bytes. -/
inductive Op
  | malloc (size : ℕ)
  | calloc (num size : ℕ)
  | free (ptr : ℕ)
  | store (a : ℕ) (b : UInt8)

/-- Neither the rounding of `malloc` nor `num * size` wraps. -/
def NoWrap (size : ℕ) : Prop := size + 16 ≤ 2 ^ 64

instance (size : ℕ) : Decidable (NoWrap size) := inferInstanceAs (Decidable (_ ≤ _))

/-- The caller's bytes: those it asked for. -/
def Requested (w : World) (a : ℕ) : Prop := ∃ x ∈ w.live, x.1 ≤ a ∧ a < x.1 + x.2

/-- The physical payloads of live blocks: header size minus the header. -/
def Physical (w : World) (a : ℕ) : Prop :=
  ∃ x ∈ w.live, x.1 ≤ a ∧ a < x.1 + (getSize w.heap.mem x.1 - 8)

/-- One call of the allocator, or one write of the caller to an address it may write. -/
inductive Step (mayWrite : World → ℕ → Prop) : World → Op → World → Prop
  | malloc {w size fuel p h} : NoWrap size → malloc fuel w.heap size = some (p, h) →
      Step mayWrite w (.malloc size) { heap := h, live := (p, size) :: w.live }
  | calloc {w num size fuel p h} : NoWrap (num * size) →
      calloc fuel w.heap num size = some (p, h) →
      Step mayWrite w (.calloc num size) { heap := h, live := (p, num * size) :: w.live }
  | free {w p size} : (p, size) ∈ w.live →
      Step mayWrite w (.free p) { heap := free w.heap p, live := w.live.erase (p, size) }
  | freeNull {w} : Step mayWrite w (.free 0) { w with heap := free w.heap 0 }
  | store {w a b} : mayWrite w a →
      Step mayWrite w (.store a b)
        { w with heap := { w.heap with mem := fill w.heap.mem a b 1 } }

/-! ## Reading and writing node fields -/

/-- Two node addresses are equal or their 24 bytes do not overlap. -/
def NodeSep (x y : ℕ) : Prop := x = y ∨ x + 24 ≤ y ∨ y + 24 ≤ x

theorem field_lt (m : Mem) (x k : ℕ) : field m x k < 2 ^ 64 := readWord_lt m _

/-- Reading a field after a field write, for the three offsets of `struct node`. -/
theorem field_setField {m : Mem} {x y j k v : ℕ} (hs : NodeSep x y) (hv : v < 2 ^ 64)
    (hj : j = 0 ∨ j = 8 ∨ j = 16) (hk : k = 0 ∨ k = 8 ∨ k = 16) :
    field (setField m x k v) y j = if y = x ∧ j = k then v else field m y j := by
  unfold field setField
  split_ifs with h
  · rw [h.1, h.2, readWord_writeWord hv]
  · apply readWord_writeWord_of_apart
    rcases hs with rfl | hs | hs
    · have hjk : j ≠ k := fun he => h ⟨rfl, he⟩
      rcases hj with rfl | rfl | rfl <;> rcases hk with rfl | rfl | rfl <;> omega
    · omega
    · omega

theorem setField_of_lt {m : Mem} {x k v a : ℕ} (hk : k = 0 ∨ k = 8 ∨ k = 16)
    (ha : a < x ∨ x + 24 ≤ a) : setField m x k v a = m a :=
  writeWord_of_lt (by omega)

/-! ## Rounding -/

theorem alignUp_spec : ∀ fuel s : ℕ, s + 8 ≤ 2 ^ 64 → (8 - s % 8) % 8 < fuel →
    alignUp fuel s % 8 = 0 ∧ s ≤ alignUp fuel s ∧ alignUp fuel s < s + 8
  | 0, s, _, hf => absurd hf (by omega)
  | fuel + 1, s, hs, hf => by
    by_cases hm : s % 8 = 0
    · simp [alignUp, hm]
    · have hmod : (s + 1) % 2 ^ 64 = s + 1 := Nat.mod_eq_of_lt (by omega)
      rw [alignUp, if_pos hm, hmod]
      by_cases h8 : (s + 1) % 8 = 0
      · have hstop : alignUp fuel (s + 1) = s + 1 := by
          cases fuel <;> simp [alignUp, h8]
        rw [hstop]
        omega
      · have ih := alignUp_spec fuel (s + 1) (by omega) (by omega)
        omega

theorem NoWrap.mod_eq {size : ℕ} (h : NoWrap size) : size % 2 ^ 64 = size :=
  Nat.mod_eq_of_lt (by unfold NoWrap at h; omega)

/-- The rounded request is the least multiple of eight with room for header and payload. -/
theorem roundRequest_spec {size : ℕ} (h : NoWrap size) :
    roundRequest size % 8 = 0 ∧ max size 24 + 8 ≤ roundRequest size ∧
      roundRequest size < max size 24 + 16 := by
  unfold NoWrap at h
  unfold roundRequest
  have hsp : (if size < 24 then 24 else size) = max size 24 := by
    split_ifs <;> omega
  have hmod : (max size 24 + 8) % 2 ^ 64 = max size 24 + 8 := Nat.mod_eq_of_lt (by omega)
  simp only [hsp, hmod]
  have hround := alignUp_spec 8 (max size 24 + 8) (by omega) (by omega)
  omega

end Cs241.Malloc
