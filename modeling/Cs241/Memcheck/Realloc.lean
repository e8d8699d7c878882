import Cs241.Memcheck.Ledger

/-!
# `mini_realloc`

The system's `realloc` may move a block and may fail. `mini_realloc` tells neither the head of
the list nor the node in front of the block where it has moved to, writes to the answer without
looking at it, and has an exit of its own for a size that stays the same, where it returns the
address of the node.
-/
namespace Cs241.Memcheck

open Foundation

variable (sizeofMetaData : UInt64) (s : Heap)

/-- The difference of the sizes counts as requested or as freed. -/
def Heap.count (old new : UInt64) : Heap :=
  if old < new then { s with totalMemoryRequested := s.totalMemoryRequested + (new - old) }
  else if new < old then { s with totalMemoryFreed := s.totalMemoryFreed + (old - new) }
  else s

/-- The block at `curr` is given up, and `block` is at `ptr`. -/
def Heap.replace (curr ptr : Address) (block : Block) : Heap :=
  { s with blocks := Function.update (Function.update s.blocks curr none) ptr (some block) }

/-- What `mini_realloc` does at the node it looks for; `answer` is what the system's `realloc`
returns if it is called, and without an address there the call faults. As in `miniMalloc`, the
node is written even where the block has no room for it. -/
def reallocNode (requestSize : UInt64) (filename instruction answer : Option Address)
    (curr : Address) (block : Block) : Option (Option Address × Heap) :=
  let node := { block.node with filename := filename, instruction := instruction }
  if requestSize = block.node.requestSize then
    some (some curr, s.replace curr curr { block with node := node })
  else
    let s := s.count block.node.requestSize requestSize
    answer.map fun ptr =>
      (some (ptr + sizeofMetaData),
        s.replace curr ptr ⟨requestSize * sizeofMetaData, { node with requestSize := requestSize }⟩)

/-- The loop of `mini_realloc`; `none` if it faults or takes more than `fuel` rounds. -/
def reallocLoop (target : Address) (requestSize : UInt64)
    (filename instruction answer : Option Address) :
    ℕ → Option Address → Option (Option Address × Heap)
  | 0, _ => none
  | _ + 1, none => some (none, { s with invalidAddresses := s.invalidAddresses + 1 })
  | fuel + 1, some curr =>
    (s.blocks curr).bind fun block =>
      if target = curr + sizeofMetaData then
        reallocNode sizeofMetaData s requestSize filename instruction answer curr block
      else reallocLoop target requestSize filename instruction answer fuel block.node.next

def miniRealloc (fuel : ℕ) (payload : Option Address) (requestSize : UInt64)
    (filename instruction answer : Option Address) : Option (Option Address × Heap) :=
  match payload with
  | none =>
    if requestSize = 0 then some (none, s)
    else some (miniMalloc sizeofMetaData s requestSize filename instruction answer)
  | some payload =>
    if requestSize = 0 then (miniFree sizeofMetaData s fuel (some payload)).map fun s => (none, s)
    else reallocLoop sizeofMetaData s payload requestSize filename instruction answer fuel s.head

/-! ## Sequences of calls -/

inductive Op
  | call (c : Call)
  | realloc (payload : Option Address) (requestSize : UInt64)
      (filename instruction answer : Option Address)

def Op.perform (fuel : ℕ) : Op → Option (Option Address × Heap)
  | .call c => c.perform sizeofMetaData s fuel
  | .realloc payload requestSize filename instruction answer =>
    miniRealloc sizeofMetaData s fuel payload requestSize filename instruction answer

/-- The system answers with no address that is allocated, unless `realloc` leaves a block where it
is. -/
def Op.Fresh : Op → Prop
  | .call c => ∀ request ∈ c.request, ∀ ptr ∈ request.2, s.blocks ptr = none
  | .realloc none _ _ _ answer => ∀ ptr ∈ answer, s.blocks ptr = none
  | .realloc (some payload) _ _ _ answer =>
    ∀ ptr ∈ answer, ptr = payload - sizeofMetaData ∨ s.blocks ptr = none

/-- The wrappers and the calls so far with what they returned, newest first. -/
structure History where
  heap : Heap
  log : List (Op × Option Address)

def History.init : History := { heap := .init, log := [] }

/-- A call that returns. -/
def Performs (w : History) (op : Op) (w' : History) : Prop :=
  op.Fresh sizeofMetaData w.heap ∧ ∃ fuel result heap,
    op.perform sizeofMetaData w.heap fuel = some (result, heap) ∧
      w' = { heap := heap, log := (op, result) :: w.log }

/-- The allocations that are live, newest first, with what their callers last asked for: numbers
without a bound. What is reallocated has not moved. -/
def asked : List (Op × Option Address) → List (Address × ℕ)
  | [] => []
  | (.call (.malloc requestSize _ _ _), some payload) :: log =>
    (payload, requestSize.toNat) :: asked log
  | (.call (.calloc numElements elementSize _ _ _), some payload) :: log =>
    (payload, numElements.toNat * elementSize.toNat) :: asked log
  | (.call (.free (some payload)), _) :: log => (asked log).eraseP fun x => x.1 = payload
  | (.realloc none requestSize _ _ _, some payload) :: log =>
    (payload, requestSize.toNat) :: asked log
  | (.realloc (some payload) requestSize _ _ _, some _) :: log =>
    (asked log).map fun x => if x.1 = payload then (payload, requestSize.toNat) else x
  | (.realloc (some payload) requestSize _ _ _, none) :: log =>
    if requestSize = 0 then (asked log).eraseP fun x => x.1 = payload else asked log
  | (_, _) :: log => asked log

/-- The addresses that the callers may use. -/
def payloads (log : List (Op × Option Address)) : List Address := (asked log).map Prod.fst

/-- The size of the block and the size that its node tells. -/
def Heap.sizes (a : Address) : Option (UInt64 × UInt64) :=
  (s.blocks a).map fun block => (block.size, block.node.requestSize)

variable {m requestSize : UInt64} {s s' : Heap} {target a payload : Address}
  {filename instruction answer : Option Address} {fuel : ℕ} {xs pre post : List Address}
  {out : Option Address × Heap} {block : Block}

/-! ## The loop -/

theorem reallocLoop_found {curr : Option Address} (h : Chain s.link curr (pre ++ a :: post))
    (hpre : a ∉ pre) (hfuel : pre.length < fuel) :
    reallocLoop m s (a + m) requestSize filename instruction answer fuel curr =
      (s.blocks a).bind (reallocNode m s requestSize filename instruction answer a) := by
  induction pre generalizing curr fuel with
  | nil =>
    obtain ⟨fuel, rfl⟩ : ∃ k, fuel = k + 1 := ⟨fuel - 1, by simp at hfuel; omega⟩
    obtain ⟨rfl, -⟩ := h
    simp [reallocLoop]
  | cons x pre ih =>
    obtain ⟨fuel, rfl⟩ : ∃ k, fuel = k + 1 := ⟨fuel - 1, by omega⟩
    obtain ⟨hx, hpre⟩ : a ≠ x ∧ a ∉ pre := by simpa using hpre
    obtain ⟨rfl, q, hq, hrest⟩ := h
    obtain ⟨block, hblock, rfl⟩ := Option.map_eq_some_iff.mp hq
    have hne : ¬ a + m = x + m := fun heq => hx (by simpa using heq)
    simp only [reallocLoop, hblock, Option.bind_some, if_neg hne]
    exact ih hrest hpre (by simpa using hfuel)

theorem reallocLoop_missed {curr : Option Address} (h : Chain s.link curr xs)
    (hxs : payload - m ∉ xs) (hfuel : xs.length < fuel) :
    reallocLoop m s payload requestSize filename instruction answer fuel curr =
      some (none, { s with invalidAddresses := s.invalidAddresses + 1 }) := by
  induction xs generalizing curr fuel with
  | nil =>
    obtain ⟨fuel, rfl⟩ : ∃ k, fuel = k + 1 := ⟨fuel - 1, by simp at hfuel; omega⟩
    obtain rfl : curr = none := h
    rfl
  | cons x xs ih =>
    obtain ⟨fuel, rfl⟩ : ∃ k, fuel = k + 1 := ⟨fuel - 1, by omega⟩
    obtain ⟨hx, hxs⟩ : payload - m ≠ x ∧ payload - m ∉ xs := by simpa using hxs
    obtain ⟨rfl, q, hq, hrest⟩ := h
    obtain ⟨block, hblock, rfl⟩ := Option.map_eq_some_iff.mp hq
    have hne : ¬ payload = x + m := fun heq => hx (by simp [heq])
    simp only [reallocLoop, hblock, Option.bind_some, if_neg hne]
    exact ih hrest hxs (by simpa using hfuel)

/-- More rounds do not change the result. -/
theorem reallocLoop_mono (k : ℕ) : ∀ {fuel : ℕ} {curr : Option Address},
    reallocLoop m s target requestSize filename instruction answer fuel curr = some out →
      reallocLoop m s target requestSize filename instruction answer (fuel + k) curr = some out
  | 0, _, h => by simp [reallocLoop] at h
  | fuel + 1, none, h => by simpa [reallocLoop, Nat.add_right_comm fuel 1 k] using h
  | fuel + 1, some curr, h => by
    rw [Nat.add_right_comm]
    simp only [reallocLoop] at h ⊢
    obtain ⟨block, hblock, hnext⟩ := Option.bind_eq_some_iff.mp h
    rw [hblock, Option.bind_some]
    split_ifs at hnext ⊢ with hcurr
    · exact hnext
    · exact reallocLoop_mono k hnext

/-- A call for a block on the list. -/
theorem miniRealloc_live (h : Listed s xs) (ha : a ∈ xs) (hblock : s.blocks a = some block)
    (hsize : requestSize ≠ 0) :
    (∃ fuel, miniRealloc m s fuel (some (a + m)) requestSize filename instruction answer =
      some out) ↔
    reallocNode m s requestSize filename instruction answer a block = some out := by
  obtain ⟨pre, post, rfl⟩ := List.append_of_mem ha
  have hpre : a ∉ pre := fun hmem =>
    (List.nodup_append.mp h.nodup).2.2 a hmem a List.mem_cons_self rfl
  simp only [miniRealloc, if_neg hsize]
  constructor
  · rintro ⟨fuel, hout⟩
    have hlong := reallocLoop_mono (pre.length + 1) hout
    rwa [reallocLoop_found h.chain hpre (by omega), hblock, Option.bind_some] at hlong
  · intro hout
    refine ⟨pre.length + 1, ?_⟩
    rw [reallocLoop_found h.chain hpre (Nat.lt_succ_self _), hblock, Option.bind_some, hout]

/-- A call for any other address. -/
theorem miniRealloc_dead (h : Listed s xs) (hdead : payload - m ∉ xs) (hsize : requestSize ≠ 0) :
    (∃ fuel, miniRealloc m s fuel (some payload) requestSize filename instruction answer =
      some out) ↔ out = (none, { s with invalidAddresses := s.invalidAddresses + 1 }) := by
  simp only [miniRealloc, if_neg hsize]
  constructor
  · rintro ⟨fuel, hout⟩
    have hlong := reallocLoop_mono (xs.length + 1) hout
    rw [reallocLoop_missed h.chain hdead (by omega)] at hlong
    exact (Option.some.inj hlong).symm
  · rintro rfl
    exact ⟨xs.length + 1, reallocLoop_missed h.chain hdead (Nat.lt_succ_self _)⟩

/-! ## At the node -/

section Node

variable {block' : Block} {ptr : Address}

@[simp] theorem count_blocks (s : Heap) (old new : UInt64) : (s.count old new).blocks = s.blocks := by
  unfold Heap.count
  split_ifs <;> rfl

@[simp] theorem count_head (s : Heap) (old new : UInt64) : (s.count old new).head = s.head := by
  unfold Heap.count
  split_ifs <;> rfl

theorem replace_self_blocks (s : Heap) (a : Address) (block : Block) :
    (s.replace a a block).blocks = Function.update s.blocks a (some block) :=
  Function.update_idem _ _ _

/-- The list goes on as before where a node is written that leads to the same one. -/
theorem Listed.rewrite (h : Listed s xs) (hblock : s.blocks a = some block)
    (hnext : block'.node.next = block.node.next)
    (hblocks : s'.blocks = Function.update s.blocks a (some block')) (hhead : s'.head = s.head) :
    Listed s' xs := by
  refine ⟨?_, h.nodup, fun x => ?_⟩
  · rw [hhead]
    refine h.chain.congr fun x _ => ?_
    rcases eq_or_ne x a with rfl | hne
    · simp [Heap.link, hblocks, hblock, hnext]
    · simp [Heap.link, hblocks, hne]
  · rw [h.mem_iff x, hblocks]
    rcases eq_or_ne x a with rfl | hne
    · simp [hblock]
    · simp [hne]

/-- The exit for the same size, or a new block. -/
theorem reallocNode_cases
    (h : reallocNode m s requestSize filename instruction answer a block = some out) :
    (requestSize = block.node.requestSize ∧ ∃ block', out = (some a, s.replace a a block') ∧
      block'.size = block.size ∧ block'.node.requestSize = requestSize ∧
      block'.node.next = block.node.next) ∨
    (requestSize ≠ block.node.requestSize ∧ ∃ ptr block', answer = some ptr ∧
      out = (some (ptr + m), (s.count block.node.requestSize requestSize).replace a ptr block') ∧
      block'.size = requestSize * m ∧ block'.node.requestSize = requestSize ∧
      block'.node.next = block.node.next) := by
  rw [reallocNode] at h
  split_ifs at h with hsame
  · exact .inl ⟨hsame, _, (Option.some.inj h).symm, rfl, hsame.symm, rfl⟩
  · obtain ⟨ptr, rfl, hout⟩ := Option.map_eq_some_iff.mp h
    exact .inr ⟨hsame, ptr, _, rfl, hout.symm, rfl, rfl, rfl⟩

theorem reallocNode_ne_none :
    reallocNode m s requestSize filename instruction answer a block ≠ some (none, s') := by
  intro h
  rcases reallocNode_cases h with ⟨-, block', hout, -⟩ | ⟨-, ptr, block', -, hout, -⟩ <;>
    simp at hout

end Node

end Cs241.Memcheck
