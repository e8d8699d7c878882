import Mathlib.Data.UInt
import Mathlib.Logic.Function.Basic

/-!
# The allocator wrappers of `mini_memcheck`

Every block that the wrappers get from the system starts with a node of a linked
list and goes on with the memory of the caller, whose contents are left out. The
answers of the system's `malloc` are given. `mini_memcheck.h`, and so the size of
a node, is not in the repository and is a parameter.
-/
namespace Cs241.Memcheck

/-- An address; the null pointer is kept apart. -/
abbrev Address := UInt64

structure MetaData where
  requestSize : UInt64
  filename : Option Address
  instruction : Option Address
  next : Option Address

/-- A block of the system: how many bytes were asked for, and the node at its start. -/
structure Block where
  size : UInt64
  node : MetaData

/-- The blocks that the system has handed out, by their addresses, and the variables of
`mini_memcheck.c`. -/
structure Heap where
  blocks : Address → Option Block
  head : Option Address
  totalMemoryRequested : UInt64
  totalMemoryFreed : UInt64
  invalidAddresses : UInt64

def Heap.init : Heap where
  blocks := fun _ => none
  head := none
  totalMemoryRequested := 0
  totalMemoryFreed := 0
  invalidAddresses := 0

variable (sizeofMetaData : UInt64) (s : Heap)

/-- `answer` is what the system's `malloc` returns if it is called. -/
def miniMalloc (requestSize : UInt64) (filename instruction answer : Option Address) :
    Option Address × Heap :=
  if requestSize = 0 then (none, s)
  else
    match answer with
    | none => (none, s)
    | some ptr =>
      let node : MetaData :=
        { requestSize := requestSize, filename := filename, instruction := instruction
          next := s.head }
      (some (ptr + sizeofMetaData),
        { s with
          blocks := Function.update s.blocks ptr (some ⟨sizeofMetaData + requestSize, node⟩)
          head := some ptr
          totalMemoryRequested := s.totalMemoryRequested + requestSize })

/-- The memory of the caller is set to zero as well. -/
def miniCalloc (numElements elementSize : UInt64) (filename instruction answer : Option Address) :
    Option Address × Heap :=
  miniMalloc sizeofMetaData s (numElements * elementSize) filename instruction answer

/-- `prev->next = next`, or `head = next` without `prev`; `none` if it faults. -/
def Heap.relink (prev next : Option Address) : Option Heap :=
  match prev with
  | none => some { s with head := next }
  | some prev => (s.blocks prev).map fun block =>
    { s with
      blocks := Function.update s.blocks prev
        (some { block with node := { block.node with next := next } }) }

/-- The node of the block counts as freed, and the block goes back to the system. -/
def Heap.release (curr : Address) (block : Block) : Heap :=
  { s with
    totalMemoryFreed := s.totalMemoryFreed + block.node.requestSize
    blocks := Function.update s.blocks curr none }

/-- The loop of `mini_free`; `none` if it faults or takes more than `fuel` rounds. -/
def freeLoop (target : Address) :
    ℕ → Option Address → Option Address → Option Heap
  | 0, _, _ => none
  | _ + 1, _, none => some { s with invalidAddresses := s.invalidAddresses + 1 }
  | fuel + 1, prev, some curr =>
    (s.blocks curr).bind fun block =>
      if target = curr then
        (s.relink prev block.node.next).map fun s => s.release curr block
      else freeLoop target fuel (some curr) block.node.next

def miniFree (fuel : ℕ) : Option Address → Option Heap
  | none => some s
  | some payload => freeLoop s (payload - sizeofMetaData) fuel none s.head

/-! ## Sequences of calls -/

inductive Call
  | malloc (requestSize : UInt64) (filename instruction answer : Option Address)
  | calloc (numElements elementSize : UInt64) (filename instruction answer : Option Address)
  | free (payload : Option Address)

/-- What a call returns, nothing in the case of `mini_free`, and the state after it. -/
def Call.perform (fuel : ℕ) : Call → Option (Option Address × Heap)
  | .malloc requestSize filename instruction answer =>
    some (miniMalloc sizeofMetaData s requestSize filename instruction answer)
  | .calloc numElements elementSize filename instruction answer =>
    some (miniCalloc sizeofMetaData s numElements elementSize filename instruction answer)
  | .free payload => (miniFree sizeofMetaData s fuel payload).map fun s => (none, s)

/-- The size of the memory that a call asks for, and what `malloc` answers if it is called. -/
def Call.request : Call → Option (UInt64 × Option Address)
  | .malloc requestSize _ _ answer => some (requestSize, answer)
  | .calloc numElements elementSize _ _ answer => some (numElements * elementSize, answer)
  | .free _ => none

/-- The wrappers and the calls so far with what they returned, newest first. -/
structure World where
  heap : Heap
  log : List (Call × Option Address)

def World.init : World := { heap := .init, log := [] }

/-- `malloc` answers with no address that is allocated, and its argument does not wrap. -/
def Call.Allowed (s : Heap) (c : Call) : Prop :=
  ∀ request ∈ c.request, sizeofMetaData.toNat + request.1.toNat < 2 ^ 64 ∧
    ∀ ptr ∈ request.2, s.blocks ptr = none

/-- A call that returns. -/
def Step (w : World) (c : Call) (w' : World) : Prop :=
  c.Allowed sizeofMetaData w.heap ∧ ∃ fuel result heap,
    c.perform sizeofMetaData w.heap fuel = some (result, heap) ∧
      w' = { heap := heap, log := (c, result) :: w.log }

/-! ## What the calls should amount to -/

/-- The allocations that were not freed yet with their sizes, newest first. -/
def live : List (Call × Option Address) → List (Address × UInt64)
  | [] => []
  | (.malloc requestSize _ _ _, some payload) :: log => (payload, requestSize) :: live log
  | (.calloc numElements elementSize _ _ _, some payload) :: log =>
    (payload, numElements * elementSize) :: live log
  | (.free (some payload), _) :: log => (live log).eraseP fun x => x.1 = payload
  | (_, _) :: log => live log

/-- The calls of `mini_free` for an address that is not live. -/
def badFrees : List (Call × Option Address) → ℕ
  | [] => 0
  | (.free (some payload), _) :: log =>
    badFrees log + if payload ∈ (live log).map Prod.fst then 0 else 1
  | (_, _) :: log => badFrees log

end Cs241.Memcheck
