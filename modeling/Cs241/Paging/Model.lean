import Mathlib.Algebra.Ring.Nat
import Mathlib.Logic.Function.Basic

/-!
# The memory management unit of `ideal_indirection/mmu.c`

Physical memory is seen as bytes by address and as entries by frame and index;
directories and tables have the same kind of entry. A pointer to an entry is
such a pair, an address is turned into a frame number by the shift of
`NUM_OFFSET_BITS`. The kernel, the TLB and the test for a segment are not in the
repository and are parameters; what the code relies on is stated in
`Kernel.Contract` and `Tlb.Contract`.
-/
namespace Cs241.Paging

/-- An entry of a page directory or of a page table. -/
structure Entry where
  present : Bool
  baseAddr : ℕ
  readWrite : Bool
  userSupervisor : Bool
  accessed : Bool
  dirty : Bool
deriving DecidableEq

/-- The entry that zeroed memory holds. -/
def Entry.zero : Entry :=
  { present := false, baseAddr := 0, readWrite := false, userSupervisor := false,
    accessed := false, dirty := false }

/-- The frame of a table and an index. -/
abbrev Slot := ℕ × ℕ

/-- The argument of `ask_kernel_for_frame`: `NULL`, the address of a local variable or the address
of an entry in memory. -/
inductive Ref
  | null
  | localCopy
  | entry (slot : Slot)
deriving DecidableEq

structure Memory where
  entry : Slot → Entry
  byte : ℕ → UInt8

namespace Memory

variable (m : Memory)

def setEntry (slot : Slot) (e : Entry) : Memory :=
  { m with entry := Function.update m.entry slot e }

/-- The bytes of a frame, by offset. -/
def page (frame : ℕ) (offset : ℕ) : UInt8 := m.byte (4096 * frame + offset)

/-- Fill a frame with bytes. -/
def load (frame : ℕ) (bytes : ℕ → UInt8) : Memory :=
  { m with byte := fun a => if a / 4096 = frame then bytes (a % 4096) else m.byte a }

/-- A frame of zeros, whether it is seen as bytes or as entries. -/
def zero (frame : ℕ) : Memory :=
  { m.load frame fun _ => 0 with
    entry := fun slot => if slot.1 = frame then .zero else m.entry slot }

/-- `memcpy` from memory. -/
def read (address n : ℕ) : List UInt8 := (List.range n).map fun i => m.byte (address + i)

/-- `memcpy` to memory. -/
def write (address : ℕ) (bytes : List UInt8) : Memory :=
  { m with byte := fun a => if address ≤ a then bytes.getD (a - address) (m.byte a) else m.byte a }

end Memory

/-! ## Code that is not in the repository -/

/-- The calls answer with the new state of the kernel and of the memory; a frame is answered as a
physical address. -/
structure Kernel (κ : Type*) where
  askForFrame : κ → Memory → Ref → ℕ × κ × Memory
  readPageFromDisk : κ → Memory → Ref → κ × Memory

/-- The frame handed out was unused, or one page of data was saved to disk for it and the entry
of that page marked as not present. Tables and directories are not paged to disk, and what was
saved for an entry is what is read back for it. -/
structure Kernel.Contract {κ : Type*} (K : Kernel κ) where
  holder : κ → ℕ → Option Ref
  saved : κ → Slot → Option (ℕ → UInt8)
  ask : ∀ k m ref, ∃ frame, (K.askForFrame k m ref).1 = 4096 * frame ∧
    holder (K.askForFrame k m ref).2.1 = Function.update (holder k) frame (some ref) ∧
    ((holder k frame = none ∧ saved (K.askForFrame k m ref).2.1 = saved k ∧
        (K.askForFrame k m ref).2.2 = m.zero frame) ∨
      ∃ victim, holder k frame = some (.entry victim) ∧
        saved (K.askForFrame k m ref).2.1 =
          Function.update (saved k) victim (some (m.page frame)) ∧
        (K.askForFrame k m ref).2.2 =
          (m.setEntry victim { m.entry victim with present := false }).zero frame)
  read_holder : ∀ k m ref, holder (K.readPageFromDisk k m ref).1 = holder k
  read_saved : ∀ k m slot page, saved k slot = some page →
    saved (K.readPageFromDisk k m (.entry slot)).1 = Function.update (saved k) slot none ∧
    (K.readPageFromDisk k m (.entry slot)).2 = m.load (m.entry slot).baseAddr page
  read_none : ∀ k m ref, (∀ slot, ref = .entry slot → saved k slot = none) →
    saved (K.readPageFromDisk k m ref).1 = saved k ∧ (K.readPageFromDisk k m ref).2 = m

structure Tlb (τ : Type*) where
  create : τ
  getPte : τ → ℕ → Option Slot × τ
  addPte : τ → ℕ → Slot → τ
  flush : τ → τ

/-- A lookup finds nothing or the entry last added for the page since the last flush. -/
structure Tlb.Contract {τ : Type*} (L : Tlb τ) where
  last : τ → ℕ → Option Slot
  create : ∀ n, last L.create n = none
  get : ∀ t n, (L.getPte t n).1 = none ∨ (L.getPte t n).1 = last t n
  get_last : ∀ t n, last (L.getPte t n).2 = last t
  add : ∀ t n slot, last (L.addPte t n slot) = Function.update (last t) n (some slot)
  flush : ∀ t n, last (L.flush t) n = none

structure VmSegmentation where
  start : ℕ
  stop : ℕ
  read : Bool
  write : Bool
  exec : Bool
  growsDown : Bool

/-! ## The unit -/

structure Mmu (κ τ : Type*) where
  memory : Memory
  kernel : κ
  tlb : τ
  currPid : ℕ
  pageDirectories : ℕ → Option ℕ
  segmentations : ℕ → List VmSegmentation
  numTlbMisses : ℕ
  numPageFaults : ℕ
  numSegmentationFaults : ℕ

variable {κ τ : Type*} (K : Kernel κ) (L : Tlb τ)
  (addressInSegmentations : List VmSegmentation → ℕ → Bool)

def mmuCreate (kernel : κ) (memory : Memory) : Mmu κ τ :=
  { memory := memory, kernel := kernel, tlb := L.create, currPid := 0
    pageDirectories := fun _ => none, segmentations := fun _ => []
    numTlbMisses := 0, numPageFaults := 0, numSegmentationFaults := 0 }

namespace Mmu

variable (w : Mmu κ τ)

def setEntry (slot : Slot) (e : Entry) : Mmu κ τ := { w with memory := w.memory.setEntry slot e }

def askKernelForFrame (ref : Ref) : ℕ × Mmu κ τ :=
  let (address, kernel, memory) := K.askForFrame w.kernel w.memory ref
  (address, { w with kernel := kernel, memory := memory })

def readPageFromDisk (ref : Ref) : Mmu κ τ :=
  let (kernel, memory) := K.readPageFromDisk w.kernel w.memory ref
  { w with kernel := kernel, memory := memory }

def raisePageFault : Mmu κ τ := { w with numPageFaults := w.numPageFaults + 1 }

def raiseSegmentationFault : Mmu κ τ :=
  { w with numSegmentationFaults := w.numSegmentationFaults + 1 }

end Mmu

/-! ## Reading and writing -/

/-- Another process than the last one finds the TLB flushed. -/
def switchTo (pid : ℕ) (w : Mmu κ τ) : Mmu κ τ :=
  if w.currPid ≠ pid then { w with currPid := pid, tlb := L.flush w.tlb } else w

/-- The directory entry through which a page is reached. It is a copy: when the entry is not
present, the new page table is noted in the copy only. -/
def directoryEntry (directory pageBits : ℕ) (w : Mmu κ τ) : Entry × Mmu κ τ :=
  let entry := w.memory.entry (directory, pageBits)
  if entry.present then (entry, w)
  else
    let (address, w) := w.askKernelForFrame K .localCopy
    let w := w.readPageFromDisk K .localCopy
    ({ entry with present := true, baseAddr := address / 4096 }, w.raisePageFault)

def tlbMiss (directory virtualAddress : ℕ) (w : Mmu κ τ) : Slot × Mmu κ τ :=
  let (entry, w) := directoryEntry K directory (virtualAddress / 2 ^ 22) w
  let slot := (entry.baseAddr, virtualAddress / 2 ^ 12 % 2 ^ 10)
  (slot, { w with tlb := L.addPte w.tlb (virtualAddress / 2 ^ 12) slot,
                  numTlbMisses := w.numTlbMisses + 1 })

/-- The table entry of an address, from the TLB or from the tables; `none` where the source
follows a null pointer. -/
def findPte (virtualAddress pid : ℕ) (w : Mmu κ τ) : Option (Slot × Mmu κ τ) :=
  let w := switchTo L pid w
  let (hit, tlb) := L.getPte w.tlb (virtualAddress / 2 ^ 12)
  let w := { w with tlb := tlb }
  match hit with
  | some slot => some (slot, w)
  | none => (w.pageDirectories pid).map fun directory => tlbMiss K L directory virtualAddress w

/-- Bring the page of an entry into memory. -/
def pageIn (slot : Slot) (w : Mmu κ τ) : Mmu κ τ :=
  if (w.memory.entry slot).present then w
  else
    let (address, w) := w.askKernelForFrame K (.entry slot)
    let w := w.setEntry slot
      { w.memory.entry slot with baseAddr := address / 4096, present := true }
    (w.readPageFromDisk K (.entry slot)).raisePageFault

/-- The bytes read, or `none` when the buffer is left as it was. -/
def mmuReadFromVirtualAddress (virtualAddress pid numBytes : ℕ) (w : Mmu κ τ) :
    Option (Option (List UInt8) × Mmu κ τ) :=
  if virtualAddress = 0 then some (none, w.raiseSegmentationFault)
  else (findPte K L virtualAddress pid w).map fun (slot, w) =>
    let w := pageIn K slot w
    if addressInSegmentations (w.segmentations pid) virtualAddress then
      let pte := w.memory.entry slot
      let address := virtualAddress % 2 ^ 12 + pte.baseAddr * 4096
      (some (w.memory.read address numBytes), w.setEntry slot { pte with accessed := true })
    else (none, w.raiseSegmentationFault)

def mmuWriteToVirtualAddress (virtualAddress pid : ℕ) (buffer : List UInt8) (w : Mmu κ τ) :
    Option (Mmu κ τ) :=
  if virtualAddress = 0 then some w.raiseSegmentationFault
  else (findPte K L virtualAddress pid w).map fun (slot, w) =>
    let w := pageIn K slot w
    if addressInSegmentations (w.segmentations pid) virtualAddress then
      let pte := w.memory.entry slot
      let address := virtualAddress % 2 ^ 12 + pte.baseAddr * 4096
      let w := w.setEntry slot { pte with dirty := true, accessed := true }
      { w with memory := w.memory.write address buffer }
    else w.raiseSegmentationFault

/-! ## Processes -/

/-- The segments of every process: stack, mmap, heap, bss, data, text and testing. -/
def segments : List VmSegmentation :=
  [⟨0xBFFFE000, 0xC07FE000, true, true, false, true⟩,
    ⟨0xC07FE000, 0xC07FE000, true, true, true, true⟩,
    ⟨0x08072000, 0x08072000, true, true, false, false⟩,
    ⟨0x0805A000, 0x08072000, true, true, false, false⟩,
    ⟨0x08052000, 0x0805A000, true, true, false, false⟩,
    ⟨0x08048000, 0x08052000, true, false, true, false⟩,
    ⟨4096, 3 * 4096, true, true, false, false⟩]

/-- `base_addr`, `present`, `read_write` and `user_supervisor` of an entry. -/
def mapEntry (slot : Slot) (address : ℕ) (w : Mmu κ τ) : Mmu κ τ :=
  w.setEntry slot { w.memory.entry slot with
    baseAddr := address / 4096, present := true, readWrite := true, userSupervisor := true }

/-- One round of the loop that maps the testing memory. -/
def mapTesting (directory i : ℕ) (w : Mmu κ τ) : Mmu κ τ :=
  let slot := ((w.memory.entry (directory, 0)).baseAddr, i)
  let (address, w) := w.askKernelForFrame K (.entry slot)
  mapEntry slot address w

def mmuAddProcess (pid : ℕ) (w : Mmu κ τ) : Mmu κ τ :=
  let (address, w) := w.askKernelForFrame K .null
  let directory := address / 4096
  let w := { w with
    pageDirectories := Function.update w.pageDirectories pid (some directory)
    segmentations := Function.update w.segmentations pid segments }
  let (address, w) := w.askKernelForFrame K .null
  let w := mapEntry (directory, 0) address w
  mapTesting K directory 2 (mapTesting K directory 1 w)

/-! ## Histories -/

/-- What was done to the unit; a read with what it has put into its buffer. -/
inductive Access
  | add (pid : ℕ)
  | read (pid virtualAddress numBytes : ℕ) (result : Option (List UInt8))
  | write (pid virtualAddress : ℕ) (buffer : List UInt8)
deriving DecidableEq

/-- The byte last written by `pid` at an address, newest access first, or zero. -/
def lastWritten (pid a : ℕ) : List Access → UInt8
  | [] => 0
  | .write p virtualAddress buffer :: history =>
    if p = pid ∧ virtualAddress ≤ a then
      buffer.getD (a - virtualAddress) (lastWritten pid a history)
    else lastWritten pid a history
  | _ :: history => lastWritten pid a history

structure World (κ τ : Type*) where
  mmu : Mmu κ τ
  history : List Access

/-- An access that passes the assertions, by a process that was added, inside a segment. -/
structure ValidAccess (w : Mmu κ τ) (virtualAddress pid numBytes : ℕ) : Prop where
  added : w.pageDirectories pid ≠ none
  inside : addressInSegmentations (w.segmentations pid) virtualAddress = true
  nonzero : virtualAddress ≠ 0
  addr32 : virtualAddress < 2 ^ 32
  page : numBytes + virtualAddress % 4096 ≤ 4096

inductive Action
  | add (pid : ℕ)
  | read (pid virtualAddress numBytes : ℕ)
  | write (pid virtualAddress : ℕ) (buffer : List UInt8)

instance {w : Mmu κ τ} {virtualAddress pid numBytes : ℕ} :
    Decidable (ValidAccess addressInSegmentations w virtualAddress pid numBytes) :=
  decidable_of_iff (w.pageDirectories pid ≠ none ∧
      addressInSegmentations (w.segmentations pid) virtualAddress = true ∧ virtualAddress ≠ 0 ∧
      virtualAddress < 2 ^ 32 ∧ numBytes + virtualAddress % 4096 ≤ 4096)
    ⟨fun ⟨h₁, h₂, h₃, h₄, h₅⟩ => ⟨h₁, h₂, h₃, h₄, h₅⟩,
      fun ⟨h₁, h₂, h₃, h₄, h₅⟩ => ⟨h₁, h₂, h₃, h₄, h₅⟩⟩

/-- The world after an action; `none` when the action is not allowed or the source follows a null
pointer. -/
def perform (w : World κ τ) : Action → Option (World κ τ)
  | .add pid =>
    if w.mmu.pageDirectories pid = none then
      some ⟨mmuAddProcess K pid w.mmu, .add pid :: w.history⟩
    else none
  | .read pid a n =>
    if ValidAccess addressInSegmentations w.mmu a pid n then
      (mmuReadFromVirtualAddress K L addressInSegmentations a pid n w.mmu).map
        fun (result, mmu) => ⟨mmu, .read pid a n result :: w.history⟩
    else none
  | .write pid a buffer =>
    if ValidAccess addressInSegmentations w.mmu a pid buffer.length then
      (mmuWriteToVirtualAddress K L addressInSegmentations a pid buffer w.mmu).map
        fun mmu => ⟨mmu, .write pid a buffer :: w.history⟩
    else none

def Step (w : World κ τ) (action : Action) (w' : World κ τ) : Prop :=
  perform K L addressInSegmentations w action = some w'

end Cs241.Paging
