import Cs241.Paging.Model

/-!
# Processes come and go

`mmu_remove_process` gives back the pages, tables and directory of a process. The
kernel of this file takes frames back; it hands out frames that are not in use and
never evicts a page, so nothing is ever saved on disk. Next to the unit we note,
for each process since it was added, the frames that the kernel handed out and the
entries that entered the TLB while its calls ran.
-/
namespace Cs241.Paging

/-! ## Code that is not in the repository -/

/-- A kernel that takes frames back, given by their physical address. -/
structure FrameKernel (κ : Type*) extends Kernel κ where
  returnFrameToKernel : κ → ℕ → κ
  removeSwapFile : κ → Slot → κ

/-- The frame handed out was not in use and is zeroed; no page is evicted for it. -/
structure FrameKernel.Contract {κ : Type*} (K : FrameKernel κ) where
  inUse : κ → ℕ → Prop
  ask : ∀ k m ref, ∃ frame, (K.askForFrame k m ref).1 = 4096 * frame ∧ ¬ inUse k frame ∧
    (∀ f, inUse (K.askForFrame k m ref).2.1 f ↔ f = frame ∨ inUse k f) ∧
    (K.askForFrame k m ref).2.2 = m.zero frame
  read : ∀ k m ref, (∀ f, inUse (K.readPageFromDisk k m ref).1 f ↔ inUse k f) ∧
    (K.readPageFromDisk k m ref).2 = m
  giveBack : ∀ k frame f,
    inUse (K.returnFrameToKernel k (4096 * frame)) f ↔ f ≠ frame ∧ inUse k f
  removeSwap : ∀ k slot f, inUse (K.removeSwapFile k slot) f ↔ inUse k f

/-- A lookup finds only what was added for the page since the last flush. -/
structure Tlb.Tagged {τ : Type*} (L : Tlb τ) where
  added : τ → ℕ → Slot → Prop
  create : ∀ n s, ¬ added L.create n s
  get : ∀ t n s, (L.getPte t n).1 = some s → added t n s
  get_added : ∀ t n m s, added (L.getPte t n).2 m s → added t m s
  add : ∀ t n slot m s, added (L.addPte t n slot) m s → (m = n ∧ s = slot) ∨ added t m s
  flush : ∀ t n s, ¬ added (L.flush t) n s

variable {κ τ : Type*} (K : FrameKernel κ) (L : Tlb τ)
  (addressInSegmentations : List VmSegmentation → ℕ → Bool)

/-! ## Removing a process -/

def Mmu.returnFrameToKernel (frame : ℕ) (w : Mmu κ τ) : Mmu κ τ :=
  { w with kernel := K.returnFrameToKernel w.kernel (4096 * frame) }

def Mmu.removeSwapFile (slot : Slot) (w : Mmu κ τ) : Mmu κ τ :=
  { w with kernel := K.removeSwapFile w.kernel slot }

/-- One round of the loop over a page table. -/
def removePage (slot : Slot) (w : Mmu κ τ) : Mmu κ τ :=
  let pte := w.memory.entry slot
  let w := if pte.present then w.returnFrameToKernel K pte.baseAddr else w
  w.removeSwapFile K slot

/-- One round of the loop over a page directory. -/
def removeTable (slot : Slot) (w : Mmu κ τ) : Mmu κ τ :=
  let pde := w.memory.entry slot
  if pde.present then
    let w := (List.range 1024).foldl (fun w vpn2 => removePage K (pde.baseAddr, vpn2) w) w
    w.returnFrameToKernel K pde.baseAddr
  else w

def mmuRemoveProcess (pid : ℕ) (w : Mmu κ τ) : Mmu κ τ :=
  let w := match w.pageDirectories pid with
    | none => w
    | some directory =>
      let w := (List.range 1024).foldl (fun w vpn1 => removeTable K (directory, vpn1) w) w
      w.returnFrameToKernel K directory
  { w with
    pageDirectories := Function.update w.pageDirectories pid none
    segmentations := Function.update w.segmentations pid []
    tlb := if w.currPid = pid then L.flush w.tlb else w.tlb }

/-! ## What an access goes through -/

/-- The frames that an access reads or writes: the directory when the TLB does not know the page,
the table and the page. -/
def touched (virtualAddress pid : ℕ) (w : Mmu κ τ) : List ℕ :=
  if virtualAddress = 0 then []
  else match findPte K.toKernel L virtualAddress pid w with
    | none => []
    | some (slot, w') =>
      let through := [slot.1, ((pageIn K.toKernel slot w').memory.entry slot).baseAddr]
      match (L.getPte (switchTo L pid w).tlb (virtualAddress / 2 ^ 12)).1 with
      | some _ => through
      | none => (w.pageDirectories pid).toList ++ through

/-- A frame is the same in two memories, whether it is seen as bytes or as entries. -/
def Memory.SameFrame (m m' : Memory) (f : ℕ) : Prop :=
  (∀ i, m'.entry (f, i) = m.entry (f, i)) ∧ ∀ off < 4096, m'.page f off = m.page f off

/-- The entry that an access adds to the TLB. -/
def tlbAdded (virtualAddress pid : ℕ) (w : Mmu κ τ) : Option Slot :=
  if virtualAddress = 0 then none
  else match (L.getPte (switchTo L pid w).tlb (virtualAddress / 2 ^ 12)).1 with
    | some _ => none
    | none => (findPte K.toKernel L virtualAddress pid w).map fun (slot, _) => slot

/-- The directory, the tables and the pages of a process. -/
inductive Held (w : Mmu κ τ) (pid : ℕ) : ℕ → Prop
  | directory {d} : w.pageDirectories pid = some d → Held w pid d
  | table {d j} : w.pageDirectories pid = some d → (w.memory.entry (d, j)).present = true →
      Held w pid (w.memory.entry (d, j)).baseAddr
  | page {d j i} : w.pageDirectories pid = some d → (w.memory.entry (d, j)).present = true →
      (w.memory.entry ((w.memory.entry (d, j)).baseAddr, i)).present = true →
      Held w pid (w.memory.entry ((w.memory.entry (d, j)).baseAddr, i)).baseAddr

/-! ## Histories of processes -/

/-- What the calls of a process have brought since it was added: frames from the kernel and, by
page, entries of the TLB. -/
structure Life where
  frames : ℕ → Prop
  cached : ℕ → Slot → Prop

def Life.empty : Life := ⟨fun _ => False, fun _ _ => False⟩

structure Tenants (κ τ : Type*) where
  mmu : Mmu κ τ
  life : ℕ → Life

def Tenants.Live (w : Tenants κ τ) (pid : ℕ) : Prop := w.mmu.pageDirectories pid ≠ none

/-- An access by a process that is present and that passes the assertions. -/
def Allowed (w : Mmu κ τ) (virtualAddress pid numBytes : ℕ) : Prop :=
  w.pageDirectories pid ≠ none ∧ virtualAddress < 2 ^ 32 ∧
    numBytes + virtualAddress % 4096 ≤ 4096

instance {w : Mmu κ τ} {virtualAddress pid numBytes : ℕ} :
    Decidable (Allowed w virtualAddress pid numBytes) :=
  inferInstanceAs (Decidable (_ ∧ _ ∧ _))

inductive Call
  | add (pid : ℕ)
  | remove (pid : ℕ)
  | read (pid virtualAddress numBytes : ℕ)
  | write (pid virtualAddress : ℕ) (buffer : List UInt8)

/-- The process and the address of a read or a write. -/
def Call.access : Call → Option (ℕ × ℕ)
  | .add _ | .remove _ => none
  | .read pid a _ | .write pid a _ => some (pid, a)

def Call.Allowed (w : Mmu κ τ) : Call → Prop
  | .add pid => w.pageDirectories pid = none
  | .remove _ => True
  | .read pid a n => Paging.Allowed w a pid n
  | .write pid a buffer => Paging.Allowed w a pid buffer.length

variable {K} in
/-- What a life is after a call that started with the unit `w` and ended with `w'`. -/
def Life.after (C : K.Contract) (l : Life) (w w' : Mmu κ τ) (page : ℕ) (entry : Option Slot) :
    Life where
  frames f := l.frames f ∨ (¬ C.inUse w.kernel f ∧ C.inUse w'.kernel f)
  cached n s := l.cached n s ∨ (n = page ∧ entry = some s)

variable {K} in
/-- The state after a call; `none` when the call is not allowed or the source follows a null
pointer. -/
def serve (C : K.Contract) (w : Tenants κ τ) : Call → Option (Tenants κ τ)
  | .add pid =>
    if w.mmu.pageDirectories pid = none then
      let mmu := mmuAddProcess K.toKernel pid w.mmu
      some ⟨mmu, Function.update w.life pid (Life.empty.after C w.mmu mmu 0 none)⟩
    else none
  | .remove pid => some { w with mmu := mmuRemoveProcess K L pid w.mmu }
  | .read pid a n =>
    if Allowed w.mmu a pid n then
      (mmuReadFromVirtualAddress K.toKernel L addressInSegmentations a pid n w.mmu).map
        fun (_, mmu) => ⟨mmu, Function.update w.life pid
          ((w.life pid).after C w.mmu mmu (a / 2 ^ 12) (tlbAdded K L a pid w.mmu))⟩
    else none
  | .write pid a buffer =>
    if Allowed w.mmu a pid buffer.length then
      (mmuWriteToVirtualAddress K.toKernel L addressInSegmentations a pid buffer w.mmu).map
        fun mmu => ⟨mmu, Function.update w.life pid
          ((w.life pid).after C w.mmu mmu (a / 2 ^ 12) (tlbAdded K L a pid w.mmu))⟩
    else none

end Cs241.Paging
