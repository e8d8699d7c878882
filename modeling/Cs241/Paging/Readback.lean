import Cs241.Foundation.Runs
import Cs241.Paging.Calls

/-!
# Reads return what was written

A page table that is made for a directory entry which is not present is reached
through the TLB only. The guard says that no access needs such a table again: in
the runs that meet it every read returns what its process has last written.
-/
namespace Cs241.Paging

open Foundation

variable {κ τ : Type*} {K : Kernel κ} {L : Tlb τ}
  {addressInSegmentations : List VmSegmentation → ℕ → Bool} {w w' : World κ τ}

/-- Every read of a history has returned what the accesses before it had written. -/
def Honest : List Access → Prop
  | [] => True
  | .read pid a n result :: history =>
    result = some ((List.range n).map fun i => lastWritten pid (a + i) history) ∧ Honest history
  | _ :: history => Honest history

/-- An access that finds no table is to a page to which its process has written nothing but
zeros. -/
def TableGuard (L : Tlb τ) (w : World κ τ) : Action → Prop
  | .add _ => True
  | .read pid a _ | .write pid a _ => NoTable L a pid w.mmu →
    ∀ off < 4096, lastWritten pid (4096 * (a / 2 ^ 12) + off) w.history = 0

/-- What holds of the world between two calls. -/
structure World.Inv (C : K.Contract) (D : L.Contract) (w : World κ τ) : Prop where
  unit : ∃ owner, Paging.Inv (view C D owner (valuesOf w.history) w.mmu)
  honest : Honest w.history

variable {C : K.Contract} {D : L.Contract}

theorem inv_mmuCreate {kernel : κ} {memory : Memory} (hheld : ∀ f, C.holder kernel f = none)
    (hsaved : ∀ s, C.saved kernel s = none) :
    World.Inv C D ⟨mmuCreate L kernel memory, []⟩ := by
  refine ⟨⟨fun _ => none, ?_⟩, trivial⟩
  constructor
  case fresh => exact fun _ _ => rfl
  case data_held =>
    intro f s h
    exact absurd ((hheld f).symm.trans h) (by simp)
  case saved_owned =>
    intro s page h
    exact absurd ((hsaved s).symm.trans h) (by simp)
  case cached =>
    intro n s h
    exact absurd ((D.create n).symm.trans h) (by simp)
  all_goals simp [view, mmuCreate]

theorem World.Inv.step {action : Action} (hi : World.Inv C D w)
    (hs : Guarded (Step K L addressInSegmentations) (TableGuard L) w action w') :
    World.Inv C D w' := by
  obtain ⟨hg, hs⟩ := hs
  obtain ⟨owner, hu⟩ := hi.unit
  cases action with
  | add pid =>
    rw [Step, perform] at hs
    split_ifs at hs with hnew
    obtain rfl := Option.some.inj hs
    obtain ⟨owner', hu'⟩ := mmuAddProcess_spec hu hnew
    exact ⟨⟨owner', hu'⟩, hi.honest⟩
  | read pid a n =>
    rw [Step, perform] at hs
    split_ifs at hs with hvalid
    obtain ⟨mmu, owner', hrun, hu'⟩ := read_spec hu hvalid hg
    rw [hrun] at hs
    obtain rfl := Option.some.inj hs
    exact ⟨⟨owner', hu'⟩, rfl, hi.honest⟩
  | write pid a buffer =>
    rw [Step, perform] at hs
    split_ifs at hs with hvalid
    obtain ⟨mmu, owner', hrun, hu'⟩ := write_spec hu hvalid hg
    rw [hrun] at hs
    obtain rfl := Option.some.inj hs
    exact ⟨⟨owner', hu'⟩, hi.honest⟩

/-- In a run whose accesses meet the guard, every read has returned what its process had last
written, and so does the next one. -/
theorem run_honest (C : K.Contract) (D : L.Contract) {kernel : κ} {memory : Memory}
    {actions : List Action} (hheld : ∀ f, C.holder kernel f = none)
    (hsaved : ∀ s, C.saved kernel s = none)
    (hr : Run (Guarded (Step K L addressInSegmentations) (TableGuard L))
      ⟨mmuCreate L kernel memory, []⟩ actions w) :
    Honest w.history ∧ ∀ pid a n, ValidAccess addressInSegmentations w.mmu a pid n →
      TableGuard L w (.read pid a n) →
        ∃ mmu, mmuReadFromVirtualAddress K L addressInSegmentations a pid n w.mmu =
          some (some ((List.range n).map fun i => lastWritten pid (a + i) w.history), mmu) := by
  have hi : World.Inv C D w := hr.invariant (inv_mmuCreate hheld hsaved) fun hi hs => hi.step hs
  refine ⟨hi.honest, fun pid a n hvalid hg => ?_⟩
  obtain ⟨owner, hu⟩ := hi.unit
  obtain ⟨mmu, -, hrun, -⟩ := read_spec hu hvalid hg
  exact ⟨mmu, hrun⟩

/-! ## A kernel that never swaps -/

/-- Frames are handed out in order. -/
def plainKernel : Kernel (List Ref) where
  askForFrame := fun k m ref => (4096 * k.length, k ++ [ref], m.zero k.length)
  readPageFromDisk := fun k m _ => (k, m)

theorem plainKernel_holder (k : List Ref) (ref : Ref) :
    (fun f => (k ++ [ref])[f]?) = Function.update (fun f => k[f]?) k.length (some ref) := by
  funext f
  by_cases hf : f = k.length
  · simp [hf]
  · rw [Function.update_of_ne hf]
    rcases Nat.lt_or_gt_of_ne hf with h | h
    · exact List.getElem?_append_left h
    · rw [List.getElem?_eq_none (show k.length ≤ f by omega)]
      exact List.getElem?_eq_none (by simp; omega)

def plainKernelContract : plainKernel.Contract where
  holder := fun k f => k[f]?
  saved := fun _ _ => none
  ask := fun k _ ref => ⟨k.length, rfl, plainKernel_holder k ref, .inl ⟨by simp, rfl, rfl⟩⟩
  read_holder := fun _ _ _ => rfl
  read_saved := fun _ _ _ _ h => absurd h (by simp)
  read_none := fun _ _ _ _ => ⟨rfl, rfl⟩

/-- Entries are dropped by a flush only. -/
def plainTlb : Tlb (ℕ → Option Slot) where
  create := fun _ => none
  getPte := fun t n => (t n, t)
  addPte := fun t n slot => Function.update t n (some slot)
  flush := fun _ _ => none

def plainTlbContract : plainTlb.Contract where
  last := id
  create := fun _ => rfl
  get := fun _ _ => .inr rfl
  get_last := fun _ _ => rfl
  add := fun _ _ _ => rfl
  flush := fun _ _ => rfl

def inSegments (segments : List VmSegmentation) (a : ℕ) : Bool :=
  segments.any fun s => s.start ≤ a && a < s.stop

/-- The unit before any process is added. -/
def booted : World (List Ref) (ℕ → Option Slot) :=
  ⟨mmuCreate plainTlb [] ⟨fun _ => .zero, fun _ => 0⟩, []⟩

instance {a pid : ℕ} {w : Mmu κ τ} : Decidable (NoTable L a pid w) :=
  inferInstanceAs (Decidable (_ ∧ _))

instance : (action : Action) → Decidable (TableGuard L w action)
  | .add _ => isTrue trivial
  | .read _ _ _ | .write _ _ _ => inferInstanceAs (Decidable (_ → _))

/-- The perform function of the plain kernel. -/
def plainStep (w : World (List Ref) (ℕ → Option Slot)) (action : Action) :
    Option (World (List Ref) (ℕ → Option Slot)) :=
  perform plainKernel plainTlb inSegments w action

/-- A process reads what it has written to a page of its first table. -/
theorem run_honest_testing : ∃ w : World (List Ref) (ℕ → Option Slot),
    Access.read 1 4096 1 (some [7]) ∈ w.history ∧ Honest w.history := by
  have hfold : (([.add 1, .add 2, .write 1 4096 [7], .read 2 4096 1, .read 1 4096 1].foldlM
      (fun w action => if TableGuard plainTlb w action then plainStep w action else none)
      booted).map fun w => w.history.head?) = some (some (.read 1 4096 1 (some [7]))) := by
    decide +kernel
  obtain ⟨w, hw, hhead⟩ := Option.map_eq_some_iff.mp hfold
  exact ⟨w, List.mem_of_mem_head? hhead, (run_honest plainKernelContract plainTlbContract
    (fun _ => rfl) (fun _ => rfl) (Run.of_foldlM hw)).1⟩

/-- A byte of the first data page is lost when another process runs in between. -/
theorem run_not_honest :
    ¬ ∀ (κ τ : Type) (K : Kernel κ) (L : Tlb τ)
      (addressInSegmentations : List VmSegmentation → ℕ → Bool) (C : K.Contract) (_ : L.Contract)
      (kernel : κ) (memory : Memory) (actions : List Action) (w : World κ τ),
      (∀ f, C.holder kernel f = none) → (∀ s, C.saved kernel s = none) →
      Run (Step K L addressInSegmentations) ⟨mmuCreate L kernel memory, []⟩ actions w →
        Honest w.history := by
  intro hall
  have hfold : (([.add 1, .add 2, .write 1 0x08052000 [7], .read 2 4096 1,
      .read 1 0x08052000 1].foldlM
        (fun w action => if True then plainStep w action else none) booted).map
          fun w => w.history) =
      some [.read 1 0x08052000 1 (some [0]), .read 2 4096 1 (some [0]), .write 1 0x08052000 [7],
        .add 2, .add 1] := by
    decide +kernel
  obtain ⟨w, hw, hhistory⟩ := Option.map_eq_some_iff.mp hfold
  have hhonest := hall _ _ plainKernel plainTlb inSegments plainKernelContract plainTlbContract _ _
    _ _ (fun _ => rfl) (fun _ => rfl) ((Run.of_foldlM hw).mono fun h => h.2)
  rw [hhistory] at hhonest
  exact absurd hhonest.1 (by decide)

end Cs241.Paging
