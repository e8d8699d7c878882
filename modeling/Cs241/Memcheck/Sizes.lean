import Cs241.Memcheck.Histories

/-!
# Room for what was asked

A block should have room for its node and for what its caller last asked for. The sums and
products in front of the system's calls wrap, and `mini_realloc` asks for a multiple of the size
of a node in place of a sum, which is too little for a single byte.
-/
namespace Cs241.Memcheck

open Foundation

/-- Each node of the list is at the start of a block that has room for it and for what its caller
last asked for. -/
def Sufficient (m : UInt64) (w : History) : Prop :=
  ∃ xs, Chain w.heap.link w.heap.head xs ∧ xs.map (· + m) = payloads w.log ∧
    ∀ x ∈ asked w.log, ∃ block, w.heap.blocks (x.1 - m) = some block ∧
      m.toNat + x.2 ≤ block.size.toNat

/-- No block is moved. -/
def Op.Stays (m : UInt64) : Op → Prop
  | .realloc (some payload) _ _ _ answer => ∀ ptr ∈ answer, ptr = payload - m
  | _ => True

/-- The size that is computed does not fall short; no block is asked for with a size of zero, and
none is handed out without an answer. -/
def Op.Covered (m : UInt64) (w : History) : Op → Prop
  | .call (.malloc requestSize _ _ answer) =>
    requestSize ≠ 0 → answer ≠ none → m.toNat + requestSize.toNat < 2 ^ 64
  | .call (.calloc numElements elementSize _ _ answer) =>
    numElements * elementSize ≠ 0 → answer ≠ none →
      m.toNat + numElements.toNat * elementSize.toNat < 2 ^ 64
  | .call (.free _) => True
  | .realloc none requestSize _ _ answer =>
    requestSize ≠ 0 → answer ≠ none → m.toNat + requestSize.toNat < 2 ^ 64
  | .realloc (some payload) requestSize _ _ _ =>
    requestSize ≠ 0 → payload ∈ payloads w.log →
      requestSize ≠ w.heap.requestSize (payload - m) →
        m.toNat + requestSize.toNat ≤ (requestSize * m).toNat

/-- What is known of the sizes: the node tells what was asked for, and the block has room for it. -/
def Enough (m : UInt64) (n : ℕ) (sizes : UInt64 × UInt64) : Prop :=
  sizes.2.toNat = n ∧ m.toNat + n ≤ sizes.1.toNat

variable {m requestSize : UInt64} {w w' : History} {xs : List Address} {payload : Address}
  {op : Op} {filename instruction answer : Option Address} {n : ℕ} {fuel : ℕ}

/-! ## Enough is sufficient -/

theorem Holds.sufficient (h : Holds (Enough m) m w xs) : Sufficient m w := by
  refine ⟨xs, h.listed.chain, h.map_eq, fun x hx => ?_⟩
  obtain ⟨z, hz, -, hroom⟩ := h.sizes x hx
  obtain ⟨block, hblock, rfl⟩ := Option.map_eq_some_iff.mp hz
  exact ⟨block, hblock, hroom⟩

theorem Sufficient.le_size (h : Sufficient m w) {x : Address × ℕ} (hx : x ∈ asked w.log)
    {z : UInt64 × UInt64} (hz : w.heap.sizes (x.1 - m) = some z) :
    m.toNat + x.2 ≤ z.1.toNat := by
  obtain ⟨xs, -, -, hroom⟩ := h
  obtain ⟨block, hblock, hle⟩ := hroom x hx
  obtain rfl : (block.size, block.node.requestSize) = z := by simpa [Heap.sizes, hblock] using hz
  exact hle

theorem enough_add (h : m.toNat + requestSize.toNat < 2 ^ 64) (hn : requestSize.toNat = n) :
    Enough m n (m + requestSize, requestSize) := by
  refine ⟨hn, ?_⟩
  rw [UInt64.toNat_add, Nat.mod_eq_of_lt h, hn]

/-- A call that does not fall short keeps all blocks large enough. -/
theorem Op.Covered.meets (h : Holds (Enough m) m w xs) (hstays : op.Stays m)
    (hcovered : op.Covered m w) : op.Meets (Enough m) m w := by
  cases op with
  | call c =>
    cases c with
    | malloc requestSize filename instruction answer =>
      exact fun hsize hanswer => enough_add (hcovered hsize hanswer) rfl
    | calloc numElements elementSize filename instruction answer =>
      intro hsize hanswer
      have hfits := hcovered hsize hanswer
      have hproduct : (numElements * elementSize).toNat = numElements.toNat * elementSize.toNat := by
        rw [UInt64.toNat_mul, Nat.mod_eq_of_lt (by omega)]
      exact enough_add (by rwa [hproduct]) hproduct
    | free payload => trivial
  | realloc payload requestSize filename instruction answer =>
    cases payload with
    | none => exact fun hsize hanswer => enough_add (hcovered hsize hanswer) rfl
    | some payload =>
      intro hsize hlive block hblock
      have hblock := Option.mem_def.mp hblock
      split_ifs with hsame
      · obtain ⟨x, hx, rfl⟩ := List.mem_map.mp hlive
        obtain ⟨z, hz, hsizes, hroom⟩ := h.sizes x hx
        obtain rfl : (block.size, block.node.requestSize) = z := by
          simpa [Heap.sizes, hblock] using hz
        rw [← hsame] at hsizes
        exact ⟨rfl, by rwa [hsizes]⟩
      · have hrecorded : w.heap.requestSize (payload - m) = block.node.requestSize := by
          simp [Heap.requestSize, hblock]
        exact fun ptr hptr =>
          ⟨hstays ptr hptr, rfl, hcovered hsize hlive (hrecorded ▸ hsame)⟩

/-! ## Nothing less is sufficient -/

/-- A new block whose size has wrapped has no room for what was asked. -/
theorem lt_of_le_add (h : m.toNat + n ≤ (m + requestSize).toNat) : m.toNat + n < 2 ^ 64 :=
  h.trans_lt (m + requestSize).toNat_lt

theorem Sufficient.malloc {op : Op} {result : Option Address} {heap : Heap}
    (h : Sufficient m { heap := heap, log := (op, result) :: w.log })
    (hout : miniMalloc m w.heap requestSize filename instruction answer = (result, heap))
    (hsome : ∀ ptr, asked ((op, some ptr) :: w.log) = (ptr, n) :: asked w.log)
    (hsize : requestSize ≠ 0) (hanswer : answer ≠ none) : m.toNat + n < 2 ^ 64 := by
  obtain ⟨ptr, rfl⟩ := Option.ne_none_iff_exists'.mp hanswer
  rcases miniMalloc_sizes m w.heap requestSize filename instruction (some ptr) with hnull |
      ⟨-, ptr', s', hptr, hout', hnew, -⟩
  · simp [miniMalloc, hsize] at hnull
  · obtain rfl := Option.some.inj hptr
    obtain ⟨rfl, rfl⟩ := Prod.mk.inj (hout'.symm.trans hout)
    have hmem : (ptr + m, n) ∈ asked ((op, some (ptr + m)) :: w.log) := by
      rw [hsome]
      exact List.mem_cons_self
    have hle := h.le_size hmem (z := (m + requestSize, requestSize)) (by simpa using hnew)
    exact lt_of_le_add hle

theorem Sufficient.covered (h : Holds (Enough m) m w xs) (hstays : op.Stays m)
    (hstep : Performs m w op w') (h' : Sufficient m w') : op.Covered m w := by
  obtain ⟨-, fuel, result, heap, hperform, rfl⟩ := hstep
  cases op with
  | call c =>
    cases c with
    | malloc requestSize filename instruction answer =>
      exact h'.malloc (Option.some.inj hperform) fun _ => rfl
    | calloc numElements elementSize filename instruction answer =>
      exact h'.malloc (show miniMalloc m w.heap (numElements * elementSize) filename instruction
        answer = _ from Option.some.inj hperform) fun _ => rfl
    | free payload => trivial
  | realloc payload requestSize filename instruction answer =>
    cases payload with
    | none =>
      intro hsize
      rw [Op.perform, miniRealloc, if_neg hsize] at hperform
      exact h'.malloc (Option.some.inj hperform) (fun _ => rfl) hsize
    | some payload =>
      intro hsize hlive hother
      rcases h.realloc_cases hperform with ⟨hzero, -⟩ | ⟨-, hdead, -⟩ | ⟨-, -, block, hblock, hnode⟩
      · exact absurd hzero hsize
      · exact absurd hlive hdead
      have hrecorded : w.heap.requestSize (payload - m) = block.node.requestSize := by
        simp [Heap.requestSize, hblock]
      rcases reallocNode_cases hnode with ⟨hsame, -⟩ |
          ⟨-, ptr, block', rfl, hout, hbytes, -, hnext⟩
      · exact absurd hsame (hrecorded ▸ hother)
      obtain rfl : ptr = payload - m := hstays ptr rfl
      obtain ⟨rfl, rfl⟩ := Prod.mk.inj hout
      obtain ⟨-, hnew, -⟩ := h.listed.replace hblock hnext
        (count_blocks w.heap block.node.requestSize requestSize) (count_head _ _ _)
      obtain ⟨x, hx, rfl⟩ := List.mem_map.mp hlive
      have hle := h'.le_size (List.mem_map.mpr ⟨x, hx, if_pos rfl⟩) hnew
      rwa [hbytes] at hle

/-! ## Runs -/

/-- As long as no call falls short all blocks are large enough, and after the first one that does
they are not. -/
theorem run_sufficient_iff {ops : List Op}
    (hrun : Run (Guarded (Performs m) fun w op => op.Stays m ∧ op.Covered m w) .init ops w) :
    Sufficient m w ∧ ∀ op w', op.Stays m → Performs m w op w' →
      (Sufficient m w' ↔ op.Covered m w) := by
  obtain ⟨xs, h⟩ := holds_of_run (P := Enough m) (fun h hg => hg.2.meets h hg.1) hrun
  refine ⟨h.sufficient, fun op w' hstays hstep => ⟨fun h' => h'.covered h hstays hstep, ?_⟩⟩
  intro hcovered
  obtain ⟨xs', hnext⟩ := h.next hstep (hcovered.meets h hstays)
  exact hnext.sufficient

theorem run_sufficient_iff_oneBlock : Sufficient 32 oneBlock := by
  have hstays : (Op.call (.malloc 5 none none (some 4096))).Stays 32 := trivial
  have hcovered : (Op.call (.malloc 5 none none (some 4096))).Covered 32 .init :=
    fun _ _ => by decide
  exact (run_sufficient_iff (.single ⟨⟨hstays, hcovered⟩, performs_oneBlock⟩)).1

/-- A block of one byte is asked for with the size of one node. -/
theorem not_sufficient : ∃ w, Run (Guarded (Performs 32) fun _ op => op.Stays 32) .init
    [.call (.malloc 5 none none (some 4096)), .realloc (some 4128) 1 none none (some 4096)] w ∧
      ¬ Sufficient 32 w := by
  have hstays : (Op.realloc (some 4128) 1 none none (some 4096)).Stays 32 := by
    rintro ptr ⟨⟩
    rfl
  have hmalloc : (Op.call (.malloc 5 none none (some 4096))).Stays 32 := trivial
  have hone : Run (Guarded (Performs 32) fun _ op => op.Stays 32) .init _ oneBlock :=
    .single ⟨hmalloc, performs_oneBlock⟩
  refine ⟨_, hone.tail ⟨hstays, fun ptr hptr => .inl (hstays ptr hptr), 1, _, _, rfl, rfl⟩, ?_⟩
  intro h
  have hle := h.le_size (x := (4128, 1)) (z := (32, 1)) (by decide) rfl
  revert hle
  decide

end Cs241.Memcheck
