import Cs241.Memcheck.Histories

/-!
# What `mini_realloc` should do

A call for a live payload should renew its node, wherever the block is afterwards, or change
nothing where the system has no memory. It does so exactly if it asks for another size and the
block stays where it is.
-/
namespace Cs241.Memcheck

open Foundation

section Definitions

variable (sizeofMetaData : UInt64) (s : Heap)

/-- What a node tells about its allocation. -/
def Heap.entry (a : Address) : Option (UInt64 × Option Address × Option Address) :=
  (s.blocks a).map fun block =>
    (block.node.requestSize, block.node.filename, block.node.instruction)

/-- The nodes lie in their blocks. -/
def Heap.Room (xs : List Address) : Prop :=
  ∀ a ∈ xs, ∃ block, s.blocks a = some block ∧ sizeofMetaData ≤ block.size

/-- The list `xs` with the node at `a` moved to `ptr`. -/
def moved (a ptr : Address) (xs : List Address) : List Address :=
  xs.map fun x => if x = a then ptr else x

/-- The list holds the same nodes in the same order. Only the one from `a`, now at `ptr`, tells
another size and call site, and the difference of the sizes has been counted. -/
structure Renewed (s s' : Heap) (xs : List Address) (a ptr : Address) (requestSize : UInt64)
    (filename instruction : Option Address) : Prop where
  listed : Listed s' (moved a ptr xs)
  room : s'.Room sizeofMetaData (moved a ptr xs)
  entry : s'.entry ptr = some (requestSize, filename, instruction)
  others : ∀ x ∈ xs, x ≠ a → s'.entry x = s.entry x
  requested : s'.totalMemoryRequested = s.totalMemoryRequested +
    if s.requestSize a < requestSize then requestSize - s.requestSize a else 0
  freed : s'.totalMemoryFreed = s.totalMemoryFreed +
    if requestSize < s.requestSize a then s.requestSize a - requestSize else 0
  invalid : s'.invalidAddresses = s.invalidAddresses

/-- A call of `mini_realloc` with a payload and a size does what it should do: it renews the node of
a live payload and returns where the memory behind it is now, or returns `NULL` and leaves all as it
is where the system has no memory; another payload counts as invalid. -/
def Reallocates (w : History) (xs : List Address) (payload : Address) (requestSize : UInt64)
    (filename instruction answer : Option Address) : Prop :=
  (payload ∈ payloads w.log →
    (∃ fuel ptr s', miniRealloc sizeofMetaData w.heap fuel (some payload) requestSize filename
        instruction answer = some (some (ptr + sizeofMetaData), s') ∧
      Renewed sizeofMetaData w.heap s' xs (payload - sizeofMetaData) ptr requestSize filename
        instruction) ∨
    (answer = none ∧ ∃ fuel, miniRealloc sizeofMetaData w.heap fuel (some payload) requestSize
      filename instruction answer = some (none, w.heap))) ∧
  (payload ∉ payloads w.log →
    ∃ fuel, miniRealloc sizeofMetaData w.heap fuel (some payload) requestSize filename instruction
      answer = some (none, { w.heap with invalidAddresses := w.heap.invalidAddresses + 1 }))

/-- The calls that do what they should: the nodes have room in their blocks, and a live payload gets
another size from a `realloc` that leaves the block where it is. -/
def Op.Regular (w : History) : Op → Prop
  | .call c => ∀ request ∈ c.request, sizeofMetaData.toNat + request.1.toNat < 2 ^ 64
  | .realloc none requestSize _ _ _ => sizeofMetaData.toNat + requestSize.toNat < 2 ^ 64
  | .realloc (some payload) requestSize _ _ answer =>
    requestSize = 0 ∨ (payload ∈ payloads w.log →
      requestSize ≠ w.heap.requestSize (payload - sizeofMetaData) ∧
        answer = some (payload - sizeofMetaData) ∧ sizeofMetaData ≤ requestSize * sizeofMetaData)

end Definitions

variable {m requestSize : UInt64} {s s' : Heap} {w : History} {a payload ptr : Address} {op : Op}
  {filename instruction answer : Option Address} {xs pre post : List Address}
  {block block' : Block}

/-! ## At the node -/

theorem moved_self (a : Address) (xs : List Address) : moved a a xs = xs := by
  unfold moved
  refine (List.map_congr_left fun x _ => ?_).trans (List.map_id xs)
  split_ifs with hx
  exacts [hx.symm, rfl]

theorem moved_append (hpre : a ∉ pre) :
    moved a ptr (pre ++ a :: post) = pre ++ ptr :: moved a ptr post := by
  have hid : pre.map (fun x => if x = a then ptr else x) = pre := by
    refine (List.map_congr_left fun x hx => ?_).trans (List.map_id pre)
    exact if_neg (ne_of_mem_of_not_mem hx hpre)
  rw [moved, List.map_append, hid, List.map_cons, if_pos rfl, moved]

/-- The head or the node in front of a block that has moved leads to where it was. -/
theorem Listed.not_moved (h : Listed s xs) (ha : a ∈ xs) (hptr : ptr ≠ a) (hfresh : ptr ∉ xs)
    (hblocks : s'.blocks = s.blocks) (hhead : s'.head = s.head) :
    ¬ Listed (s'.replace a ptr block') (moved a ptr xs) := by
  intro h'
  obtain ⟨pre, post, rfl⟩ := List.append_of_mem ha
  have hpre : a ∉ pre := fun hmem =>
    (List.nodup_append.mp h.nodup).2.2 a hmem a List.mem_cons_self rfl
  have hchain := h'.chain
  rw [moved_append hpre, Heap.replace, hhead] at hchain
  refine hptr (h.chain.unique hchain fun x hx => ?_)
  have hxa : x ≠ a := ne_of_mem_of_not_mem hx hpre
  have hxptr : x ≠ ptr := ne_of_mem_of_not_mem (List.mem_append_left _ hx) hfresh
  simp [Heap.link, hblocks, hxa, hxptr]

theorem count_counters (s : Heap) (old new : UInt64) :
    (s.count old new).totalMemoryRequested =
        s.totalMemoryRequested + (if old < new then new - old else 0) ∧
      (s.count old new).totalMemoryFreed =
        s.totalMemoryFreed + (if new < old then old - new else 0) ∧
      (s.count old new).invalidAddresses = s.invalidAddresses := by
  unfold Heap.count
  split_ifs with hlt hgt
  · exact absurd (UInt64.lt_trans hlt hgt) (UInt64.lt_irrefl old)
  all_goals simp

/-- A block that stays where it is. -/
theorem renewed_of_stays (h : Listed s xs) (hroom : s.Room m xs) (hblock : s.blocks a = some block)
    (hnext : block'.node.next = block.node.next) (hbytes : m ≤ block'.size)
    (hentry : (block'.node.requestSize, block'.node.filename, block'.node.instruction) =
      (requestSize, filename, instruction)) :
    Renewed m s ((s.count block.node.requestSize requestSize).replace a a block') xs a a
      requestSize filename instruction := by
  have hcounters := count_counters s block.node.requestSize requestSize
  have hsize : s.requestSize a = block.node.requestSize := by simp [Heap.requestSize, hblock]
  have hblocks := replace_self_blocks (s.count block.node.requestSize requestSize) a block'
  rw [count_blocks] at hblocks
  constructor
  · rw [moved_self]
    exact h.rewrite hblock hnext hblocks (count_head _ _ _)
  · rw [moved_self]
    intro x hx
    rw [hblocks]
    rcases eq_or_ne x a with rfl | hne
    · exact ⟨_, Function.update_self _ _ _, hbytes⟩
    · rw [Function.update_of_ne hne]
      exact hroom x hx
  · rw [Heap.entry, hblocks, Function.update_self, Option.map_some, hentry]
  · intro x _ hne
    rw [Heap.entry, hblocks, Function.update_of_ne hne, Heap.entry]
  · rw [hsize]
    exact hcounters.1
  · rw [hsize]
    exact hcounters.2.1
  · exact hcounters.2.2

/-- Without a move, without the exit for the same size, and where the block has room for it, the
node is renewed; otherwise it is not. -/
theorem reallocNode_renews_iff (h : Listed s xs) (hroom : s.Room m xs) (ha : a ∈ xs)
    (hblock : s.blocks a = some block) (hm : m ≠ 0)
    (hanswer : ∀ ptr ∈ answer, ptr = a ∨ s.blocks ptr = none) :
    (∃ ptr s', reallocNode m s requestSize filename instruction answer a block =
        some (some (ptr + m), s') ∧
      Renewed m s s' xs a ptr requestSize filename instruction) ↔
    requestSize ≠ s.requestSize a ∧ answer = some a ∧ m ≤ requestSize * m := by
  have hsize : s.requestSize a = block.node.requestSize := by simp [Heap.requestSize, hblock]
  rw [hsize]
  constructor
  · rintro ⟨ptr, s', hout, hrenewed⟩
    rcases reallocNode_cases hout with ⟨-, block', hout, -⟩ |
        ⟨hother, q, block', rfl, hout, hbytes, -⟩
    · -- What is returned would have to be behind the node.
      obtain ⟨hresult, rfl⟩ := Prod.mk.inj hout
      have hmem : a ∈ moved a ptr xs := by
        rw [hrenewed.listed.mem_iff, replace_self_blocks]
        simp
      obtain ⟨x, -, hx⟩ := List.mem_map.mp hmem
      split_ifs at hx with hxa
      · have hsum : ptr + m = ptr := (Option.some.inj hresult).trans hx.symm
        exact absurd (by simpa using hsum) hm
      · exact absurd hx hxa
    · obtain ⟨hresult, rfl⟩ := Prod.mk.inj hout
      obtain rfl : ptr = q := by simpa using hresult
      have hstays : ptr = a := by
        by_contra hne
        have hfresh : ptr ∉ xs := by
          rw [h.mem_iff, (hanswer ptr rfl).resolve_left hne]
          simp
        exact h.not_moved ha hne hfresh (count_blocks _ _ _) (count_head _ _ _) hrenewed.listed
      obtain rfl := hstays
      obtain ⟨block'', hblock'', hroom'⟩ := hrenewed.room ptr (by rwa [moved_self])
      rw [replace_self_blocks, Function.update_self] at hblock''
      obtain rfl := Option.some.inj hblock''
      exact ⟨hother, rfl, hbytes ▸ hroom'⟩
  · rintro ⟨hne, rfl, hbytes⟩
    exact ⟨a, _, if_neg hne, renewed_of_stays h hroom hblock rfl hbytes rfl⟩

/-! ## Runs -/

/-- What is known of the sizes: a node has room in its block. -/
def Roomy (m : UInt64) (_ : ℕ) (sizes : UInt64 × UInt64) : Prop := m ≤ sizes.1

theorem le_add_of_lt (h : m.toNat + requestSize.toNat < 2 ^ 64) : m ≤ m + requestSize := by
  rw [UInt64.le_iff_toNat_le, UInt64.toNat_add, Nat.mod_eq_of_lt h]
  omega

theorem Op.Regular.meets (h : op.Regular m w) : op.Meets (Roomy m) m w := by
  cases op with
  | call c =>
    cases c with
    | malloc requestSize filename instruction answer => exact fun _ _ => le_add_of_lt (h _ rfl)
    | calloc numElements elementSize filename instruction answer =>
      exact fun _ _ => le_add_of_lt (h _ rfl)
    | free payload => trivial
  | realloc payload requestSize filename instruction answer =>
    cases payload with
    | none => exact fun _ _ => le_add_of_lt h
    | some payload =>
      intro hsize hlive block hblock
      obtain ⟨hother, rfl, hbytes⟩ := h.resolve_left hsize hlive
      have hrecorded : w.heap.requestSize (payload - m) = block.node.requestSize := by
        simp [Heap.requestSize, Option.mem_def.mp hblock]
      rw [if_neg (hrecorded ▸ hother)]
      rintro ptr ⟨⟩
      exact ⟨rfl, hbytes⟩

theorem Holds.room (h : Holds (Roomy m) m w xs) : w.heap.Room m xs := by
  intro a ha
  have hlive : a + m ∈ payloads w.log := by rwa [h.mem_payloads, UInt64.add_sub_cancel]
  obtain ⟨x, hx, hpayload⟩ := List.mem_map.mp hlive
  obtain ⟨z, hz, hroom⟩ := h.sizes x hx
  rw [hpayload, UInt64.add_sub_cancel] at hz
  obtain ⟨block, hblock, rfl⟩ := Option.map_eq_some_iff.mp hz
  exact ⟨block, hblock, hroom⟩

/-- A call does what it should do exactly if it is regular. -/
theorem Holds.reallocates_iff (h : Holds (Roomy m) m w xs) (hm : m ≠ 0) (hsize : requestSize ≠ 0)
    (hfresh : (Op.realloc (some payload) requestSize filename instruction answer).Fresh m w.heap) :
    Reallocates m w xs payload requestSize filename instruction answer ↔
      (Op.realloc (some payload) requestSize filename instruction answer).Regular m w := by
  have hregular : (Op.realloc (some payload) requestSize filename instruction answer).Regular m w ↔
      (payload ∈ payloads w.log → requestSize ≠ w.heap.requestSize (payload - m) ∧
        answer = some (payload - m) ∧ m ≤ requestSize * m) := by
    rw [Op.Regular, or_iff_right hsize]
  rw [hregular, Reallocates]
  by_cases hlive : payload ∈ payloads w.log
  · have ha := h.mem_payloads.mp hlive
    obtain ⟨block, hblock⟩ := h.block hlive
    simp only [hlive, forall_const, not_true_eq_false, IsEmpty.forall_iff, and_true]
    have hrenews : (∃ ptr s', reallocNode m w.heap requestSize filename instruction answer
        (payload - m) block = some (some (ptr + m), s') ∧
        Renewed m w.heap s' xs (payload - m) ptr requestSize filename instruction) ↔ _ :=
      reallocNode_renews_iff h.listed h.room ha hblock hm hfresh
    rw [← hrenews]
    constructor
    · rintro (⟨fuel, ptr, s', hout, hrenewed⟩ | ⟨-, hnull⟩)
      · exact ⟨ptr, s', (h.realloc_live hlive hblock hsize).mp ⟨fuel, hout⟩, hrenewed⟩
      · exact absurd ((h.realloc_live hlive hblock hsize).mp hnull) reallocNode_ne_none
    · rintro ⟨ptr, s', hout, hrenewed⟩
      obtain ⟨fuel, hcall⟩ := (h.realloc_live hlive hblock hsize).mpr hout
      exact .inl ⟨fuel, ptr, s', hcall, hrenewed⟩
  · have hdead : ∃ fuel, miniRealloc m w.heap fuel (some payload) requestSize filename instruction
        answer = some (none, _) :=
      (miniRealloc_dead h.listed (h.mem_payloads.not.mp hlive) hsize).mpr rfl
    simp [hlive, hdead]

/-- After a run of regular calls the list is what the callers hold, and a call of `mini_realloc` does
what it should do exactly if it is regular. -/
theorem run_reallocates_iff (hm : m ≠ 0) {ops : List Op}
    (hrun : Run (Guarded (Performs m) (Op.Regular m)) .init ops w) :
    ∃ xs, Listed w.heap xs ∧ xs.map (· + m) = payloads w.log ∧
      ∀ payload requestSize filename instruction answer, requestSize ≠ 0 →
        (Op.realloc (some payload) requestSize filename instruction answer).Fresh m w.heap →
          (Reallocates m w xs payload requestSize filename instruction answer ↔
            (Op.realloc (some payload) requestSize filename instruction answer).Regular m w) := by
  obtain ⟨xs, h⟩ := holds_of_run (P := Roomy m) (fun _ hregular => hregular.meets) hrun
  exact ⟨xs, h.listed, h.map_eq, fun _ _ _ _ _ hsize hfresh =>
    h.reallocates_iff hm hsize hfresh⟩

theorem run_oneBlock : Run (Guarded (Performs 32) (Op.Regular 32)) .init
    [.call (.malloc 5 none none (some 4096))] oneBlock := by
  refine .single ⟨?_, performs_oneBlock⟩
  rintro request ⟨⟩
  decide

/-- The block stays where it is. -/
theorem run_reallocates_iff_oneBlock :
    ∃ xs, Reallocates 32 oneBlock xs 4128 6 none none (some 4096) := by
  obtain ⟨xs, -, -, hiff⟩ := run_reallocates_iff (by decide) run_oneBlock
  have hfresh : (Op.realloc (some 4128) 6 none none (some 4096)).Fresh 32 oneBlock.heap := by
    rintro ptr ⟨⟩
    exact .inl rfl
  exact ⟨xs, (hiff 4128 6 none none (some 4096) (by decide) hfresh).mpr (.inr fun _ => by decide)⟩

/-- The block moves, and the head of the list does not. -/
theorem not_reallocates :
    Run (Performs 32) .init [.call (.malloc 5 none none (some 4096))] oneBlock ∧
      ∃ xs, Listed oneBlock.heap xs ∧
        (Op.realloc (some 4128) 6 none none (some 8192)).Fresh 32 oneBlock.heap ∧
        ¬ Reallocates 32 oneBlock xs 4128 6 none none (some 8192) := by
  obtain ⟨xs, h⟩ := holds_of_run (P := Roomy 32) (fun _ hregular => hregular.meets) run_oneBlock
  have hfresh : (Op.realloc (some 4128) 6 none none (some 8192)).Fresh 32 oneBlock.heap := by
    rintro ptr ⟨⟩
    exact .inr rfl
  refine ⟨run_oneBlock.mono And.right, xs, h.listed, hfresh, fun hcall => ?_⟩
  have hregular := (h.reallocates_iff (by decide) (by decide) hfresh).mp hcall
  obtain ⟨-, hanswer, -⟩ := hregular.resolve_left (by decide) (by decide)
  exact absurd hanswer (by decide)

end Cs241.Memcheck
