import Cs241.Memcheck.Realloc

/-!
# Calls one after another

The list of the wrappers and the list of what their callers hold go together, as long as no
block moves. What is known of the sizes in each block (a relation `P` between what its caller
last asked for and these sizes) only has to be looked at where a block is handed out or
reallocated.
-/
namespace Cs241.Memcheck

open Foundation

variable {P : ℕ → UInt64 × UInt64 → Prop} {m requestSize : UInt64} {s s' : Heap}
  {w w' : History} {xs : List Address} {a payload : Address} {op : Op} {fuel n : ℕ}
  {filename instruction answer result : Option Address}

/-- The list is `xs`, its nodes are in front of the addresses that the callers may use, and the sizes
in their blocks are as `P` tells. -/
structure Holds (P : ℕ → UInt64 × UInt64 → Prop) (m : UInt64) (w : History)
    (xs : List Address) : Prop where
  listed : Listed w.heap xs
  map_eq : xs.map (· + m) = payloads w.log
  sizes : ∀ x ∈ asked w.log, ∃ z ∈ w.heap.sizes (x.1 - m), P x.2 z

theorem init_holds : Holds P m .init [] := ⟨init_listed, rfl, by simp [History.init, asked]⟩

theorem Holds.mem_payloads (h : Holds P m w xs) :
    payload ∈ payloads w.log ↔ payload - m ∈ xs := by
  rw [← h.map_eq, List.mem_map]
  constructor
  · rintro ⟨a, ha, rfl⟩
    simpa using ha
  · exact fun ha => ⟨_, ha, by simp⟩

theorem Holds.nodup (h : Holds P m w xs) : (payloads w.log).Nodup := by
  rw [← h.map_eq]
  exact h.listed.nodup.map (add_left_injective m)

/-- A block on the list. -/
theorem Holds.block (h : Holds P m w xs) (hlive : payload ∈ payloads w.log) :
    ∃ block, w.heap.blocks (payload - m) = some block :=
  Option.isSome_iff_exists.mp ((h.listed.mem_iff _).mp (h.mem_payloads.mp hlive))

theorem map_fst_entries (s : Heap) (xs : List Address) :
    (s.entries m xs).map Prod.fst = xs.map (· + m) := by
  rw [Heap.entries, List.map_map]
  rfl

theorem map_fst_eraseP {β : Type*} {l : List (Address × β)} :
    (l.eraseP fun x => x.1 = payload).map Prod.fst = (l.map Prod.fst).erase payload := by
  rw [List.erase_eq_eraseP', List.eraseP_map]
  congr 2

/-- No other entry has the address that is taken out. -/
theorem ne_of_mem_eraseP {l : List (Address × ℕ)} (hl : (l.map Prod.fst).Nodup) {x : Address × ℕ}
    (hx : x ∈ l.eraseP fun x => x.1 = payload) : x.1 ≠ payload := by
  rintro rfl
  have hmem := List.mem_map_of_mem (f := Prod.fst) hx
  rw [map_fst_eraseP] at hmem
  exact hl.not_mem_erase hmem

/-! ## The sizes in the other blocks -/

theorem relink_sizes {prev next : Option Address} {r : Heap} (h : s.relink prev next = some r) :
    r.sizes = s.sizes := by
  funext x
  cases prev with
  | none =>
    obtain rfl := Option.some.inj h
    rfl
  | some prev =>
    obtain ⟨block, hblock, rfl⟩ := Option.map_eq_some_iff.mp h
    rcases eq_or_ne x prev with rfl | hne
    · simp [Heap.sizes, hblock]
    · simp [Heap.sizes, hne]

theorem freeLoop_sizes {prev curr : Option Address}
    (h : freeLoop s a fuel prev curr = some s') {x : Address} (hx : x ≠ a) :
    s'.sizes x = s.sizes x := by
  induction fuel generalizing prev curr with
  | zero => simp [freeLoop] at h
  | succ fuel ih =>
    cases curr with
    | none =>
      obtain rfl := Option.some.inj h
      rfl
    | some curr =>
      obtain ⟨block, hblock, h⟩ := Option.bind_eq_some_iff.mp h
      split_ifs at h with hcurr
      · obtain rfl := hcurr
        obtain ⟨r, hr, rfl⟩ := Option.map_eq_some_iff.mp h
        rw [← relink_sizes hr]
        simp [Heap.sizes, Heap.release, hx]
      · exact ih h

theorem miniMalloc_sizes (m : UInt64) (s : Heap) (requestSize : UInt64)
    (filename instruction answer : Option Address) :
    miniMalloc m s requestSize filename instruction answer = (none, s) ∨
      requestSize ≠ 0 ∧ ∃ ptr s', answer = some ptr ∧
        miniMalloc m s requestSize filename instruction answer = (some (ptr + m), s') ∧
        s'.sizes ptr = some (m + requestSize, requestSize) ∧
        ∀ x ≠ ptr, s'.sizes x = s.sizes x := by
  rcases miniMalloc_cases m s requestSize filename instruction answer with hnone |
    ⟨hzero, ptr, hptr, hsome⟩
  · exact .inl hnone
  · refine .inr ⟨hzero, ptr, _, hptr, hsome, by simp [Heap.sizes], fun x hx => ?_⟩
    simp [Heap.sizes, hx]

/-- A node that is written again in its place. -/
theorem Listed.replace {r : Heap} {block block' : Block} (h : Listed s xs)
    (hblock : s.blocks a = some block) (hnext : block'.node.next = block.node.next)
    (hblocks : r.blocks = s.blocks) (hhead : r.head = s.head) :
    Listed (r.replace a a block') xs ∧
      (r.replace a a block').sizes a = some (block'.size, block'.node.requestSize) ∧
      ∀ x ≠ a, (r.replace a a block').sizes x = s.sizes x := by
  have hreplace := replace_self_blocks r a block'
  rw [hblocks] at hreplace
  refine ⟨h.rewrite hblock hnext hreplace hhead, ?_, fun x hx => ?_⟩
  · rw [Heap.sizes, hreplace, Function.update_self]
    rfl
  · rw [Heap.sizes, hreplace, Function.update_of_ne hx, Heap.sizes]

/-! ## One call -/

/-- A call that asks the system for memory. -/
theorem Holds.malloc (h : Holds P m w xs) (op : Op) (n : ℕ)
    (filename instruction : Option Address) (hanswer : ∀ ptr ∈ answer, w.heap.blocks ptr = none)
    (hnone : asked ((op, none) :: w.log) = asked w.log)
    (hsome : ∀ ptr, asked ((op, some ptr) :: w.log) = (ptr, n) :: asked w.log)
    (hP : requestSize ≠ 0 → answer ≠ none → P n (m + requestSize, requestSize)) :
    ∃ xs', Holds P m
      { heap := (miniMalloc m w.heap requestSize filename instruction answer).2
        log := (op, (miniMalloc m w.heap requestSize filename instruction answer).1) :: w.log }
      xs' := by
  rcases miniMalloc_sizes m w.heap requestSize filename instruction answer with hout |
      ⟨hsize, ptr, s', rfl, hout, hnew, hold⟩
  · rw [hout]
    exact ⟨xs, h.listed, by rw [payloads, hnone]; exact h.map_eq,
      by rw [hnone]; exact h.sizes⟩
  · rcases (miniMalloc_spec h.listed hanswer : miniMalloc m w.heap requestSize filename instruction
        (some ptr) = (none, w.heap) ∨ _) with hnull | ⟨ptr', s'', hout', hlisted, -⟩
    · rw [hout] at hnull
      simp at hnull
    rw [hout] at hout'
    obtain ⟨hptr, rfl⟩ := Prod.mk.inj hout'
    obtain rfl : ptr = ptr' := by simpa using hptr
    have hfresh : ptr ∉ xs := by
      rw [h.listed.mem_iff, hanswer ptr rfl]
      simp
    rw [hout]
    refine ⟨ptr :: xs, hlisted, ?_, ?_⟩
    · rw [payloads, hsome, List.map_cons, List.map_cons, h.map_eq, payloads]
    · rw [hsome]
      rintro x hx
      rcases List.mem_cons.mp hx with rfl | hx
      · exact ⟨_, by simpa using hnew, hP hsize (Option.some_ne_none ptr)⟩
      · have hmem := h.mem_payloads.mp (List.mem_map_of_mem hx)
        obtain ⟨z, hz, hPz⟩ := h.sizes x hx
        exact ⟨z, by rwa [hold _ (ne_of_mem_of_not_mem hmem hfresh)], hPz⟩

/-- A call that counts an address as invalid. -/
theorem Holds.invalid (h : Holds P m w xs) (hsame : asked ((op, result) :: w.log) = asked w.log) :
    Holds P m { heap := { w.heap with invalidAddresses := w.heap.invalidAddresses + 1 }
                log := (op, result) :: w.log } xs :=
  ⟨⟨h.listed.chain, h.listed.nodup, h.listed.mem_iff⟩,
    by rw [payloads, hsame]; exact h.map_eq, by rw [hsame]; exact h.sizes⟩

/-- A call that takes a block out. -/
theorem Holds.free (h : Holds P m w xs) (hfree : miniFree m w.heap fuel (some payload) = some s')
    (herase : asked ((op, result) :: w.log) = (asked w.log).eraseP fun x => x.1 = payload) :
    ∃ xs', Holds P m { heap := s', log := (op, result) :: w.log } xs' := by
  have hlong : miniFree m w.heap (fuel + (xs.length + 1)) (some payload) = some s' :=
    freeLoop_mono _ hfree
  have hfuel : xs.length < fuel + (xs.length + 1) := by omega
  by_cases hlive : payload - m ∈ xs
  · obtain ⟨s'', xs', hfree', hlisted, hentries, -⟩ :=
      miniFree_live h.listed (mem_entries.mpr hlive) hfuel
    obtain rfl := Option.some.inj (hlong.symm.trans hfree')
    refine ⟨xs', hlisted, ?_, ?_⟩
    · rw [payloads, herase, map_fst_eraseP, ← payloads, ← h.map_eq,
        ← map_fst_entries s', hentries, map_fst_eraseP, map_fst_entries]
    · rw [herase]
      intro x hx
      obtain ⟨z, hz, hPz⟩ := h.sizes x (List.mem_of_mem_eraseP hx)
      have hne := ne_of_mem_eraseP h.nodup hx
      refine ⟨z, ?_, hPz⟩
      rwa [freeLoop_sizes hfree fun heq => hne (by simpa using heq)]
  · have hmiss := miniFree_dead h.listed (mem_entries.not.mpr hlive) hfuel
    obtain rfl := Option.some.inj (hlong.symm.trans hmiss)
    refine ⟨xs, h.invalid ?_⟩
    rw [herase]
    refine List.eraseP_of_forall_not fun x hx heq => hlive ?_
    have heq : x.1 = payload := by simpa using heq
    exact h.mem_payloads.mp (heq ▸ List.mem_map_of_mem hx)

/-- A call that renews a node in its place. -/
theorem Holds.renew (h : Holds P m w xs) (hlisted : Listed s' xs)
    (hothers : ∀ x ≠ payload - m, s'.sizes x = w.heap.sizes x)
    (hnew : ∃ z ∈ s'.sizes (payload - m), P n z)
    (hasked : asked ((op, result) :: w.log) =
      (asked w.log).map fun x => if x.1 = payload then (payload, n) else x) :
    Holds P m { heap := s', log := (op, result) :: w.log } xs := by
  refine ⟨hlisted, ?_, ?_⟩
  · rw [h.map_eq, payloads, payloads, hasked, List.map_map]
    refine List.map_congr_left fun x _ => ?_
    rw [Function.comp_apply]
    split_ifs with hx
    exacts [hx, rfl]
  · rw [hasked]
    intro y hy
    obtain ⟨x, hx, rfl⟩ := List.mem_map.mp hy
    split_ifs with hpayload
    · exact hnew
    · rw [hothers _ fun heq => hpayload (by simpa using heq)]
      exact h.sizes x hx

/-- A call of `mini_realloc` for a live payload comes to its node. -/
theorem Holds.realloc_live (h : Holds P m w xs) (hlive : payload ∈ payloads w.log) {block : Block}
    (hblock : w.heap.blocks (payload - m) = some block) (hsize : requestSize ≠ 0)
    {out : Option Address × Heap} :
    (∃ fuel, miniRealloc m w.heap fuel (some payload) requestSize filename instruction answer =
      some out) ↔
    reallocNode m w.heap requestSize filename instruction answer (payload - m) block =
      some out := by
  rw [← miniRealloc_live h.listed (h.mem_payloads.mp hlive) hblock hsize, UInt64.sub_add_cancel]

/-- What a call of `mini_realloc` with an address comes to. -/
theorem Holds.realloc_cases (h : Holds P m w xs) {out : Option Address × Heap}
    (hout : miniRealloc m w.heap fuel (some payload) requestSize filename instruction answer =
      some out) :
    (requestSize = 0 ∧ out.1 = none ∧ miniFree m w.heap fuel (some payload) = some out.2) ∨
    (requestSize ≠ 0 ∧ payload ∉ payloads w.log ∧
      out = (none, { w.heap with invalidAddresses := w.heap.invalidAddresses + 1 })) ∨
    (requestSize ≠ 0 ∧ payload ∈ payloads w.log ∧
      ∃ block, w.heap.blocks (payload - m) = some block ∧
        reallocNode m w.heap requestSize filename instruction answer (payload - m) block =
          some out) := by
  by_cases hsize : requestSize = 0
  · rw [miniRealloc, if_pos hsize] at hout
    obtain ⟨s', hfree, rfl⟩ := Option.map_eq_some_iff.mp hout
    exact .inl ⟨hsize, rfl, hfree⟩
  · by_cases hlive : payload ∈ payloads w.log
    · obtain ⟨block, hblock⟩ := h.block hlive
      have hnode := (h.realloc_live hlive hblock hsize).mp ⟨fuel, hout⟩
      exact .inr (.inr ⟨hsize, hlive, block, hblock, hnode⟩)
    · have hmiss := (miniRealloc_dead h.listed (h.mem_payloads.not.mp hlive) hsize).mp ⟨fuel, hout⟩
      exact .inr (.inl ⟨hsize, hlive, hmiss⟩)

/-! ## Runs -/

/-- The relation `P` holds where the call hands out or reallocates a block, which it does not
move. -/
def Op.Meets (P : ℕ → UInt64 × UInt64 → Prop) (m : UInt64) (w : History) : Op → Prop
  | .call (.malloc requestSize _ _ answer) =>
    requestSize ≠ 0 → answer ≠ none → P requestSize.toNat (m + requestSize, requestSize)
  | .call (.calloc numElements elementSize _ _ answer) =>
    numElements * elementSize ≠ 0 → answer ≠ none →
      P (numElements.toNat * elementSize.toNat)
        (m + numElements * elementSize, numElements * elementSize)
  | .call (.free _) => True
  | .realloc none requestSize _ _ answer =>
    requestSize ≠ 0 → answer ≠ none → P requestSize.toNat (m + requestSize, requestSize)
  | .realloc (some payload) requestSize _ _ answer =>
    requestSize ≠ 0 → payload ∈ payloads w.log → ∀ block ∈ w.heap.blocks (payload - m),
      if requestSize = block.node.requestSize then P requestSize.toNat (block.size, requestSize)
      else ∀ ptr ∈ answer, ptr = payload - m ∧
        P requestSize.toNat (requestSize * m, requestSize)

theorem Holds.next (h : Holds P m w xs) (hstep : Performs m w op w') (hmeets : op.Meets P m w) :
    ∃ xs', Holds P m w' xs' := by
  obtain ⟨hfresh, fuel, result, heap, hperform, rfl⟩ := hstep
  cases op with
  | call c =>
    cases c with
    | malloc requestSize filename instruction answer =>
      have hnext := h.malloc (.call (.malloc requestSize filename instruction answer))
        requestSize.toNat filename instruction (hfresh _ rfl) rfl
        (fun _ => rfl) hmeets
      rwa [Option.some.inj hperform] at hnext
    | calloc numElements elementSize filename instruction answer =>
      have hnext := h.malloc (.call (.calloc numElements elementSize filename instruction answer))
        (numElements.toNat * elementSize.toNat) filename instruction
        (hfresh _ rfl) rfl (fun _ => rfl) hmeets
      rwa [show miniMalloc m w.heap (numElements * elementSize) filename instruction answer = _ from
        Option.some.inj hperform] at hnext
    | free payload =>
      obtain ⟨heap', hfree, heq⟩ := Option.map_eq_some_iff.mp hperform
      obtain ⟨rfl, rfl⟩ := Prod.mk.inj heq
      cases payload with
      | none =>
        obtain rfl := Option.some.inj hfree
        exact ⟨xs, h.listed, h.map_eq, h.sizes⟩
      | some payload => exact h.free hfree rfl
  | realloc payload requestSize filename instruction answer =>
    cases payload with
    | none =>
      rw [Op.perform, miniRealloc] at hperform
      split_ifs at hperform with hsize
      · obtain ⟨rfl, rfl⟩ := Prod.mk.inj (Option.some.inj hperform)
        exact ⟨xs, h.listed, h.map_eq, h.sizes⟩
      · have hnext := h.malloc (.realloc none requestSize filename instruction answer)
          requestSize.toNat filename instruction hfresh rfl
          (fun _ => rfl) hmeets
        rwa [Option.some.inj hperform] at hnext
    | some payload =>
      rcases h.realloc_cases hperform with ⟨hsize, hnone, hfree⟩ | ⟨hsize, hdead, hout⟩ |
          ⟨hsize, hlive, block, hblock, hnode⟩
      · obtain rfl : result = none := hnone
        exact h.free hfree (if_pos hsize)
      · obtain ⟨rfl, rfl⟩ := Prod.mk.inj hout
        exact ⟨xs, h.invalid (if_neg hsize)⟩
      · have hmeets := hmeets hsize hlive block hblock
        rcases reallocNode_cases hnode with ⟨hsame, block', hout, hbytes, hnode_size, hnext⟩ |
            ⟨hsame, ptr, block', rfl, hout, hbytes, hnode_size, hnext⟩
        · obtain ⟨rfl, rfl⟩ := Prod.mk.inj hout
          rw [if_pos hsame, ← hbytes] at hmeets
          obtain ⟨hlisted, hnew, hothers⟩ := h.listed.replace hblock hnext (r := w.heap) rfl rfl
          exact ⟨xs, h.renew hlisted hothers ⟨_, hnew, by rwa [hnode_size]⟩ rfl⟩
        · rw [if_neg hsame, ← hbytes] at hmeets
          obtain ⟨rfl, hP⟩ := hmeets ptr rfl
          obtain ⟨rfl, rfl⟩ := Prod.mk.inj hout
          obtain ⟨hlisted, hnew, hothers⟩ := h.listed.replace hblock hnext
            (count_blocks w.heap block.node.requestSize requestSize) (count_head _ _ _)
          exact ⟨xs, h.renew hlisted hothers ⟨_, hnew, by rwa [hnode_size]⟩ rfl⟩

/-- In a run whose calls all keep to `P` and move no block, the list is what the callers hold. -/
theorem holds_of_run {guard : History → Op → Prop} {ops : List Op}
    (hguard : ∀ {w op xs}, Holds P m w xs → guard w op → op.Meets P m w)
    (hrun : Run (Guarded (Performs m) guard) .init ops w) : ∃ xs, Holds P m w xs :=
  hrun.invariant (P := fun w => ∃ xs, Holds P m w xs) ⟨[], init_holds⟩
    fun ⟨_, h⟩ hstep => h.next hstep.2 (hguard h hstep.1)

/-- After `mini_malloc(5)`, where nodes have 32 bytes. -/
def oneBlock : History where
  heap := (miniMalloc 32 .init 5 none none (some 4096)).2
  log := [(.call (.malloc 5 none none (some 4096)), some 4128)]

theorem performs_oneBlock :
    Performs 32 .init (.call (.malloc 5 none none (some 4096))) oneBlock := by
  refine ⟨?_, 0, _, _, rfl, rfl⟩
  rintro request ⟨⟩ ptr -
  rfl

end Cs241.Memcheck
