import Cs241.Foundation.LinkedList
import Cs241.Foundation.Runs
import Cs241.Memcheck.Model

/-!
# What the list and the counters tell

The list holds the live allocations, the newest one first. A call of `mini_free`
takes out the node in front of a live address, wherever it is in the list, and
counts any other address.
-/
namespace Cs241.Memcheck

open Foundation

variable {m : UInt64} {s s' : Heap} {w w' : World} {c : Call} {target : Address}

/-! ## The list -/

def Heap.link (s : Heap) (a : Address) : Option (Option Address) :=
  (s.blocks a).map fun block => block.node.next

def Heap.requestSize (s : Heap) (a : Address) : UInt64 :=
  ((s.blocks a).map fun block => block.node.requestSize).getD 0

/-- The addresses behind the nodes `xs`, and the sizes in them. -/
def Heap.entries (m : UInt64) (s : Heap) (xs : List Address) : List (Address × UInt64) :=
  xs.map fun a => (a + m, s.requestSize a)

/-- The list from the head is `xs`, and there are no other blocks. -/
structure Listed (s : Heap) (xs : List Address) : Prop where
  chain : Chain s.link s.head xs
  nodup : xs.Nodup
  mem_iff : ∀ a, a ∈ xs ↔ (s.blocks a).isSome

theorem init_listed : Listed .init [] :=
  ⟨rfl, List.nodup_nil, by simp [Heap.init]⟩

/-- A block on the list, and where its node leads. -/
theorem Listed.next {pre post : List Address} {a : Address} (h : Listed s (pre ++ a :: post)) :
    ∃ block, s.blocks a = some block ∧ block.node.next = post.head? ∧
      Chain s.link block.node.next post := by
  have ha : a ∈ pre ++ a :: post := List.mem_append_right pre List.mem_cons_self
  obtain ⟨block, hblock⟩ := Option.isSome_iff_exists.mp ((h.mem_iff a).mp ha)
  obtain ⟨q, hq, hpost⟩ := h.chain.after
  obtain rfl : block.node.next = q := by simpa [Heap.link, hblock] using hq
  exact ⟨block, hblock, hpost.eq_head?, hpost⟩

/-- A block that `mini_malloc` puts in front of the list. -/
theorem Listed.push {xs : List Address} (h : Listed s xs) {ptr : Address}
    (hptr : s.blocks ptr = none) {size requested freed invalid : UInt64} {node : MetaData}
    (hnext : node.next = s.head) :
    Listed ⟨Function.update s.blocks ptr (some ⟨size, node⟩), some ptr, requested, freed, invalid⟩
      (ptr :: xs) := by
  have hnew : ptr ∉ xs := by
    rw [h.mem_iff, hptr]
    simp
  refine ⟨⟨rfl, node.next, by simp [Heap.link], ?_⟩, List.nodup_cons.mpr ⟨hnew, h.nodup⟩, ?_⟩
  · rw [hnext]
    apply h.chain.congr
    intro a ha
    have hne : a ≠ ptr := fun heq => hnew (heq ▸ ha)
    simp [Heap.link, Function.update_of_ne hne]
  · intro a
    rcases eq_or_ne a ptr with rfl | hne
    · simp
    · simp [hne, h.mem_iff a]

/-- Where the pointer to the next node is set, all else stays. -/
theorem relink_spec {prev next : Option Address} (hprev : ∀ a ∈ prev, (s.blocks a).isSome) :
    ∃ r, s.relink prev next = some r ∧ (∀ a, (r.blocks a).isSome = (s.blocks a).isSome) ∧
      (∀ a, r.requestSize a = s.requestSize a) ∧ (∀ a, prev ≠ some a → r.link a = s.link a) ∧
      (∀ a, prev = some a → r.link a = some next) ∧
      r.head = (if prev = none then next else s.head) ∧
      r.totalMemoryRequested = s.totalMemoryRequested ∧ r.totalMemoryFreed = s.totalMemoryFreed ∧
      r.invalidAddresses = s.invalidAddresses := by
  cases prev with
  | none => exact ⟨_, rfl, by simp, by simp [Heap.requestSize], by simp [Heap.link], by simp, rfl,
      rfl, rfl, rfl⟩
  | some prev =>
    obtain ⟨block, hblock⟩ := Option.isSome_iff_exists.mp (hprev prev rfl)
    simp only [Heap.relink, hblock, Option.map_some, Option.some.injEq, exists_eq_left']
    refine ⟨?_, ?_, ?_, ?_, by simp⟩
    · intro a
      rcases eq_or_ne a prev with rfl | hne
      · simp [hblock]
      · simp [Function.update_of_ne hne]
    · intro a
      rcases eq_or_ne a prev with rfl | hne
      · simp [Heap.requestSize, hblock]
      · simp [Heap.requestSize, Function.update_of_ne hne]
    · intro a hne
      have hne' : a ≠ prev := fun heq => hne (heq ▸ rfl)
      simp [Heap.link, Function.update_of_ne hne']
    · rintro a rfl
      simp [Heap.link]

theorem release_link {block : Block} {a : Address} (ha : a ≠ target) :
    (s.release target block).link a = s.link a := by
  simp [Heap.link, Heap.release, Function.update_of_ne ha]

theorem release_requestSize {block : Block} {a : Address} (ha : a ≠ target) :
    (s.release target block).requestSize a = s.requestSize a := by
  simp [Heap.requestSize, Heap.release, Function.update_of_ne ha]

/-- What `mini_free` does to a block on the list. -/
theorem Listed.unlink {pre post : List Address} (h : Listed s (pre ++ target :: post)) :
    ∃ block r, s.blocks target = some block ∧ s.relink pre.getLast? block.node.next = some r ∧
      Listed (r.release target block) (pre ++ post) ∧
      (r.release target block).entries m (pre ++ post) = s.entries m (pre ++ post) ∧
      r.totalMemoryRequested = s.totalMemoryRequested ∧ r.totalMemoryFreed = s.totalMemoryFreed ∧
      r.invalidAddresses = s.invalidAddresses := by
  obtain ⟨block, hblock, -, hpost⟩ := h.next
  have hprev : ∀ a ∈ pre.getLast?, (s.blocks a).isSome := by
    intro a ha
    exact (h.mem_iff a).mp (List.mem_append_left _ (List.mem_of_getLast? ha))
  obtain ⟨r, hr, hsome, hsize, hlink, hset, hhead, hcounters⟩ := relink_spec hprev
  have hmid := List.nodup_middle.mp h.nodup
  obtain ⟨htarget, hnd⟩ := List.nodup_cons.mp hmid
  have hne : ∀ a ∈ pre ++ post, a ≠ target := fun a ha heq => htarget (heq ▸ ha)
  -- Behind the target nothing has changed.
  have hafter : Chain (r.release target block).link block.node.next post := by
    apply hpost.congr
    intro a ha
    rw [release_link (hne a (List.mem_append_right _ ha)), hlink a]
    intro hlast
    exact (List.nodup_append.mp hnd).2.2 a (List.mem_of_getLast? hlast) a ha rfl
  refine ⟨block, r, hblock, hr, ⟨?_, hnd, ?_⟩, ?_, hcounters⟩
  · rcases List.eq_nil_or_concat' pre with rfl | ⟨init, last, rfl⟩
    · have hhead' : (r.release target block).head = block.node.next := hhead
      rw [hhead']
      exact hafter
    · have hlast : (r.release target block).link last = some block.node.next := by
        rw [release_link (hne last (by simp))]
        exact hset last (by simp)
      have hhead' : (r.release target block).head = s.head := by
        simpa [Heap.release] using hhead
      have hchain := h.chain
      rw [List.append_assoc, List.singleton_append] at hchain ⊢
      rw [hhead']
      apply hchain.splice hlast hafter
      intro a ha
      rw [release_link (hne a (by simp [ha])), hlink a]
      intro heq
      obtain rfl : last = a := by simpa using heq
      have hnd' : (init ++ [last]).Nodup := (List.nodup_append.mp hnd).1
      exact (List.nodup_append.mp hnd').2.2 last ha last List.mem_cons_self rfl
  · intro a
    rcases eq_or_ne a target with rfl | ha
    · simpa [Heap.release] using htarget
    · have hmem := h.mem_iff a
      rw [← hsome a] at hmem
      simpa [Heap.release, ha] using hmem
  · apply List.map_congr_left
    intro a ha
    rw [release_requestSize (hne a ha), hsize a]

/-- The loop comes to the target after the nodes `pre`. -/
theorem freeLoop_found {post : List Address} {pre : List Address} : ∀ (done : List Address)
    {fuel : ℕ}, Listed s (done ++ (pre ++ target :: post)) → target ∉ pre → pre.length < fuel →
      freeLoop s target fuel done.getLast? (pre ++ target :: post).head? =
        (s.blocks target).bind fun block =>
          (s.relink (done ++ pre).getLast? block.node.next).map
            fun s => s.release target block := by
  induction pre with
  | nil =>
    intro done fuel h _ hfuel
    obtain ⟨fuel, rfl⟩ : ∃ k, fuel = k + 1 := ⟨fuel - 1, by simp at hfuel; omega⟩
    simp [freeLoop]
  | cons x pre ih =>
    intro done fuel h hpre hfuel
    obtain ⟨fuel, rfl⟩ : ∃ k, fuel = k + 1 := ⟨fuel - 1, by omega⟩
    obtain ⟨hx, hpre⟩ : target ≠ x ∧ target ∉ pre := by simpa using hpre
    rw [List.cons_append] at h ⊢
    obtain ⟨block, hblock, hnext, -⟩ := h.next
    have hlist : Listed s ((done ++ [x]) ++ (pre ++ target :: post)) := by simpa using h
    have hih := ih _ hlist hpre (by simpa using hfuel)
    rw [List.getLast?_concat] at hih
    simp only [List.head?_cons, freeLoop, hblock, Option.bind_some, if_neg hx, hnext, hih,
      List.append_assoc, List.singleton_append]

/-- The loop does not come to the target. -/
theorem freeLoop_missed {rest : List Address} : ∀ (done : List Address) {fuel : ℕ},
    Listed s (done ++ rest) → target ∉ rest → rest.length < fuel →
      freeLoop s target fuel done.getLast? rest.head? =
        some { s with invalidAddresses := s.invalidAddresses + 1 } := by
  induction rest with
  | nil =>
    intro done fuel _ _ hfuel
    obtain ⟨fuel, rfl⟩ : ∃ k, fuel = k + 1 := ⟨fuel - 1, by simp at hfuel; omega⟩
    simp [freeLoop]
  | cons x rest ih =>
    intro done fuel h hrest hfuel
    obtain ⟨fuel, rfl⟩ : ∃ k, fuel = k + 1 := ⟨fuel - 1, by omega⟩
    obtain ⟨hx, hrest⟩ : target ≠ x ∧ target ∉ rest := by simpa using hrest
    obtain ⟨block, hblock, hnext, -⟩ := h.next
    have hlist : Listed s ((done ++ [x]) ++ rest) := by simpa using h
    have hih := ih _ hlist hrest (by simpa using hfuel)
    rw [List.getLast?_concat] at hih
    simp only [List.head?_cons, freeLoop, hblock, Option.bind_some, if_neg hx, hnext, hih]

/-- More rounds do not change the result. -/
theorem freeLoop_mono {r : Heap} (k : ℕ) : ∀ {fuel : ℕ} {prev curr : Option Address},
    freeLoop s target fuel prev curr = some r → freeLoop s target (fuel + k) prev curr = some r
  | 0, _, _, h => by simp [freeLoop] at h
  | fuel + 1, prev, none, h => by simpa [freeLoop, Nat.add_right_comm fuel 1 k] using h
  | fuel + 1, prev, some curr, h => by
    rw [Nat.add_right_comm]
    simp only [freeLoop] at h ⊢
    obtain ⟨block, hblock, hnext⟩ := Option.bind_eq_some_iff.mp h
    rw [hblock, Option.bind_some]
    split_ifs at hnext ⊢ with hcurr
    · exact hnext
    · exact freeLoop_mono k hnext

/-! ## One call -/

/-- A block is put in front of the list, or nothing happens. -/
theorem miniMalloc_cases (m : UInt64) (s : Heap) (requestSize : UInt64)
    (filename instruction answer : Option Address) :
    miniMalloc m s requestSize filename instruction answer = (none, s) ∨
      requestSize ≠ 0 ∧ ∃ ptr, answer = some ptr ∧
        miniMalloc m s requestSize filename instruction answer = (some (ptr + m),
          { s with
            blocks := Function.update s.blocks ptr
              (some ⟨m + requestSize, ⟨requestSize, filename, instruction, s.head⟩⟩)
            head := some ptr
            totalMemoryRequested := s.totalMemoryRequested + requestSize }) := by
  unfold miniMalloc
  split_ifs with hzero
  · exact .inl rfl
  cases answer with
  | none => exact .inl rfl
  | some ptr => exact .inr ⟨hzero, ptr, rfl, rfl⟩

theorem miniMalloc_spec {xs : List Address} (h : Listed s xs) {requestSize : UInt64}
    {filename instruction answer : Option Address} (hanswer : ∀ ptr ∈ answer, s.blocks ptr = none) :
    miniMalloc m s requestSize filename instruction answer = (none, s) ∨
      ∃ ptr s', miniMalloc m s requestSize filename instruction answer = (some (ptr + m), s') ∧
        Listed s' (ptr :: xs) ∧
        s'.entries m (ptr :: xs) = (ptr + m, requestSize) :: s.entries m xs ∧
        s'.totalMemoryRequested = s.totalMemoryRequested + requestSize ∧
        s'.totalMemoryFreed = s.totalMemoryFreed ∧ s'.invalidAddresses = s.invalidAddresses := by
  rcases miniMalloc_cases m s requestSize filename instruction answer with hnone |
    ⟨-, ptr, rfl, hsome⟩
  · exact .inl hnone
  · have hptr := hanswer ptr rfl
    refine .inr ⟨ptr, _, hsome, h.push hptr rfl, ?_, rfl, rfl, rfl⟩
    refine congrArg₂ List.cons (by simp [Heap.requestSize]) (List.map_congr_left ?_)
    intro a ha
    have hne : a ≠ ptr := by
      rintro rfl
      have hsome := (h.mem_iff a).mp ha
      simp [hptr] at hsome
    simp [Heap.requestSize, Function.update_of_ne hne]

theorem mem_entries {xs : List Address} {payload : Address} :
    payload ∈ (s.entries m xs).map Prod.fst ↔ payload - m ∈ xs := by
  simp only [Heap.entries, List.map_map, List.mem_map, Function.comp_apply]
  constructor
  · rintro ⟨a, ha, rfl⟩
    simpa using ha
  · intro ha
    exact ⟨payload - m, ha, by simp⟩

/-- The address behind the target is found at the target only. -/
theorem eraseP_entries {pre post : List Address} {payload : Address}
    (hpre : payload - m ∉ pre) : (s.entries m (pre ++ (payload - m) :: post)).eraseP
      (fun x => x.1 = payload) = s.entries m (pre ++ post) := by
  have hbefore : ∀ x ∈ pre.map (fun a => (a + m, s.requestSize a)), ¬ decide (x.1 = payload) := by
    intro x hx heq
    obtain ⟨a, ha, rfl⟩ := List.mem_map.mp hx
    have hpayload : a + m = payload := by simpa using heq
    exact hpre (by simpa [← hpayload] using ha)
  simp only [Heap.entries, List.map_append, List.map_cons]
  rw [List.eraseP_append_right _ hbefore, List.eraseP_cons_of_pos (by simp)]

theorem miniFree_live {xs : List Address} (h : Listed s xs) {payload : Address}
    (hlive : payload ∈ (s.entries m xs).map Prod.fst) {fuel : ℕ} (hfuel : xs.length < fuel) :
    ∃ s' xs', miniFree m s fuel (some payload) = some s' ∧ Listed s' xs' ∧
      s'.entries m xs' = (s.entries m xs).eraseP (fun x => x.1 = payload) ∧
      s'.totalMemoryRequested = s.totalMemoryRequested ∧
      s'.totalMemoryFreed + ((s'.entries m xs').map Prod.snd).sum =
        s.totalMemoryFreed + ((s.entries m xs).map Prod.snd).sum ∧
      s'.invalidAddresses = s.invalidAddresses := by
  obtain ⟨pre, post, rfl⟩ := List.append_of_mem (mem_entries.mp hlive)
  have hpre : payload - m ∉ pre := by
    intro hmem
    exact (List.nodup_append.mp h.nodup).2.2 _ hmem _ List.mem_cons_self rfl
  obtain ⟨block, r, hblock, hr, hlisted, hentries, hrequested, hfreed, hinvalid⟩ :=
    h.unlink (m := m)
  have hround : pre.length < fuel := by
    rw [List.length_append] at hfuel
    omega
  have hloop := freeLoop_found [] h hpre hround
  rw [List.nil_append, hblock, Option.bind_some, hr, Option.map_some] at hloop
  refine ⟨_, pre ++ post, ?_, hlisted, ?_, hrequested, ?_, hinvalid⟩
  · rw [miniFree, h.chain.eq_head?]
    exact hloop
  · rw [hentries, eraseP_entries hpre]
  · have hsize : s.requestSize (payload - m) = block.node.requestSize := by
      simp [Heap.requestSize, hblock]
    have hrelease : (r.release (payload - m) block).totalMemoryFreed =
        s.totalMemoryFreed + block.node.requestSize := by
      simp [Heap.release, hfreed]
    rw [hentries, hrelease]
    simp only [Heap.entries, List.map_append, List.map_cons, List.map_map, List.sum_append,
      List.sum_cons, hsize]
    grind

theorem miniFree_dead {xs : List Address} (h : Listed s xs) {payload : Address}
    (hdead : payload ∉ (s.entries m xs).map Prod.fst) {fuel : ℕ} (hfuel : xs.length < fuel) :
    miniFree m s fuel (some payload) =
      some { s with invalidAddresses := s.invalidAddresses + 1 } := by
  have hloop := freeLoop_missed [] h (mem_entries.not.mp hdead) hfuel
  rwa [← h.chain.eq_head?] at hloop

/-! ## Sequences of calls -/

structure Inv (m : UInt64) (w : World) : Prop where
  listed : ∃ xs, Listed w.heap xs ∧ w.heap.entries m xs = live w.log
  inUse : w.heap.totalMemoryRequested =
    w.heap.totalMemoryFreed + ((live w.log).map Prod.snd).sum
  invalid : w.heap.invalidAddresses = UInt64.ofNat (badFrees w.log)

theorem init_inv : Inv m .init :=
  ⟨⟨[], init_listed, rfl⟩, rfl, rfl⟩

/-- A call that asks the system for memory, logged with what it returns. -/
theorem Inv.malloc (h : Inv m w) (c : Call) (requestSize : UInt64)
    (filename instruction : Option Address) {answer : Option Address}
    (hanswer : ∀ ptr ∈ answer, w.heap.blocks ptr = none)
    (hnone : live ((c, none) :: w.log) = live w.log)
    (hsome : ∀ ptr, live ((c, some ptr) :: w.log) = (ptr, requestSize) :: live w.log)
    (hbad : ∀ result, badFrees ((c, result) :: w.log) = badFrees w.log) :
    Inv m { heap := (miniMalloc m w.heap requestSize filename instruction answer).2
            log := (c, (miniMalloc m w.heap requestSize filename instruction answer).1) ::
              w.log } := by
  obtain ⟨xs, hlisted, hlive⟩ := h.listed
  rcases miniMalloc_spec hlisted hanswer with hmalloc | ⟨ptr, s', hmalloc, hlisted', hentries,
      hrequested, hfreed, hinvalid⟩
  · rw [hmalloc]
    refine ⟨⟨xs, hlisted, by rw [hnone]; exact hlive⟩, ?_, ?_⟩
    · simpa [hnone] using h.inUse
    · simpa [hbad] using h.invalid
  · rw [hmalloc]
    refine ⟨⟨ptr :: xs, hlisted', by rw [hsome, ← hlive]; exact hentries⟩, ?_, ?_⟩
    · simp only [hsome, List.map_cons, List.sum_cons, hrequested, hfreed, h.inUse]
      grind
    · simp only [hbad, hinvalid, h.invalid]

/-- The call of `mini_free` for an address. -/
theorem Inv.free (h : Inv m w) {payload : Address} {fuel : ℕ} {s' : Heap}
    (hfree : miniFree m w.heap fuel (some payload) = some s') {result : Option Address} :
    Inv m { heap := s', log := (.free (some payload), result) :: w.log } := by
  obtain ⟨xs, hlisted, hlive⟩ := h.listed
  have hlong : miniFree m w.heap (fuel + (xs.length + 1)) (some payload) = some s' :=
    freeLoop_mono _ hfree
  have hfuel : xs.length < fuel + (xs.length + 1) := by omega
  by_cases hmem : payload ∈ (w.heap.entries m xs).map Prod.fst
  · obtain ⟨s'', xs', hfree', hlisted', hentries, hrequested, hfreed, hinvalid⟩ :=
      miniFree_live hlisted hmem hfuel
    obtain rfl : s' = s'' := Option.some.inj (hlong.symm.trans hfree')
    have hlive' : s'.entries m xs' = live ((.free (some payload), result) :: w.log) := by
      rw [hentries, hlive]
      rfl
    refine ⟨⟨xs', hlisted', hlive'⟩, ?_, ?_⟩
    · rw [← hlive', hfreed, hrequested, hlive]
      exact h.inUse
    · rw [hlive] at hmem
      simp only [badFrees, if_pos hmem, hinvalid, h.invalid, Nat.add_zero]
  · have hmiss := miniFree_dead hlisted hmem hfuel
    obtain rfl := Option.some.inj (hlong.symm.trans hmiss)
    rw [hlive] at hmem
    have hlive' : live ((.free (some payload), result) :: w.log) = live w.log := by
      apply List.eraseP_of_forall_not
      intro x hx heq
      exact hmem (List.mem_map.mpr ⟨x, hx, by simpa using heq⟩)
    refine ⟨⟨xs, ⟨hlisted.chain, hlisted.nodup, hlisted.mem_iff⟩, ?_⟩, ?_, ?_⟩
    · rw [hlive']
      exact hlive
    · rw [hlive']
      exact h.inUse
    · simp only [badFrees, if_neg hmem, h.invalid]
      simp

theorem Inv.next (h : Inv m w) (hstep : Step m w c w') : Inv m w' := by
  obtain ⟨hallowed, fuel, result, heap, hperform, rfl⟩ := hstep
  cases c with
  | malloc requestSize filename instruction answer =>
    have hinv := h.malloc (.malloc requestSize filename instruction answer) requestSize filename
      instruction (hallowed _ rfl).2 rfl (fun _ => rfl) fun _ => rfl
    rwa [Option.some.inj hperform] at hinv
  | calloc numElements elementSize filename instruction answer =>
    have hinv := h.malloc (.calloc numElements elementSize filename instruction answer)
      (numElements * elementSize) filename instruction (hallowed _ rfl).2 rfl (fun _ => rfl)
      fun _ => rfl
    rwa [show miniMalloc m w.heap (numElements * elementSize) filename instruction answer = _ from
      Option.some.inj hperform] at hinv
  | free payload =>
    obtain ⟨heap', hfree, heq⟩ := Option.map_eq_some_iff.mp hperform
    obtain ⟨rfl, rfl⟩ := Prod.mk.inj heq
    cases payload with
    | none =>
      obtain rfl := Option.some.inj hfree
      exact ⟨h.listed, h.inUse, h.invalid⟩
    | some payload => exact h.free hfree

/-- Every call returns. -/
theorem Inv.exists_step (h : Inv m w) (hallowed : c.Allowed m w.heap) : ∃ w', Step m w c w' := by
  cases c with
  | malloc requestSize filename instruction answer => exact ⟨_, hallowed, 0, _, _, rfl, rfl⟩
  | calloc numElements elementSize filename instruction answer =>
    exact ⟨_, hallowed, 0, _, _, rfl, rfl⟩
  | free payload =>
    obtain ⟨xs, hlisted, -⟩ := h.listed
    have hreturns : ∃ fuel heap, miniFree m w.heap fuel payload = some heap := by
      cases payload with
      | none => exact ⟨0, _, rfl⟩
      | some payload =>
        by_cases hmem : payload ∈ (w.heap.entries m xs).map Prod.fst
        · obtain ⟨s', -, hfree, -⟩ := miniFree_live hlisted hmem (Nat.lt_succ_self _)
          exact ⟨_, s', hfree⟩
        · exact ⟨_, _, miniFree_dead hlisted hmem (Nat.lt_succ_self _)⟩
    obtain ⟨fuel, heap, hfree⟩ := hreturns
    exact ⟨_, hallowed, fuel, none, heap, by rw [Call.perform, hfree]; rfl, rfl⟩

theorem toNat_sum (sizes : List UInt64) :
    sizes.sum.toNat = (sizes.map UInt64.toNat).sum % 2 ^ 64 := by
  induction sizes with
  | nil => rfl
  | cons size sizes ih =>
    rw [List.sum_cons, UInt64.toNat_add, ih, List.map_cons, List.sum_cons, Nat.add_mod_mod]

/-- After every sequence of calls the list holds the live allocations, newest first, each once, the
two counters of memory differ by their sizes, and the bad frees were counted. Every call returns. -/
theorem run_ledger {calls : List Call} (hrun : Run (Step m) .init calls w) :
    (∃ xs, Chain w.heap.link w.heap.head xs ∧ xs.Nodup ∧ w.heap.entries m xs = live w.log) ∧
      (w.heap.totalMemoryRequested - w.heap.totalMemoryFreed).toNat =
        ((live w.log).map fun x => x.2.toNat).sum % 2 ^ 64 ∧
      w.heap.invalidAddresses.toNat = badFrees w.log % 2 ^ 64 ∧
      ∀ c : Call, c.Allowed m w.heap → ∃ w', Step m w c w' := by
  have hinv : Inv m w := hrun.invariant init_inv Inv.next
  obtain ⟨xs, hlisted, hlive⟩ := hinv.listed
  refine ⟨⟨xs, hlisted.chain, hlisted.nodup, hlive⟩, ?_, ?_, fun c => hinv.exists_step⟩
  · rw [hinv.inUse, show ∀ a b : UInt64, a + b - a = b by grind, toNat_sum, List.map_map]
    rfl
  · rw [hinv.invalid, UInt64.toNat_ofNat']

/-- The second call of `mini_free` for the same address is counted. -/
theorem run_ledger_twice : ∃ w, Run (Step 32) .init
    [.malloc 5 none none (some 4096), .free (some 4128), .free (some 4128)] w ∧
      w.heap.invalidAddresses.toNat = 1 := by
  have hmalloc : (Call.malloc 5 none none (some 4096)).Allowed 32 World.init.heap := by
    rintro request ⟨⟩
    exact ⟨by decide, fun _ _ => rfl⟩
  have hfree : ∀ {s : Heap}, (Call.free (some 4128)).Allowed 32 s := by
    rintro s request ⟨⟩
  have hinit : Run (Step 32) .init [] .init := .refl
  have hone := hinit.tail ⟨hmalloc, 0, _, _, rfl, rfl⟩
  have htwo := hone.tail ⟨hfree, 2, _, _, rfl, rfl⟩
  have hthree := htwo.tail ⟨hfree, 2, _, _, rfl, rfl⟩
  refine ⟨_, hthree, ?_⟩
  rw [(run_ledger hthree).2.2.1]
  decide

end Cs241.Memcheck
