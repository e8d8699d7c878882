import Cs241.Malloc.Steps

/-!
# Runs of the allocator

The block structure survives every run in which the caller stays inside the
physical payloads. That requested ranges stay apart needs more: the fit test
reads the first payload word instead of the header, so a run is safe as long
as the block this test picks is in fact large enough.
-/
namespace Cs241.Malloc

open Foundation

variable {base : ℕ} {w w' : World} {bs fl : List Block}

/-! ## The invariant along one step -/

/-- Pointers that remain live after one of them is given up. -/
theorem mem_map_fst_erase {l : List (ℕ × ℕ)} {p n q : ℕ} (hnd : (l.map Prod.fst).Nodup)
    (hp : (p, n) ∈ l) : q ∈ (l.erase (p, n)).map Prod.fst ↔ q ≠ p ∧ q ∈ l.map Prod.fst := by
  have hl : l.Nodup := hnd.of_map _
  simp only [List.mem_map, hl.mem_erase_iff, Prod.exists, exists_and_right, exists_eq_right]
  constructor
  · rintro ⟨k, hne, hk⟩
    refine ⟨?_, k, hk⟩
    rintro rfl
    exact hne (List.inj_on_of_nodup_map hnd hk hp rfl)
  · rintro ⟨hne, k, hk⟩
    exact ⟨k, fun h => hne (Prod.mk.inj h).1, hk⟩

/-- A fresh block at the break becomes live. -/
theorem Inv.extend {b : Block} {h : Heap} {n : ℕ} (hi : Inv base w bs fl)
    (hb : b.addr = w.heap.brk) (hinv : HeapInv base h (bs ++ [b]) fl) :
    Inv base { heap := h, live := (b.payload, n) :: w.live } (bs ++ [b]) fl := by
  have hnew : ∀ c ∈ bs, c.payload ≠ b.payload := by
    intro c hc he
    have hfin := (hi.tiles.bounds.2 c hc).2
    have hlarge := c.large
    simp only [Block.payload, Block.fin] at *
    omega
  refine { hinv with live_nodup := ?_, live_block := ?_, partition := ?_ }
  · refine List.nodup_cons.mpr ⟨fun hmem => ?_, hi.live_nodup⟩
    obtain ⟨c, hc, he⟩ := hi.live_block _ hmem
    exact hnew c hc he
  · intro p hp
    rcases List.mem_cons.mp hp with rfl | hp
    · exact ⟨b, by simp, rfl⟩
    · obtain ⟨c, hc, he⟩ := hi.live_block p hp
      exact ⟨c, List.mem_append_left _ hc, he⟩
  · intro c hc
    rw [List.map_cons, List.mem_cons]
    rcases List.mem_append.mp hc with hc | hc
    · rw [← hi.partition c hc]
      exact or_iff_right (hnew c hc)
    · obtain rfl := List.mem_singleton.mp hc
      exact iff_of_true (.inl rfl) fun hm => hnew c (hi.free_sub hm) rfl

/-- A block taken off the list becomes live. -/
theorem Inv.reuse {b : Block} {pre post : List Block} {h : Heap} {n : ℕ}
    (hi : Inv base w bs (pre ++ b :: post)) (hinv : HeapInv base h bs (pre ++ post)) :
    Inv base { heap := h, live := (b.payload, n) :: w.live } bs (pre ++ post) := by
  have hb : b ∈ bs := hi.free_sub (by simp)
  have hnot : b ∉ pre ++ post := (List.nodup_middle.mp hi.free_nodup).notMem
  refine { hinv with live_nodup := ?_, live_block := ?_, partition := ?_ }
  · exact List.nodup_cons.mpr ⟨fun hm => (hi.partition b hb).mp hm (by simp), hi.live_nodup⟩
  · exact List.forall_mem_cons.mpr ⟨⟨b, hb, rfl⟩, hi.live_block⟩
  · intro c hc
    rw [List.map_cons, List.mem_cons, hi.partition c hc]
    by_cases hcb : c = b
    · subst hcb
      exact iff_of_true (.inl rfl) hnot
    · have hne : c.payload ≠ b.payload := fun he => hcb (hi.tiles.payload_inj hc hb he)
      simp [hne, hcb]

/-- What `malloc` hands out becomes live; blocks are only ever appended. -/
theorem Inv.malloc {fuel size p n : ℕ} {h : Heap} (hi : Inv base w bs fl) (hw : NoWrap size)
    (hm : Malloc.malloc fuel w.heap size = some (p, h)) :
    ∃ bs' fl', Inv base { heap := h, live := (p, n) :: w.live } bs' fl' ∧ bs <+: bs' := by
  rcases hi.toHeapInv.malloc hw hm with
    ⟨b, rfl, hb, -, -, hinv⟩ | ⟨pre, b, post, rfl, rfl, -, -, -, hinv⟩
  · exact ⟨_, _, hi.extend hb hinv, List.prefix_append _ _⟩
  · exact ⟨_, _, hi.reuse hinv, List.prefix_rfl⟩

/-- A live block that is freed leaves the live pointers. -/
theorem Inv.free {p n : ℕ} (hi : Inv base w bs fl) (hp : (p, n) ∈ w.live) :
    ∃ b, Inv base { heap := free w.heap p, live := w.live.erase (p, n) } bs (b :: fl) := by
  have hpl : p ∈ w.live.map Prod.fst := List.mem_map_of_mem (f := Prod.fst) hp
  obtain ⟨b, hb, rfl⟩ := hi.live_block p hpl
  have hfree : b ∉ fl := (hi.partition b hb).mp hpl
  refine ⟨b, { (hi.toHeapInv.free hb hfree).1 with
    live_nodup := ?_, live_block := ?_, partition := ?_ }⟩
  · exact hi.live_nodup.sublist (List.erase_sublist.map _)
  · intro q hq
    exact hi.live_block q ((mem_map_fst_erase hi.live_nodup hp).mp hq).2
  · intro c hc
    rw [mem_map_fst_erase hi.live_nodup hp, hi.partition c hc, List.mem_cons, not_or]
    exact and_congr_left fun _ => not_congr
      ⟨fun he => hi.tiles.payload_inj hc hb he, fun he => by rw [he]⟩

/-- Writing into the payload of a live block. -/
theorem Inv.write {m : Mem} {b : Block} (hi : Inv base w bs fl) (hb : b ∈ bs)
    (hlive : b.payload ∈ w.live.map Prod.fst)
    (hm : ∀ a, a < b.payload ∨ b.fin ≤ a → m a = w.heap.mem a) :
    Inv base { w with heap := { w.heap with mem := m } } bs fl := by
  have hfree := (hi.partition b hb).mp hlive
  have hinv : HeapInv base { w.heap with mem := m } bs fl := by
    apply hi.frame
    intro a ha
    apply hm
    by_contra hin
    exact hi.payload_not_kept hb hfree (by omega) (by omega) ha
  exact { hinv with live_nodup := hi.live_nodup, live_block := hi.live_block,
                    partition := hi.partition }

/-- Writing `n` bytes of a physical payload. -/
theorem Inv.write_physical {m : Mem} {p a n : ℕ} (hi : Inv base w bs fl)
    (hp : p ∈ w.live.map Prod.fst) (hlo : p ≤ a) (hhi : a + n + 8 ≤ p + getSize w.heap.mem p)
    (hm : ∀ x, x < a ∨ a + n ≤ x → m x = w.heap.mem x) :
    Inv base { w with heap := { w.heap with mem := m } } bs fl := by
  obtain ⟨b, hb, rfl⟩ := hi.live_block p hp
  rw [hi.getSize_payload hb] at hhi
  apply hi.write hb hp
  intro x hx
  apply hm
  simp only [Block.payload, Block.fin] at *
  omega

theorem Inv.store {a : ℕ} {b : UInt8} (hi : Inv base w bs fl) (hmay : Physical w a) :
    Inv base { w with heap := { w.heap with mem := fill w.heap.mem a b 1 } } bs fl := by
  obtain ⟨x, hx, hlo, hhi⟩ := hmay
  exact hi.write_physical (List.mem_map_of_mem (f := Prod.fst) hx) hlo (by omega)
    fun _ ha => fill_of_lt ha

/-! ## The shape of the heap -/

/-- Reading header after header from `a` visits the blocks `bs` and ends exactly at `e`. -/
def Walk (m : Mem) : ℕ → List (ℕ × ℕ) → ℕ → Prop
  | a, [], e => a = e
  | a, x :: xs, e => x.1 = a ∧ x.2 = readWord m a ∧ Walk m (a + x.2) xs e

/-- The shape of the heap in terms of memory alone: `bs` are the addresses and sizes of its
blocks, `xs` the nodes on the list from `head`. -/
structure WellFormed (base : ℕ) (w : World) (bs : List (ℕ × ℕ)) (xs : List ℕ) : Prop where
  walk : Walk w.heap.mem base bs w.heap.brk
  sizes : ∀ x ∈ bs, x.2 % 8 = 0 ∧ 32 ≤ x.2
  chain : Chain w.heap.mem w.heap.head xs
  acyclic : xs.Nodup
  headPrev : w.heap.head ≠ 0 → nodePrev w.heap.mem w.heap.head = 0
  prevNext : ∀ x ∈ xs, nodeNext w.heap.mem x ≠ 0 → nodePrev w.heap.mem (nodeNext w.heap.mem x) = x
  nextPrev : ∀ x ∈ xs, nodePrev w.heap.mem x ≠ 0 → nodeNext w.heap.mem (nodePrev w.heap.mem x) = x
  partition : ∀ x ∈ bs,
    (x.1 + 8 ∈ w.live.map Prod.fst ∧ xs.countP (nodeSize w.heap.mem · = x.1 + 8) = 0) ∨
    (x.1 + 8 ∉ w.live.map Prod.fst ∧ xs.countP (nodeSize w.heap.mem · = x.1 + 8) = 1)
  live : ∀ p ∈ w.live.map Prod.fst, ∃ x ∈ bs, x.1 + 8 = p
  nodes : ∀ y ∈ xs, ∃ x ∈ bs, x.1 + x.2 - 24 = y ∧ nodeSize w.heap.mem y = x.1 + 8

/-- Address and size, as read from memory. -/
def Block.extent (b : Block) : ℕ × ℕ := (b.addr, b.size)

theorem walk_of_tiles {m : Mem} : ∀ {a e : ℕ} {bs : List Block}, Tiles a bs e →
    (∀ b ∈ bs, readWord m b.addr = b.size) → Walk m a (bs.map Block.extent) e
  | _, _, [], h, _ => h
  | a, e, b :: bs, ⟨hb, ht⟩, hh => by
    have hsize := hh b List.mem_cons_self
    refine ⟨hb, by rw [← hb, hsize]; rfl, ?_⟩
    subst hb
    exact walk_of_tiles ht fun c hc => hh c (List.mem_cons_of_mem _ hc)

/-- A free block has exactly one node on the list, any other none. -/
theorem HeapInv.countP_nodes {h : Heap} (hi : HeapInv base h bs fl) {b : Block} (hb : b ∈ bs) :
    (fl.map Block.node).countP (nodeSize h.mem · = b.payload) = if b ∈ fl then 1 else 0 := by
  have hcount : (fl.map Block.node).countP (nodeSize h.mem · = b.payload) = fl.count b := by
    rw [List.countP_map, List.count_eq_countP]
    apply List.countP_congr
    intro c hc
    simp only [Function.comp_apply, hi.sizes c hc, decide_eq_true_eq, beq_iff_eq]
    exact ⟨fun he => hi.tiles.payload_inj (hi.free_sub hc) hb he, fun he => by rw [he]⟩
  rw [hcount]
  split_ifs with hfl
  · exact List.count_eq_one_of_mem hi.free_nodup hfl
  · exact List.count_eq_zero_of_not_mem hfl

theorem Inv.wellFormed (hi : Inv base w bs fl) :
    WellFormed base w (bs.map Block.extent) (fl.map Block.node) where
  walk := walk_of_tiles hi.tiles hi.header
  sizes := by
    intro x hx
    obtain ⟨b, -, rfl⟩ := List.mem_map.mp hx
    exact ⟨b.aligned, b.large⟩
  chain := by
    rw [hi.list.head]
    exact chain_of_seg hi.list.links hi.list.nodes.pos
  acyclic := hi.list.nodes.nodup
  headPrev := by
    intro hne
    have hs := hi.list.links
    rw [hi.list.head] at hne ⊢
    cases hxs : fl.map Block.node with
    | nil => rw [hxs] at hne; exact absurd rfl hne
    | cons x xs => rw [hxs] at hs; exact hs.1
  prevNext := fun x hx hne => (hi.list.links.prev_next hx).resolve_left hne
  nextPrev := fun x hx hne => (hi.list.links.next_prev hx).resolve_left fun h => hne h.2
  partition := by
    intro x hx
    obtain ⟨b, hb, rfl⟩ := List.mem_map.mp hx
    have hcount := hi.countP_nodes hb
    have hpart := hi.partition b hb
    by_cases hfl : b ∈ fl
    · rw [if_pos hfl] at hcount
      exact .inr ⟨fun hlive => hpart.mp hlive hfl, hcount⟩
    · rw [if_neg hfl] at hcount
      exact .inl ⟨hpart.mpr hfl, hcount⟩
  live := by
    intro p hp
    obtain ⟨b, hb, rfl⟩ := hi.live_block p hp
    exact ⟨b.extent, List.mem_map_of_mem hb, rfl⟩
  nodes := by
    intro y hy
    obtain ⟨b, hb, rfl⟩ := List.mem_map.mp hy
    exact ⟨b.extent, List.mem_map_of_mem (hi.free_sub hb), rfl, hi.sizes b hb⟩

/-- The calls of `malloc` and `free` only. -/
def MallocFree (_ : World) : Op → Prop
  | .calloc _ _ => False
  | _ => True

/-- One call, or one write into a physical payload: blocks are only ever appended. -/
theorem Inv.step_physical {op : Op} (hi : Inv base w bs fl)
    (hs : Guarded (Step Physical) MallocFree w op w') :
    ∃ bs' fl', Inv base w' bs' fl' ∧ bs <+: bs' := by
  obtain ⟨hg, hs⟩ := hs
  cases hs with
  | malloc hw hm => exact hi.malloc hw hm
  | calloc _ _ => exact absurd hg id
  | free hp =>
    obtain ⟨b, hinv⟩ := hi.free hp
    exact ⟨_, _, hinv, List.prefix_rfl⟩
  | freeNull => exact ⟨bs, fl, by simpa [Malloc.free] using hi, List.prefix_rfl⟩
  | store hmay => exact ⟨bs, fl, hi.store hmay, List.prefix_rfl⟩

/-- In every run of `malloc` and `free` that keeps inside the physical payloads the headers
tile the heap, the free list is a proper doubly linked list, and every block is live or on it;
later states keep all blocks of earlier ones. -/
theorem run_wellFormed {m : Mem} {ops : List Op} (hb : base < 2 ^ 64)
    (hr : Run (Guarded (Step Physical) MallocFree) (World.init m base) ops w) :
    ∃ bs xs, WellFormed base w bs xs ∧
      ∀ ops' w', Run (Guarded (Step Physical) MallocFree) w ops' w' →
        ∃ bs' xs', WellFormed base w' bs' xs' ∧ bs <+: bs' := by
  have hrun : ∀ {v v' : World} {ops : List Op} {bs fl : List Block}, Inv base v bs fl →
      Run (Guarded (Step Physical) MallocFree) v ops v' →
      ∃ b : List Block × List Block, Inv base v' b.1 b.2 ∧ bs <+: b.1 := by
    intro v v' ops bs fl hi hr
    apply hr.simulate (I := fun v b => Inv base v b.1 b.2) (R := fun b c => b.1 <+: c.1)
      (b := (bs, fl)) hi (fun _ => List.prefix_rfl) List.IsPrefix.trans
    intro v op v' b hi hs
    obtain ⟨bs', fl', hi', hpre⟩ := hi.step_physical hs
    exact ⟨(bs', fl'), hi', hpre⟩
  obtain ⟨⟨bs, fl⟩, hi, -⟩ := hrun (inv_init m hb) hr
  refine ⟨_, _, hi.wellFormed, fun ops' w' hr' => ?_⟩
  obtain ⟨⟨bs', fl'⟩, hi', hpre⟩ := hrun hi hr'
  exact ⟨_, _, hi'.wellFormed, hpre.map _⟩

/-- The heap after the first `malloc(8)` over zeroed memory from address 4096 on. -/
def heapOne : Heap := { mem := writeWord (fun _ => 0) 4096 32, head := 0, tail := 0, brk := 4128 }

theorem malloc_init : malloc 1 (World.init (fun _ => 0) 4096).heap 8 = some (4104, heapOne) := rfl

/-- Writing all over the payload of the block before freeing it does no harm. -/
theorem run_wellFormed_store : ∃ w bs xs, w.live = [] ∧ WellFormed 4096 w bs xs := by
  have hphys : Physical { heap := heapOne, live := [(4104, 8)] } 4127 :=
    ⟨(4104, 8), by simp, by decide, by decide +kernel⟩
  have hr : Run (Guarded (Step Physical) MallocFree) (World.init (fun _ => 0) 4096)
      [.malloc 8, .store 4127 255, .free 4104] _ :=
    .head ⟨trivial, .malloc (by decide) malloc_init⟩ <| .head ⟨trivial, .store hphys⟩ <|
      .single ⟨trivial, .free List.mem_cons_self⟩
  obtain ⟨bs, xs, hwf, -⟩ := run_wellFormed (by decide) hr
  exact ⟨_, bs, xs, rfl, hwf⟩

/-! ## Requested ranges -/

/-- The first listed node that passes the fit test heads a block large enough for `space`. -/
def FirstFitLarge (h : Heap) (space : ℕ) : Prop :=
  ∀ pre x post, Chain h.mem h.head (pre ++ x :: post) → (∀ y ∈ pre, fitWord h.mem y < space) →
    space ≤ fitWord h.mem x → space ≤ getSize h.mem (nodeSize h.mem x)

/-- Allocations happen only where the block the fit test picks is large enough. -/
def FitGuard (w : World) : Op → Prop
  | .malloc size => FirstFitLarge w.heap (roundRequest size)
  | .calloc num size => FirstFitLarge w.heap (roundRequest (num * size))
  | _ => True

/-- The requested ranges are apart and inside the memory obtained from `sbrk`. -/
structure Safe (base : ℕ) (w : World) : Prop where
  apart : w.live.Pairwise fun x y => x.1 + x.2 ≤ y.1 ∨ y.1 + y.2 ≤ x.1
  inside : ∀ x ∈ w.live, base ≤ x.1 ∧ x.1 + x.2 ≤ w.heap.brk

/-- An allocation that does not move the break reuses a block whose header is at least the
rounded request. -/
def ReusesLarge (w w' : World) : Prop :=
  ∀ x, w'.live = x :: w.live → w'.heap.brk = w.heap.brk →
    roundRequest x.2 ≤ getSize w.heap.mem x.1

/-- Every live pointer is the payload of a block with room for what was requested. -/
def Fits (bs : List Block) (live : List (ℕ × ℕ)) : Prop :=
  ∀ x ∈ live, ∃ b ∈ bs, b.payload = x.1 ∧ x.2 + 8 ≤ b.size

/-- Under the guard the block `malloc` hands out has room for the request. -/
theorem HeapInv.malloc_fits {fuel size p : ℕ} {h h' : Heap} (hi : HeapInv base h bs fl)
    (hw : NoWrap size) (hg : FirstFitLarge h (roundRequest size))
    (hm : Malloc.malloc fuel h size = some (p, h')) :
    (∃ b : Block, b.payload = p ∧ b.addr = h.brk ∧ b.fin = h'.brk ∧ size + 8 ≤ b.size ∧
      HeapInv base h' (bs ++ [b]) fl) ∨
    ∃ pre b post, fl = pre ++ b :: post ∧ b.payload = p ∧ h'.brk = h.brk ∧ size + 8 ≤ b.size ∧
      roundRequest size ≤ getSize h.mem p ∧ HeapInv base h' bs (pre ++ post) := by
  have hround := roundRequest_spec hw
  rcases hi.malloc hw hm with
    ⟨b, hp, hb, hsize, hfin, hinv⟩ | ⟨pre, b, post, rfl, hp, hbrk, hfit, hpre, hinv⟩
  · exact .inl ⟨b, hp, hb, hfin, by omega, hinv⟩
  · right
    have hchain : Chain h.mem h.head (pre.map Block.node ++ b.node :: post.map Block.node) := by
      have hc := chain_of_seg hi.list.links hi.list.nodes.pos
      rw [← hi.list.head] at hc
      simpa using hc
    have hlarge : roundRequest size ≤ getSize h.mem p := by
      have hg' := hg _ _ _ hchain (List.forall_mem_map.mpr hpre) hfit
      rwa [hi.sizes b (by simp), hp] at hg'
    have hroom := hlarge
    rw [← hp, hi.getSize_payload (hi.free_sub (by simp))] at hroom
    exact ⟨pre, b, post, rfl, hp, hbrk, by omega, hlarge, hinv⟩

/-- The allocation part of a step, common to `malloc` and `calloc`. -/
theorem Inv.alloc {fuel size p : ℕ} {h : Heap} (hi : Inv base w bs fl) (hf : Fits bs w.live)
    (hw : NoWrap size) (hg : FirstFitLarge w.heap (roundRequest size))
    (hm : Malloc.malloc fuel w.heap size = some (p, h)) :
    ∃ bs' fl', Inv base { heap := h, live := (p, size) :: w.live } bs' fl' ∧
      Fits bs' ((p, size) :: w.live) ∧
      (h.brk = w.heap.brk → roundRequest size ≤ getSize w.heap.mem p) := by
  rcases hi.toHeapInv.malloc_fits hw hg hm with
    ⟨b, rfl, hb, hfin, hroom, hinv⟩ | ⟨pre, b, post, rfl, rfl, -, hroom, hlarge, hinv⟩
  · refine ⟨_, _, hi.extend hb hinv, List.forall_mem_cons.mpr ⟨⟨b, by simp, rfl, hroom⟩, ?_⟩, ?_⟩
    · intro x hx
      obtain ⟨c, hc, hcx⟩ := hf x hx
      exact ⟨c, List.mem_append_left _ hc, hcx⟩
    · have hlarge := b.large
      simp only [Block.fin] at hfin
      omega
  · exact ⟨_, _, hi.reuse hinv, List.forall_mem_cons.mpr
      ⟨⟨b, hi.free_sub (by simp), rfl, hroom⟩, hf⟩, fun _ => hlarge⟩

/-- Filling part of a requested range. -/
theorem Inv.fill_requested {x : ℕ × ℕ} {a n : ℕ} {v : UInt8} (hi : Inv base w bs fl)
    (hf : Fits bs w.live) (hx : x ∈ w.live) (h₁ : x.1 ≤ a) (h₂ : a + n ≤ x.1 + x.2) :
    Inv base { w with heap := { w.heap with mem := fill w.heap.mem a v n } } bs fl := by
  obtain ⟨b, hb, hp, hroom⟩ := hf x hx
  have hlive : b.payload ∈ w.live.map Prod.fst := hp ▸ List.mem_map_of_mem (f := Prod.fst) hx
  apply hi.write hb hlive
  intro c hc
  apply fill_of_lt
  simp only [Block.payload, Block.fin] at *
  omega

theorem Inv.step_requested {op : Op} (hi : Inv base w bs fl) (hf : Fits bs w.live)
    (hs : Guarded (Step Requested) FitGuard w op w') :
    (∃ bs' fl', Inv base w' bs' fl' ∧ Fits bs' w'.live) ∧ ReusesLarge w w' := by
  obtain ⟨hg, hs⟩ := hs
  cases hs with
  | malloc hw hm =>
    obtain ⟨bs', fl', hi', hf', hlarge⟩ := hi.alloc hf hw hg hm
    refine ⟨⟨bs', fl', hi', hf'⟩, fun x hx hbrk => ?_⟩
    obtain rfl := (List.cons.inj hx).1
    exact hlarge hbrk
  | calloc hw hm =>
    unfold calloc at hm
    rw [hw.mod_eq] at hm
    obtain ⟨⟨q, h'⟩, hm', heq⟩ := Option.map_eq_some_iff.mp hm
    obtain ⟨rfl, rfl⟩ := Prod.mk.inj heq
    obtain ⟨bs', fl', hi', hf', hlarge⟩ := hi.alloc hf hw hg hm'
    refine ⟨⟨bs', fl', hi'.fill_requested hf' List.mem_cons_self le_rfl le_rfl, hf'⟩,
      fun x hx hbrk => ?_⟩
    obtain rfl := (List.cons.inj hx).1
    exact hlarge hbrk
  | free hp =>
    obtain ⟨b, hinv⟩ := hi.free hp
    refine ⟨⟨_, _, hinv, fun x hx => hf x (List.mem_of_mem_erase hx)⟩, fun x hx => ?_⟩
    have hlen := congrArg List.length hx
    simp only [List.length_erase_of_mem hp, List.length_cons] at hlen
    omega
  | freeNull =>
    exact ⟨⟨bs, fl, by simpa [Malloc.free] using hi, hf⟩,
      fun x hx => absurd hx.symm (List.cons_ne_self x w.live)⟩
  | store hmay =>
    obtain ⟨x, hx, hlo, hhi⟩ := hmay
    exact ⟨⟨bs, fl, hi.fill_requested hf hx hlo (by omega), hf⟩,
      fun x hx => absurd hx.symm (List.cons_ne_self x w.live)⟩

theorem Inv.safe (hi : Inv base w bs fl) (hf : Fits bs w.live) : Safe base w where
  apart := by
    have hne := List.pairwise_map.mp hi.live_nodup
    apply List.Pairwise.imp_of_mem _ hne
    intro x y hx hy hxy
    obtain ⟨b, hb, hbx, hbn⟩ := hf x hx
    obtain ⟨c, hc, hcy, hcn⟩ := hf y hy
    rcases hi.tiles.apart b hb c hc with rfl | hap
    · exact absurd (hbx.symm.trans hcy) hxy
    · simp only [Block.payload, Block.fin] at *
      omega
  inside := by
    intro x hx
    obtain ⟨b, hb, hbx, hbn⟩ := hf x hx
    have hbd := hi.tiles.bounds.2 b hb
    simp only [Block.payload, Block.fin] at *
    omega

/-- Requested ranges of live pointers stay apart and inside the heap in every run whose
allocations meet the guard, and what is reused is large enough. -/
theorem run_safe {m : Mem} {ops : List Op} (hb : base < 2 ^ 64)
    (hr : Run (Guarded (Step Requested) FitGuard) (World.init m base) ops w) :
    Safe base w ∧ ∀ op w', Guarded (Step Requested) FitGuard w op w' → ReusesLarge w w' := by
  obtain ⟨bs, fl, hi, hf⟩ := hr.invariant
    (P := fun w => ∃ bs fl, Inv base w bs fl ∧ Fits bs w.live)
    ⟨[], [], inv_init m hb, by simp [Fits, World.init]⟩
    fun ⟨_, _, hi, hf⟩ hs => (hi.step_requested hf hs).1
  exact ⟨hi.safe hf, fun op w' hs => (hi.step_requested hf hs).2⟩

/-- A 32-byte block that was freed may be handed out again for an equal request. -/
theorem run_safe_reuse : ∃ w, w.live = [(4104, 8)] ∧ Safe 4096 w := by
  have h₂ : (malloc 2 (free heapOne 4104) 8).map Prod.fst = some 4104 := by decide +kernel
  obtain ⟨⟨p, h⟩, hm, rfl⟩ := Option.map_eq_some_iff.mp h₂
  have hg₁ : FitGuard (World.init (fun _ => 0) 4096) (.malloc 8) := by
    intro pre x post hc
    have hnil : Chain (World.init (fun _ => 0) 4096).heap.mem 0 [] := rfl
    exact absurd (hc.unique hnil) (by simp)
  have hg₂ : FirstFitLarge (free heapOne 4104) (roundRequest 8) := by
    intro pre x post hc _ _
    have hone : Chain (free heapOne 4104).mem (free heapOne 4104).head [4104] := by
      decide +kernel
    have hlist := hc.unique hone
    obtain rfl : x = 4104 := List.mem_singleton.mp (hlist ▸ by simp)
    decide +kernel
  have hr : Run (Guarded (Step Requested) FitGuard) (World.init (fun _ => 0) 4096)
      [.malloc 8, .free 4104, .malloc 8] { heap := h, live := [(4104, 8)] } :=
    .head ⟨hg₁, .malloc (by decide) malloc_init⟩ <| .head ⟨trivial, .free List.mem_cons_self⟩ <|
      .single ⟨hg₂, .malloc (by decide) hm⟩
  exact ⟨_, rfl, (run_safe (by decide) hr).1⟩

/-- Without the guard the range of a reused block runs past the break: the node of a 32-byte
block starts at its payload, where the fit test finds an address instead of the size 32. -/
theorem run_unsafe : ¬ ∀ (m : Mem) (base : ℕ) (ops : List Op) (w : World), base < 2 ^ 64 →
    Run (Step Requested) (World.init m base) ops w →
      Safe base w ∧ ∀ op w', Step Requested w op w' → ReusesLarge w w' := by
  intro hall
  have h₂ : (malloc 2 (free heapOne 4104) 1000).map (fun r => (r.1, r.2.brk)) =
      some (4104, 4128) := by decide +kernel
  obtain ⟨⟨p, h⟩, hm, heq⟩ := Option.map_eq_some_iff.mp h₂
  obtain ⟨rfl, hbrk⟩ := Prod.mk.inj heq
  have hr : Run (Step Requested) (World.init (fun _ => 0) 4096)
      [.malloc 8, .free 4104, .malloc 1000] { heap := h, live := [(4104, 1000)] } :=
    .head (.malloc (by decide) malloc_init) <| .head (.free List.mem_cons_self) <|
      .single (.malloc (by decide) hm)
  have hin := ((hall _ _ _ _ (by decide) hr).1.inside (4104, 1000) List.mem_cons_self).2
  dsimp only at hbrk hin
  omega

end Cs241.Malloc
