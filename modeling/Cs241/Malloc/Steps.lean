import Cs241.Malloc.Blocks

/-!
# What each call does to the blocks

One specification a call: `malloc` either takes a block off the free list or
appends one at the break, `free` puts the block of its argument in front of the
list, and writes inside the payload of a live block change neither headers nor
list nodes.
-/
namespace Cs241.Malloc

open Foundation

variable {base : ℕ} {h : Heap} {bs fl : List Block}

/-- Bytes the allocator reads: headers of blocks and nodes of free blocks. -/
def Kept (bs fl : List Block) (a : ℕ) : Prop :=
  (∃ b ∈ bs, b.addr ≤ a ∧ a < b.addr + 8) ∨ ∃ b ∈ fl, b.node ≤ a ∧ a < b.node + 24

/-- Memory may change anywhere but in the headers and the nodes of free blocks. -/
theorem HeapInv.frame {m : Mem} (hi : HeapInv base h bs fl)
    (hm : ∀ a, Kept bs fl a → m a = h.mem a) : HeapInv base { h with mem := m } bs fl := by
  have hfield : ∀ x ∈ fl.map Block.node, ∀ k, k ≤ 16 → field m x k = field h.mem x k := by
    intro x hx k hk
    obtain ⟨b, hb, rfl⟩ := List.mem_map.mp hx
    exact readWord_congr fun a h₁ h₂ => hm a (.inr ⟨b, hb, by omega, by omega⟩)
  refine ⟨hi.tiles, hi.brk, ?_, hi.free_sub, ⟨hi.list.nodes, ?_, hi.list.head⟩, ?_⟩
  · intro b hb
    rw [← hi.header b hb]
    exact readWord_congr fun a h₁ h₂ => hm a (.inl ⟨b, hb, h₁, h₂⟩)
  · exact hi.list.links.congr fun x hx => ⟨hfield x hx 8 (by omega), hfield x hx 16 (by omega)⟩
  · intro b hb
    exact (hfield _ (List.mem_map_of_mem hb) 0 (by omega)).trans (hi.sizes b hb)

/-- The payload of a block that is not free is none of the allocator's bytes. -/
theorem HeapInv.payload_not_kept (hi : HeapInv base h bs fl) {b : Block} (hb : b ∈ bs)
    (hfree : b ∉ fl) {a : ℕ} (h₁ : b.payload ≤ a) (h₂ : a < b.fin) : ¬ Kept bs fl a := by
  rintro (⟨c, hc, hlo, hhi⟩ | ⟨c, hc, hlo, hhi⟩)
  · have hlarge := c.large
    rcases hi.tiles.apart b hb c hc with rfl | hap
    · simp only [Block.payload] at h₁
      omega
    · simp only [Block.payload, Block.fin] at *
      omega
  · have hlarge := c.large
    rcases hi.tiles.apart b hb c (hi.free_sub hc) with rfl | hap
    · exact hfree hc
    · simp only [Block.payload, Block.node, Block.fin] at *
      omega

theorem HeapInv.outside_nodes (hi : HeapInv base h bs fl) {b : Block} (hb : b ∈ bs)
    (hfree : b ∉ fl) {a : ℕ} (h₁ : b.payload ≤ a) (h₂ : a < b.fin) :
    Outside (fl.map Block.node) a := by
  intro x hx
  obtain ⟨c, hc, rfl⟩ := List.mem_map.mp hx
  by_contra hin
  exact hi.payload_not_kept hb hfree h₁ h₂ (.inr ⟨c, hc, by omega, by omega⟩)

/-- Appending a fresh block at the break. -/
theorem HeapInv.extend (hi : HeapInv base h bs fl) {b : Block} (hb : b.addr = h.brk)
    (hbrk : b.fin < 2 ^ 64) :
    HeapInv base { h with brk := b.fin, mem := writeWord h.mem h.brk b.size } (bs ++ [b]) fl := by
  have hout : ∀ a, Kept bs fl a → writeWord h.mem h.brk b.size a = h.mem a := by
    intro a ha
    apply writeWord_of_lt
    left
    rcases ha with ⟨c, hc, hlo, hhi⟩ | ⟨c, hc, hlo, hhi⟩
    · have hfin := (hi.tiles.bounds.2 c hc).2
      have hlarge := c.large
      simp only [Block.fin] at hfin
      omega
    · have hfin := (hi.tiles.bounds.2 c (hi.free_sub hc)).2
      have hlarge := c.large
      simp only [Block.node, Block.fin] at *
      omega
  have hf := hi.frame hout
  refine ⟨hi.tiles.snoc hb, hbrk, ?_, ?_, ⟨hf.list.nodes, hf.list.links, hf.list.head⟩, hf.sizes⟩
  · intro c hc
    rcases List.mem_append.mp hc with hc | hc
    · exact hf.header c hc
    · obtain rfl := List.mem_singleton.mp hc
      have hsize : c.size < 2 ^ 64 := by
        simp only [Block.fin] at hbrk
        omega
      rw [hb]
      exact readWord_writeWord hsize
  · exact fun c hc => List.mem_append_left _ (hi.free_sub hc)

/-- Taking a block off the list leaves the blocks as they are. -/
theorem HeapInv.reuse {pre post : List Block} {b : Block}
    (hi : HeapInv base h bs (pre ++ b :: post)) :
    HeapInv base (removeNode h b.node) bs (pre ++ post) ∧
      (removeNode h b.node).brk = h.brk ∧
      nodeSize (removeNode h b.node).mem b.node = b.addr := by
  have hl : ListAt h (pre.map Block.node ++ b.node :: post.map Block.node) := by
    simpa using hi.list
  obtain ⟨hlist, hbrk, hsize, hsizes, hout⟩ := removeNode_spec hl
  have hsub : pre ++ post ⊆ pre ++ b :: post := List.Sublist.subset (by simp)
  refine ⟨⟨?_, ?_, ?_, fun c hc => hi.free_sub (hsub hc), ?_, ?_⟩, hbrk, ?_⟩
  · rw [hbrk]
    exact hi.tiles
  · rw [hbrk]
    exact hi.brk
  · intro c hc
    rw [← hi.header c hc]
    apply readWord_congr
    intro a h₁ h₂
    apply hout
    simpa using hi.tiles.header_outside hc hi.free_sub h₁ h₂
  · simpa using hlist
  · intro c hc
    rw [hsizes c.node, hi.sizes c (hsub hc)]
    simpa using List.mem_map_of_mem (f := Block.node) hc
  · rw [hsize, hi.sizes b (by simp), Block.payload]
    omega

/-- What a successful `malloc` does: all nodes fail the fit test and the break moves by the rounded
request, or the first node that passes is taken off the list. -/
theorem HeapInv.malloc_cases {fuel size p : ℕ} {h' : Heap} (hi : HeapInv base h bs fl)
    (hm : malloc fuel h size = some (p, h')) :
    (p = h.brk + 8 ∧ h.brk + roundRequest size < 2 ^ 64 ∧
      (∀ c ∈ fl, fitWord h.mem c.node < roundRequest size) ∧
      h' = { h with brk := h.brk + roundRequest size
                    mem := writeWord h.mem h.brk (roundRequest size) }) ∨
    ∃ pre b post, fl = pre ++ b :: post ∧ b.payload = p ∧ h' = removeNode h b.node ∧
      roundRequest size ≤ fitWord h.mem b.node ∧
      (∀ c ∈ pre, fitWord h.mem c.node < roundRequest size) := by
  unfold Malloc.malloc at hm
  obtain ⟨curr, hfind, hm⟩ := Option.bind_eq_some_iff.mp hm
  rw [hi.list.head] at hfind
  rcases findNode_spec hi.list.links hi.list.nodes.pos hfind with
    ⟨rfl, hall⟩ | ⟨pre, post, heq, hfit, hpre⟩
  · left
    unfold sbrk at hm
    rw [if_neg (by simp)] at hm
    split_ifs at hm with hbrk
    · obtain ⟨rfl, rfl⟩ := Prod.mk.inj (Option.some.inj hm)
      exact ⟨rfl, hbrk, fun c hc => hall _ (List.mem_map_of_mem hc), rfl⟩
    · simp at hm
  · right
    obtain ⟨pre', post', rfl, hpre', hpost'⟩ := List.map_eq_append_iff.mp heq
    obtain ⟨b, post'', rfl, hb, hpost''⟩ := List.map_eq_cons_iff.mp hpost'
    subst hb hpre'
    have hne : b.node ≠ 0 := hi.list.nodes.pos _ (by simp)
    rw [if_pos hne] at hm
    obtain ⟨hp, rfl⟩ := Prod.mk.inj (Option.some.inj hm)
    rw [hi.reuse.2.2] at hp
    exact ⟨pre', b, post'', rfl, hp, rfl, hfit, fun c hc => hpre _ (List.mem_map_of_mem hc)⟩

/-- The block returned by a successful `malloc`, and where it came from. -/
theorem HeapInv.malloc {fuel size p : ℕ} {h' : Heap} (hi : HeapInv base h bs fl)
    (hw : NoWrap size) (hm : malloc fuel h size = some (p, h')) :
    (∃ b : Block, b.payload = p ∧ b.addr = h.brk ∧ b.size = roundRequest size ∧ b.fin = h'.brk ∧
      HeapInv base h' (bs ++ [b]) fl) ∨
    ∃ pre b post, fl = pre ++ b :: post ∧ b.payload = p ∧ h'.brk = h.brk ∧
      roundRequest size ≤ fitWord h.mem b.node ∧
      (∀ c ∈ pre, fitWord h.mem c.node < roundRequest size) ∧
      HeapInv base h' bs (pre ++ post) := by
  rcases hi.malloc_cases hm with ⟨rfl, hbrk, -, rfl⟩ | ⟨pre, b, post, rfl, hp, rfl, hfit, hpre⟩
  · have hround := roundRequest_spec hw
    let b : Block := ⟨h.brk, roundRequest size, hround.1, by omega⟩
    exact .inl ⟨b, rfl, rfl, rfl, rfl, hi.extend (b := b) rfl hbrk⟩
  · obtain ⟨hinv, hbrk, -⟩ := hi.reuse
    exact .inr ⟨pre, b, post, rfl, hp, hbrk, hfit, hpre, hinv⟩

/-- What `free` does to the list and to memory, at a block that is not on the list. -/
theorem HeapInv.free_block {b : Block} (hi : HeapInv base h bs fl) (hb : b ∈ bs)
    (hfree : b ∉ fl) :
    ListAt (free h b.payload) (b.node :: fl.map Block.node) ∧
      (Malloc.free h b.payload).brk = h.brk ∧
      nodeSize (Malloc.free h b.payload).mem b.node = b.payload ∧
      (∀ y ∈ fl.map Block.node, nodeSize (Malloc.free h b.payload).mem y = nodeSize h.mem y) ∧
      ∀ a, Outside (b.node :: fl.map Block.node) a →
        (Malloc.free h b.payload).mem a = h.mem a := by
  have hsub : b :: fl ⊆ bs := List.cons_subset.mpr ⟨hb, hi.free_sub⟩
  have hfin := (hi.tiles.bounds.2 b hb).2
  have hbrk := hi.brk
  have hlarge := b.large
  have hnodes : NodeList (b.node :: fl.map Block.node) := by
    simpa using hi.tiles.nodeList hbrk hsub (List.nodup_cons.mpr ⟨hfree, hi.free_nodup⟩)
  have hthis : b.payload - 8 + getSize h.mem b.payload - 24 = b.node := by
    rw [hi.getSize_payload hb, Block.payload, Block.node]
    omega
  have hlt : b.payload < 2 ^ 64 := by
    simp only [Block.payload, Block.fin] at *
    omega
  exact free_spec hi.list hnodes (by simp [Block.payload]) hlt hthis

/-- Freeing a block that is not on the list puts it in front. -/
theorem HeapInv.free {b : Block} (hi : HeapInv base h bs fl) (hb : b ∈ bs) (hfree : b ∉ fl) :
    HeapInv base (free h b.payload) bs (b :: fl) ∧ (Malloc.free h b.payload).brk = h.brk := by
  have hsub : b :: fl ⊆ bs := List.cons_subset.mpr ⟨hb, hi.free_sub⟩
  have hbrk := hi.brk
  obtain ⟨hlist, hbrk', hsize, hsizes, hout⟩ := hi.free_block hb hfree
  refine ⟨⟨?_, ?_, ?_, hsub, by simpa using hlist, ?_⟩, hbrk'⟩
  · rw [hbrk']
    exact hi.tiles
  · rw [hbrk']
    exact hbrk
  · intro c hc
    rw [← hi.header c hc]
    apply readWord_congr
    intro a h₁ h₂
    apply hout
    simpa using hi.tiles.header_outside hc hsub h₁ h₂
  · intro c hc
    rcases List.mem_cons.mp hc with rfl | hc
    · exact hsize
    · rw [hsizes c.node (List.mem_map_of_mem hc), hi.sizes c hc]

/-- `malloc` leaves the payloads of the blocks that are in use. -/
theorem HeapInv.malloc_kept {fuel size p : ℕ} {h' : Heap} (hi : HeapInv base h bs fl)
    (hm : Malloc.malloc fuel h size = some (p, h')) {b : Block} (hb : b ∈ bs) (hfree : b ∉ fl)
    {a : ℕ} (h₁ : b.payload ≤ a) (h₂ : a < b.fin) : h'.mem a = h.mem a := by
  rcases hi.malloc_cases hm with ⟨-, -, -, rfl⟩ | ⟨pre, c, post, rfl, -, rfl, -⟩
  · have hfin := (hi.tiles.bounds.2 b hb).2
    exact writeWord_of_lt (.inl (by omega))
  · have hl : ListAt h (pre.map Block.node ++ c.node :: post.map Block.node) := by
      simpa using hi.list
    apply (removeNode_spec hl).2.2.2.2
    simpa using hi.outside_nodes hb hfree h₁ h₂

/-- `free` leaves the payloads of the blocks that stay in use. -/
theorem HeapInv.free_kept {b c : Block} (hi : HeapInv base h bs fl) (hb : b ∈ bs) (hfree : b ∉ fl)
    (hc : c ∈ bs) (hused : c ∉ b :: fl) {a : ℕ} (h₁ : c.payload ≤ a) (h₂ : a < c.fin) :
    (Malloc.free h b.payload).mem a = h.mem a := by
  rw [List.mem_cons, not_or] at hused
  apply (hi.free_block hb hfree).2.2.2.2
  refine List.forall_mem_cons.mpr ⟨?_, hi.outside_nodes hc hused.2 h₁ h₂⟩
  have hap := (hi.tiles.apart c hc b hb).resolve_left hused.1
  have hlarge := b.large
  simp only [Block.payload, Block.node, Block.fin] at *
  omega

/-- With fuel for the whole list, `malloc` fails only where `sbrk` does. -/
theorem HeapInv.malloc_returns (hi : HeapInv base h bs fl) {size : ℕ}
    (hroom : h.brk + roundRequest size < 2 ^ 64) :
    ∃ r, Malloc.malloc (fl.length + 1) h size = some r := by
  have hsome : (findNode h.mem (roundRequest size) (fl.length + 1) h.head).isSome := by
    rw [hi.list.head]
    exact findNode_isSome hi.list.links (by simp)
  obtain ⟨curr, hcurr⟩ := Option.isSome_iff_exists.mp hsome
  unfold Malloc.malloc
  dsimp only
  rw [hcurr, Option.bind_some]
  split_ifs with hc
  · exact ⟨_, rfl⟩
  · rw [sbrk, if_pos hroom]
    exact ⟨_, rfl⟩

end Cs241.Malloc
