import Cs241.Malloc.FreeList

/-!
# Blocks and the heap invariant

Abstractly the heap is a sequence of blocks that tile the memory between its
start and the program break. `Inv` says that memory represents a given block
sequence and a given free list: headers hold the block sizes, the list nodes
lie in the tails of the free blocks, and a block is live or on the list, never
both and never neither.
-/
namespace Cs241.Malloc

open Foundation

/-- A block with room for its header and, once freed, a list node. -/
structure Block where
  addr : ℕ
  size : ℕ
  aligned : size % 8 = 0
  large : 32 ≤ size
deriving DecidableEq

namespace Block

/-- The address `malloc` returns for the block. -/
def payload (b : Block) : ℕ := b.addr + 8

/-- The node that `free` places in the last bytes of the block. -/
def node (b : Block) : ℕ := b.addr + b.size - 24

/-- The first address after the block. -/
def fin (b : Block) : ℕ := b.addr + b.size

end Block

/-- The blocks follow one another without gap from `a` to `e`. -/
def Tiles : ℕ → List Block → ℕ → Prop
  | a, [], e => a = e
  | a, b :: bs, e => b.addr = a ∧ Tiles b.fin bs e

theorem Tiles.bounds : ∀ {a e : ℕ} {bs : List Block}, Tiles a bs e →
    a ≤ e ∧ ∀ b ∈ bs, a ≤ b.addr ∧ b.fin ≤ e
  | _, _, [], h => ⟨h.le, by simp⟩
  | a, e, b :: bs, ⟨hb, ht⟩ => by
    obtain ⟨hle, hall⟩ := ht.bounds
    have hfin : a ≤ b.fin := by simp [Block.fin, hb]
    refine ⟨hfin.trans hle, List.forall_mem_cons.mpr ⟨⟨hb.ge, hle⟩, fun c hc => ?_⟩⟩
    exact ⟨hfin.trans (hall c hc).1, (hall c hc).2⟩

theorem Tiles.snoc : ∀ {a e : ℕ} {bs : List Block} {b : Block}, Tiles a bs e → b.addr = e →
    Tiles a (bs ++ [b]) b.fin
  | _, _, [], _, h, hb => ⟨hb.trans h.symm, rfl⟩
  | _, _, _ :: _, _, ⟨hc, ht⟩, hb => ⟨hc, ht.snoc hb⟩

/-- Two blocks of a tiling are the same or apart. -/
theorem Tiles.apart : ∀ {a e : ℕ} {bs : List Block}, Tiles a bs e → ∀ b ∈ bs, ∀ c ∈ bs,
    b = c ∨ b.fin ≤ c.addr ∨ c.fin ≤ b.addr
  | _, _, [], _ => by simp
  | _, _, d :: ds, ⟨_, ht⟩ => by
    intro b hb c hc
    rcases List.mem_cons.mp hb with rfl | hb' <;> rcases List.mem_cons.mp hc with rfl | hc'
    · exact .inl rfl
    · exact .inr (.inl (ht.bounds.2 c hc').1)
    · exact .inr (.inr (ht.bounds.2 b hb').1)
    · exact ht.apart b hb' c hc'

section Tiling

variable {a e : ℕ} {bs : List Block} {b c : Block}

theorem Tiles.payload_inj (ht : Tiles a bs e) (hb : b ∈ bs) (hc : c ∈ bs)
    (h : b.payload = c.payload) : b = c := by
  rcases ht.apart b hb c hc with heq | hap
  · exact heq
  · have hb' := b.large
    have hc' := c.large
    simp only [Block.payload, Block.fin] at *
    omega

/-- Nodes lie inside the payloads of their blocks, so those of two blocks are apart. -/
theorem Tiles.node_sep (ht : Tiles a bs e) (hb : b ∈ bs) (hc : c ∈ bs) :
    NodeSep b.node c.node := by
  have hb' := b.large
  have hc' := c.large
  rcases ht.apart b hb c hc with rfl | hap
  · exact .inl rfl
  · right
    simp only [Block.node, Block.fin] at *
    omega

theorem Tiles.node_inj (ht : Tiles a bs e) (hb : b ∈ bs) (hc : c ∈ bs)
    (h : b.node = c.node) : b = c := by
  rcases ht.apart b hb c hc with heq | hap
  · exact heq
  · have hb' := b.large
    have hc' := c.large
    simp only [Block.node, Block.fin] at *
    omega

/-- No header byte is a node byte. -/
theorem Tiles.header_outside (ht : Tiles a bs e) (hb : b ∈ bs) {fl : List Block} (hfl : fl ⊆ bs)
    {x : ℕ} (h₁ : b.addr ≤ x) (h₂ : x < b.addr + 8) : Outside (fl.map Block.node) x := by
  intro n hn
  obtain ⟨c, hc, rfl⟩ := List.mem_map.mp hn
  have hb' := b.large
  have hc' := c.large
  rcases ht.apart b hb c (hfl hc) with rfl | hap
  · left
    simp only [Block.node]
    omega
  · simp only [Block.node, Block.fin] at *
    omega

theorem Tiles.nodeList (ht : Tiles a bs e) (he : e < 2 ^ 64) {fl : List Block}
    (hfl : fl ⊆ bs) (hnd : fl.Nodup) : NodeList (fl.map Block.node) where
  nodup := hnd.map_on fun _ hb _ hc h => ht.node_inj (hfl hb) (hfl hc) h
  pos := by
    intro n hn
    obtain ⟨b, hb, rfl⟩ := List.mem_map.mp hn
    have hb' := b.large
    simp only [Block.node]
    omega
  lt := by
    intro n hn
    obtain ⟨b, hb, rfl⟩ := List.mem_map.mp hn
    have hfin := (ht.bounds.2 b (hfl hb)).2
    simp only [Block.node, Block.fin] at *
    omega
  sep := by
    intro n hn k hk
    obtain ⟨b, hb, rfl⟩ := List.mem_map.mp hn
    obtain ⟨c, hc, rfl⟩ := List.mem_map.mp hk
    exact ht.node_sep (hfl hb) (hfl hc)

end Tiling

/-- The heap holds the blocks `bs` from `base` on, of which `fl` are on the free list. -/
structure HeapInv (base : ℕ) (h : Heap) (bs fl : List Block) : Prop where
  tiles : Tiles base bs h.brk
  brk : h.brk < 2 ^ 64
  header : ∀ b ∈ bs, readWord h.mem b.addr = b.size
  free_sub : fl ⊆ bs
  list : ListAt h (fl.map Block.node)
  sizes : ∀ b ∈ fl, nodeSize h.mem b.node = b.payload

/-- The heap invariant, and which blocks the caller holds. -/
structure Inv (base : ℕ) (w : World) (bs fl : List Block) : Prop extends
    HeapInv base w.heap bs fl where
  live_nodup : (w.live.map Prod.fst).Nodup
  live_block : ∀ p ∈ w.live.map Prod.fst, ∃ b ∈ bs, b.payload = p
  partition : ∀ b ∈ bs, b.payload ∈ w.live.map Prod.fst ↔ b ∉ fl

theorem HeapInv.free_nodup {base : ℕ} {h : Heap} {bs fl : List Block}
    (hi : HeapInv base h bs fl) : fl.Nodup :=
  hi.list.nodes.nodup.of_map _

/-- The header of a block is what `get_size` reads at its payload. -/
theorem HeapInv.getSize_payload {base : ℕ} {h : Heap} {bs fl : List Block} {b : Block}
    (hi : HeapInv base h bs fl) (hb : b ∈ bs) : getSize h.mem b.payload = b.size := by
  rw [getSize, Block.payload, Nat.add_sub_cancel]
  exact hi.header b hb

theorem inv_init (m : Mem) {base : ℕ} (hb : base < 2 ^ 64) :
    Inv base (World.init m base) [] [] where
  tiles := rfl
  brk := hb
  header := by simp
  free_sub := by simp
  list := ⟨⟨List.nodup_nil, by simp, by simp, by simp⟩, trivial, rfl⟩
  sizes := by simp
  live_nodup := List.nodup_nil
  live_block := by simp [World.init]
  partition := by simp

end Cs241.Malloc
