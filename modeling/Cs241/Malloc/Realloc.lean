import Cs241.Malloc.Requests

/-!
# Changing the size of a block

`realloc` keeps the block if the new size is not above the header, which counts
itself: a block is eight bytes short for the largest sizes it accepts. Otherwise it
allocates, copies as many bytes as the old header says, and frees the old block.
`realloc(NULL, size)` returns `NULL`, and `realloc(p, 0)` returns `p` after freeing
it.
-/
namespace Cs241.Malloc

open Foundation

def realloc (fuel : ℕ) (h : Heap) (ptr size : ℕ) : Option (ℕ × Heap) :=
  if ptr = 0 then some (0, h)
  else
    let h := if size = 0 then free h ptr else h
    if size ≤ getSize h.mem ptr then some (ptr, h)
    else
      (malloc fuel h size).map fun (alloc, h) =>
        let h := { h with mem := copyBytes h.mem alloc ptr (getSize h.mem ptr) }
        (alloc, free h ptr)

/-- The calls of all four functions, and the writes of the caller. -/
inductive Call
  | op (op : Op)
  | realloc (ptr size : ℕ)

inductive ReallocStep : World → Call → World → Prop
  | op {w op w'} (h : Step Physical w op w') : ReallocStep w (.op op) w'
  | null {w size fuel p h} (hr : realloc fuel w.heap 0 size = some (p, h)) :
      ReallocStep w (.realloc 0 size) { w with heap := h }
  | zero {w p n fuel r h} (hp : (p, n) ∈ w.live) (hr : realloc fuel w.heap p 0 = some (r, h)) :
      ReallocStep w (.realloc p 0) { heap := h, live := w.live.erase (p, n) }
  | resize {w p n size fuel r h} (hp : (p, n) ∈ w.live) (hpos : 0 < size) (hlt : size < 2 ^ 64)
      (hr : realloc fuel w.heap p size = some (r, h)) :
      ReallocStep w (.realloc p size)
        { heap := h, live := (r, size) :: w.live.erase (p, n) }

/-- Every allocation finds room for what it asks, a block that keeps its place has room for the new
size, and `realloc` gets neither `NULL` nor the size 0. -/
def ReallocRoomy (w : World) : Call → Prop
  | .op (.malloc size) => Roomy w.heap size
  | .op (.calloc num size) => Roomy w.heap (num * size)
  | .op _ => True
  | .realloc ptr size => ptr ≠ 0 ∧ size ≠ 0 ∧
    (size + 8 ≤ getSize w.heap.mem ptr ∨ getSize w.heap.mem ptr < size ∧ Roomy w.heap size)

/-- What a caller of `realloc` relies on, for the pointer `p` requested with `n` bytes. -/
structure Reallocated (w : World) (p n size r : ℕ) (h : Heap) : Prop where
  unlisted : ∀ xs, Chain h.mem h.head xs → ∀ x ∈ xs, nodeSize h.mem x ≠ r
  room : size + 8 ≤ getSize h.mem r
  contents : ∀ i < min n size, h.mem (r + i) = w.heap.mem (p + i)
  apart : ∀ x ∈ w.live, x.1 ≠ p → x.1 ≠ r
  sizes : ∀ x ∈ w.live, x.1 ≠ p → getSize h.mem x.1 = getSize w.heap.mem x.1
  others : ∀ x ∈ w.live, x.1 ≠ p → ∀ a, x.1 ≤ a → a + 8 < x.1 + getSize w.heap.mem x.1 →
    h.mem a = w.heap.mem a

variable {base : ℕ} {w w' : World} {bs fl bs' fl' : List Block} {p n size r fuel : ℕ} {h : Heap}

/-! ## One call -/

/-- Every live pointer has room for what was requested. -/
def Roomed (w : World) : Prop := ∀ x ∈ w.live, x.2 + 8 ≤ getSize w.heap.mem x.1

/-- Blocks that are never taken away keep their headers. -/
theorem Inv.getSize_kept (hi : Inv base w bs fl) (hi' : HeapInv base h bs' fl') (hsub : bs ⊆ bs')
    (hp : p ∈ w.live.map Prod.fst) : getSize h.mem p = getSize w.heap.mem p := by
  obtain ⟨b, hb, rfl⟩ := hi.live_block p hp
  rw [hi.getSize_payload hb, hi'.getSize_payload (hsub hb)]

theorem Inv.pos (hi : Inv base w bs fl) (hp : p ∈ w.live.map Prod.fst) : p ≠ 0 := by
  obtain ⟨b, -, rfl⟩ := hi.live_block p hp
  simp [Block.payload]

/-- No node on the list belongs to a live pointer. -/
theorem Inv.unlisted (hi : Inv base w bs fl) (hp : p ∈ w.live.map Prod.fst) {xs : List ℕ}
    (hc : Chain w.heap.mem w.heap.head xs) : ∀ x ∈ xs, nodeSize w.heap.mem x ≠ p := by
  obtain rfl := hi.chain.unique hc
  refine List.forall_mem_map.mpr fun b hb he => ?_
  rw [hi.sizes b hb] at he
  subst he
  exact (hi.partition b (hi.free_sub hb)).mp hp hb

/-- The bytes of a live pointer's physical payload, through a call of `malloc`. -/
theorem Inv.malloc_kept {q : ℕ} (hi : Inv base w bs fl)
    (hm : Malloc.malloc fuel w.heap size = some (r, h)) (hq : q ∈ w.live.map Prod.fst) {a : ℕ}
    (hlo : q ≤ a) (hhi : a + 8 < q + getSize w.heap.mem q) : h.mem a = w.heap.mem a := by
  obtain ⟨b, hb, rfl⟩ := hi.live_block q hq
  rw [hi.getSize_payload hb] at hhi
  apply hi.toHeapInv.malloc_kept hm hb ((hi.partition b hb).mp hq) hlo
  simp only [Block.payload, Block.fin] at *
  omega

/-- The same through a call of `free` for another pointer. -/
theorem Inv.free_kept {q : ℕ} (hi : Inv base w bs fl) (hp : p ∈ w.live.map Prod.fst)
    (hq : q ∈ w.live.map Prod.fst) (hne : q ≠ p) {a : ℕ} (hlo : q ≤ a)
    (hhi : a + 8 < q + getSize w.heap.mem q) : (Malloc.free w.heap p).mem a = w.heap.mem a := by
  obtain ⟨b, hb, rfl⟩ := hi.live_block p hp
  obtain ⟨c, hc, rfl⟩ := hi.live_block q hq
  rw [hi.getSize_payload hc] at hhi
  have hcb : c ≠ b := fun he => hne (by rw [he])
  have hused : c ∉ b :: fl := by
    rw [List.mem_cons, not_or]
    exact ⟨hcb, (hi.partition c hc).mp hq⟩
  apply hi.toHeapInv.free_kept hb ((hi.partition b hb).mp hp) hc hused hlo
  simp only [Block.payload, Block.fin] at *
  omega

/-- The payloads of two live pointers do not meet. -/
theorem Inv.apart {q a : ℕ} (hi : Inv base w bs fl) (hp : p ∈ w.live.map Prod.fst)
    (hq : q ∈ w.live.map Prod.fst) (hne : q ≠ p) (hlo : q ≤ a)
    (hhi : a + 8 < q + getSize w.heap.mem q) : a < p ∨ p + getSize w.heap.mem p ≤ a + 8 := by
  obtain ⟨b, hb, rfl⟩ := hi.live_block p hp
  obtain ⟨c, hc, rfl⟩ := hi.live_block q hq
  rw [hi.getSize_payload hc] at hhi
  rw [hi.getSize_payload hb]
  have hap := (hi.tiles.apart c hc b hb).resolve_left fun he => hne (by rw [he])
  simp only [Block.payload, Block.fin] at *
  omega

/-- A block that stays where it is. -/
theorem Inv.realloc_stays (hi : Inv base w bs fl) (hp : (p, n) ∈ w.live)
    (hroom : size + 8 ≤ getSize w.heap.mem p) :
    Inv base { w with live := (p, size) :: w.live.erase (p, n) } bs fl ∧
      Reallocated w p n size p w.heap := by
  have hpl : p ∈ w.live.map Prod.fst := List.mem_map_of_mem (f := Prod.fst) hp
  have hmem : ∀ q, q ∈ ((p, size) :: w.live.erase (p, n)).map Prod.fst ↔
      q ∈ w.live.map Prod.fst := by
    intro q
    rw [List.map_cons, List.mem_cons, mem_map_fst_erase hi.live_nodup hp]
    by_cases hq : q = p
    · simp [hq, hpl]
    · simp [hq]
  refine ⟨{ hi.toHeapInv with live_nodup := ?_, live_block := ?_, partition := ?_ }, ?_⟩
  · rw [List.map_cons, List.nodup_cons, mem_map_fst_erase hi.live_nodup hp]
    exact ⟨fun h => h.1 rfl, hi.live_nodup.sublist (List.erase_sublist.map _)⟩
  · exact fun q hq => hi.live_block q ((hmem q).mp hq)
  · exact fun b hb => (hmem _).trans (hi.partition b hb)
  · exact ⟨fun xs hc => hi.unlisted hpl hc, hroom, fun _ _ => rfl, fun _ _ hne => hne,
      fun _ _ _ => rfl, fun _ _ _ _ _ _ => rfl⟩

/-- A block that moves: the copy ends inside the new block, so that nothing else is touched. -/
theorem Inv.realloc_moves (hi : Inv base w bs fl) (hp : (p, n) ∈ w.live)
    (hn : n + 8 ≤ getSize w.heap.mem p) (hbig : getSize w.heap.mem p < size)
    (hlt : size < 2 ^ 64) (hroomy : Roomy w.heap size)
    (hm : Malloc.malloc fuel w.heap size = some (r, h)) :
    (∃ bs' fl', Inv base
      { heap := Malloc.free { h with mem := copyBytes h.mem r p (getSize h.mem p) } p
        live := (r, size) :: w.live.erase (p, n) } bs' fl') ∧
      Reallocated w p n size r
        (Malloc.free { h with mem := copyBytes h.mem r p (getSize h.mem p) } p) := by
  have hpl : p ∈ w.live.map Prod.fst := List.mem_map_of_mem (f := Prod.fst) hp
  have hm' : Malloc.malloc fuel w.heap (size % 2 ^ 64) = some (r, h) := by
    rwa [Nat.mod_eq_of_lt hlt]
  have hroom := (hi.toHeapInv.malloc_room_iff hm').mpr hroomy
  obtain ⟨bs₁, fl₁, hi₁, hsub⟩ :=
    hi.malloc (n := size) (hi.toHeapInv.noWrap_of_roomy hroomy hm') hm
  have hkept : ∀ q ∈ w.live.map Prod.fst, getSize h.mem q = getSize w.heap.mem q :=
    fun q hq => hi.getSize_kept hi₁.toHeapInv hsub.subset hq
  have hnew : ∀ q ∈ w.live.map Prod.fst, q ≠ r := by
    rintro q hq rfl
    exact (List.nodup_cons.mp hi₁.live_nodup).1 hq
  have hpr : p ≠ r := hnew p hpl
  -- The copy writes into the physical payload of the new block only.
  have hi₂ := hi₁.write_physical (m := copyBytes h.mem r p (getSize h.mem p)) (p := r) (a := r)
    (n := getSize h.mem p) List.mem_cons_self le_rfl (by dsimp only; rw [hkept p hpl]; omega)
    fun x hx => copyBytes_of_lt hx
  have hkept₂ : ∀ q ∈ r :: w.live.map Prod.fst,
      getSize (copyBytes h.mem r p (getSize h.mem p)) q = getSize h.mem q := by
    intro q hq
    have hsame := hi₁.getSize_kept hi₂.toHeapInv (List.Subset.refl _) hq
    exact hsame
  have hp₂ : (p, n) ∈ (r, size) :: w.live := List.mem_cons_of_mem _ hp
  obtain ⟨b, hi₃⟩ := hi₂.free hp₂
  have hlive : ((r, size) :: w.live).erase (p, n) = (r, size) :: w.live.erase (p, n) :=
    List.erase_cons_tail (by simp [hpr.symm])
  have hi₃' : Inv base
      { heap := Malloc.free { h with mem := copyBytes h.mem r p (getSize h.mem p) } p
        live := (r, size) :: w.live.erase (p, n) } bs₁ (b :: fl₁) := hlive ▸ hi₃
  refine ⟨⟨_, _, hi₃'⟩, ?_⟩
  have hkept₃ : ∀ q ∈ r :: w.live.map Prod.fst,
      getSize (Malloc.free { h with mem := copyBytes h.mem r p (getSize h.mem p) } p).mem q =
        getSize h.mem q := by
    intro q hq
    rw [hi₂.getSize_kept hi₃.toHeapInv (List.Subset.refl _) hq]
    exact hkept₂ q hq
  refine ⟨?_, ?_, ?_, ?_, ?_, ?_⟩
  · exact fun xs hc => hi₃'.unlisted List.mem_cons_self hc
  · rw [hkept₃ r List.mem_cons_self]
    exact hroom
  · intro i hin
    have hbytes : copyBytes h.mem r p (getSize h.mem p) (r + i) = h.mem (p + i) :=
      copyBytes_add (by rw [hkept p hpl]; omega)
    rw [hi₂.free_kept (List.mem_cons_of_mem _ hpl) List.mem_cons_self hpr.symm
      (Nat.le_add_right r i) (by dsimp only; rw [hkept₂ r List.mem_cons_self]; omega)]
    dsimp only
    rw [hbytes]
    exact hi.malloc_kept hm hpl (Nat.le_add_right p i) (by omega)
  · exact fun x hx _ => hnew x.1 (List.mem_map_of_mem (f := Prod.fst) hx)
  · intro x hx _
    have hxl := List.mem_map_of_mem (f := Prod.fst) hx
    rw [hkept₃ x.1 (List.mem_cons_of_mem _ hxl), hkept x.1 hxl]
  · intro x hx hne a hlo hhi
    have hxl := List.mem_map_of_mem (f := Prod.fst) hx
    have hx₁ := hkept x.1 hxl
    have hout := hi₁.apart (p := r) (q := x.1) List.mem_cons_self (List.mem_cons_of_mem _ hxl)
      (hnew x.1 hxl) hlo (by dsimp only; rw [hx₁]; exact hhi)
    dsimp only at hout
    rw [hi₂.free_kept (List.mem_cons_of_mem _ hpl) (List.mem_cons_of_mem _ hxl) hne hlo
      (by dsimp only; rw [hkept₂ x.1 (List.mem_cons_of_mem _ hxl), hx₁]; exact hhi)]
    dsimp only
    rw [copyBytes_of_lt (by rw [hkept p hpl]; omega)]
    exact hi.malloc_kept hm hxl hlo hhi

theorem realloc_resize (hp : p ≠ 0) (hsize : size ≠ 0) : realloc fuel h p size =
    if size ≤ getSize h.mem p then some (p, h)
    else (malloc fuel h size).map fun (alloc, h) =>
      (alloc, Malloc.free { h with mem := copyBytes h.mem alloc p (getSize h.mem p) } p) := by
  rw [realloc, if_neg hp, if_neg hsize]

/-- A call of `realloc` that meets the condition. -/
theorem Inv.realloc (hi : Inv base w bs fl) (hroomed : Roomed w) (hp : (p, n) ∈ w.live)
    (hlt : size < 2 ^ 64) (hg : ReallocRoomy w (.realloc p size))
    (hr : Malloc.realloc fuel w.heap p size = some (r, h)) :
    (∃ bs' fl', Inv base { heap := h, live := (r, size) :: w.live.erase (p, n) } bs' fl') ∧
      Reallocated w p n size r h := by
  obtain ⟨hpos, hsize, hg⟩ := hg
  rw [realloc_resize hpos hsize] at hr
  split_ifs at hr with hle
  · obtain ⟨rfl, rfl⟩ := Prod.mk.inj (Option.some.inj hr)
    have hstays := hi.realloc_stays hp (hg.resolve_right fun h => by omega)
    exact ⟨⟨bs, fl, hstays.1⟩, hstays.2⟩
  · obtain ⟨⟨q, h₁⟩, hm, heq⟩ := Option.map_eq_some_iff.mp hr
    obtain ⟨rfl, rfl⟩ := Prod.mk.inj heq
    obtain ⟨hbig, hroomy⟩ := hg.resolve_left fun h => by omega
    obtain ⟨⟨bs', fl', hi'⟩, hspec⟩ :=
      hi.realloc_moves hp (hroomed _ hp) hbig hlt hroomy hm
    exact ⟨⟨bs', fl', hi'⟩, hspec⟩

/-! ## Runs -/

theorem Roomed.kept (hroomed : Roomed w) (hi : Inv base w bs fl) (hi' : HeapInv base h bs' fl')
    (hsub : bs ⊆ bs') : ∀ x ∈ w.live, x.2 + 8 ≤ getSize h.mem x.1 := by
  intro x hx
  rw [hi.getSize_kept hi' hsub (List.mem_map_of_mem (f := Prod.fst) hx)]
  exact hroomed x hx

/-- What `malloc` hands out under the condition. -/
theorem Inv.malloc_roomed (hi : Inv base w bs fl) (hroomed : Roomed w) (hw : NoWrap size)
    (hroomy : Roomy w.heap size) (hm : Malloc.malloc fuel w.heap size = some (p, h)) :
    ∃ bs' fl', Inv base { heap := h, live := (p, size) :: w.live } bs' fl' ∧
      Roomed { heap := h, live := (p, size) :: w.live } := by
  obtain ⟨bs', fl', hi', hsub⟩ := hi.malloc (n := size) hw hm
  refine ⟨bs', fl', hi', List.forall_mem_cons.mpr ⟨?_, hroomed.kept hi hi'.toHeapInv hsub.subset⟩⟩
  have hm' : Malloc.malloc fuel w.heap (size % 2 ^ 64) = some (p, h) := by rwa [hw.mod_eq]
  exact (hi.toHeapInv.malloc_room_iff hm').mpr hroomy

theorem Inv.step_op {op : Op} (hi : Inv base w bs fl) (hroomed : Roomed w)
    (hg : ReallocRoomy w (.op op)) (hs : Step Physical w op w') :
    ∃ bs' fl', Inv base w' bs' fl' ∧ Roomed w' := by
  cases hs with
  | malloc hw hm => exact hi.malloc_roomed hroomed hw hg hm
  | @calloc num size _ _ _ hw hm =>
    obtain ⟨⟨q, h₁⟩, hm', heq⟩ := Option.map_eq_some_iff.mp hm
    obtain ⟨rfl, rfl⟩ := Prod.mk.inj heq
    rw [hw.mod_eq] at hm' ⊢
    obtain ⟨bs', fl', hi₁, hroomed₁⟩ := hi.malloc_roomed hroomed hw hg hm'
    have hroom := hroomed₁ _ List.mem_cons_self
    dsimp only at hroom
    have hi₂ := hi₁.write_physical (m := fill h₁.mem q 0 (num * size)) (p := q) (a := q)
      (n := num * size) List.mem_cons_self le_rfl (by dsimp only; omega) fun _ ha => fill_of_lt ha
    exact ⟨bs', fl', hi₂, hroomed₁.kept hi₁ hi₂.toHeapInv (List.Subset.refl _)⟩
  | free hp =>
    obtain ⟨b, hi'⟩ := hi.free hp
    refine ⟨_, _, hi', fun x hx => ?_⟩
    exact hroomed.kept hi hi'.toHeapInv (List.Subset.refl _) x (List.mem_of_mem_erase hx)
  | freeNull => exact ⟨bs, fl, by simpa [Malloc.free] using hi, hroomed⟩
  | @store a b hmay =>
    have hi' := hi.store (b := b) hmay
    exact ⟨bs, fl, hi', hroomed.kept hi hi'.toHeapInv (List.Subset.refl _)⟩

theorem Inv.step_realloc {call : Call} (hi : Inv base w bs fl) (hroomed : Roomed w)
    (hs : Guarded ReallocStep ReallocRoomy w call w') :
    ∃ bs' fl', Inv base w' bs' fl' ∧ Roomed w' := by
  obtain ⟨hg, hs⟩ := hs
  cases hs with
  | op h => exact hi.step_op hroomed hg h
  | null hr => exact absurd rfl hg.1
  | zero hp hr => exact absurd rfl hg.2.1
  | resize hp hpos hlt hr =>
    obtain ⟨⟨bs', fl', hi'⟩, hspec⟩ := hi.realloc hroomed hp hlt hg hr
    refine ⟨bs', fl', hi', List.forall_mem_cons.mpr ⟨hspec.room, fun x hx => ?_⟩⟩
    have hxl := List.mem_of_mem_erase hx
    have hne := ((mem_map_fst_erase hi.live_nodup hp).mp
      (List.mem_map_of_mem (f := Prod.fst) hx)).1
    rw [hspec.sizes x hxl hne]
    exact hroomed x hxl

/-- With fuel for the free list, `realloc` fails only where `sbrk` does. -/
theorem HeapInv.realloc_returns (hi : HeapInv base h bs fl)
    (hbrk : h.brk + roundRequest size < 2 ^ 64) (hp : p ≠ 0) (hsize : size ≠ 0) :
    (Malloc.realloc (fl.length + 1) h p size).isSome := by
  rw [realloc_resize hp hsize]
  split_ifs
  · rfl
  · obtain ⟨x, hx⟩ := hi.malloc_returns hbrk
    rw [hx]
    rfl

/-- `malloc` returns no null pointer. -/
theorem HeapInv.malloc_ne_zero (hi : HeapInv base h bs fl) {h' : Heap}
    (hm : Malloc.malloc fuel h size = some (p, h')) : p ≠ 0 := by
  rcases hi.malloc_cases hm with ⟨rfl, -⟩ | ⟨pre, b, post, -, rfl, -⟩
  · omega
  · simp [Block.payload]

end Cs241.Malloc
