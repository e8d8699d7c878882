import Cs241.Foundation.LinkedList
import Cs241.Malloc.Alloc

/-!
# The free list in memory

`NodeList` collects what the code relies on about the addresses of list nodes.
Each of `remove_node`, the search of `malloc` and the insertion of `free` gets
one specification over it: which nodes are linked afterwards, and which bytes
may have changed.
-/
namespace Cs241.Malloc

open Foundation

/-- Node addresses are distinct, not `NULL`, 64-bit, and their bytes do not overlap. -/
structure NodeList (nodes : List ℕ) : Prop where
  nodup : nodes.Nodup
  pos : ∀ x ∈ nodes, x ≠ 0
  lt : ∀ x ∈ nodes, x < 2 ^ 64
  sep : ∀ x ∈ nodes, ∀ y ∈ nodes, NodeSep x y

/-- The nodes `xs` are exactly the doubly linked list that starts at `head`. -/
structure ListAt (h : Heap) (xs : List ℕ) : Prop where
  nodes : NodeList xs
  links : Seg (nodeNext h.mem) (nodePrev h.mem) 0 xs 0
  head : h.head = xs.headD 0

/-- The bytes of no node of `xs` are at `a`. -/
def Outside (xs : List ℕ) (a : ℕ) : Prop := ∀ x ∈ xs, a < x ∨ x + 24 ≤ a

theorem NodeList.getLastD_cases (xs : List ℕ) (h : ∀ x ∈ xs, x ≠ 0) :
    (xs = [] ∧ xs.getLastD 0 = 0) ∨ (xs.getLastD 0 ∈ xs ∧ xs.getLastD 0 ≠ 0) := by
  cases xs with
  | nil => exact .inl ⟨rfl, rfl⟩
  | cons x xs =>
    have hmem := getLastD_mem_of_ne_nil (List.cons_ne_nil x xs) 0
    exact .inr ⟨hmem, h _ hmem⟩

theorem NodeList.headD_cases (xs : List ℕ) (h : ∀ x ∈ xs, x ≠ 0) :
    (xs = [] ∧ xs.headD 0 = 0) ∨ (xs.headD 0 ∈ xs ∧ xs.headD 0 ≠ 0) := by
  cases xs with
  | nil => exact .inl ⟨rfl, rfl⟩
  | cons x xs =>
    have hmem := headD_mem_of_ne_nil (List.cons_ne_nil x xs) 0
    exact .inr ⟨hmem, h _ hmem⟩

/-! ## `remove_node` -/

/-- Memory after `remove_node` took out `x`, whose neighbours are `q` and `r`. -/
def unlinked (m : Mem) (q r x : ℕ) : Mem :=
  let m :=
    if q ≠ 0 ∧ r ≠ 0 then setField (setField m q 8 r) r 16 q
    else if q ≠ 0 then setField m q 8 0
    else if r ≠ 0 then setField (setField m r 16 0) x 8 0
    else m
  setField m x 0 (nodeSize m x - 8)

section Unlink

variable {m : Mem} {nodes : List ℕ} {q r x y : ℕ}

/-- The fields of the remaining nodes: only the two pointers to `x` are redirected. -/
theorem field_unlinked (hn : NodeList nodes) (hx : x ∈ nodes) (hq : q = 0 ∨ q ∈ nodes)
    (hr : r = 0 ∨ r ∈ nodes) (hy : y ∈ nodes) (hyx : y ≠ x) {j : ℕ} (hj : j = 0 ∨ j = 8 ∨ j = 16) :
    field (unlinked m q r x) y j =
      if y = q ∧ j = 8 then r else if y = r ∧ j = 16 then q else field m y j := by
  have hy0 := hn.pos y hy
  have hqlt : q < 2 ^ 64 := by rcases hq with rfl | hq; exacts [by norm_num, hn.lt q hq]
  have hrlt : r < 2 ^ 64 := by rcases hr with rfl | hr; exacts [by norm_num, hn.lt r hr]
  unfold unlinked
  dsimp only
  have hlast : ∀ m' : Mem, field (setField m' x 0 (nodeSize m' x - 8)) y j = field m' y j := by
    intro m'
    rw [field_setField (hn.sep x hx y hy) ((Nat.sub_le _ _).trans_lt (field_lt _ _ _)) hj
      (.inl rfl), if_neg (fun h => hyx h.1)]
  rw [hlast]
  by_cases hq0 : q = 0
  · by_cases hr0 : r = 0
    · simp [hq0, hr0, hy0]
    · have hrmem := hr.resolve_left hr0
      rw [if_neg (fun h => h.1 hq0), if_neg (fun h => h hq0), if_pos hr0,
        field_setField (hn.sep x hx y hy) (by norm_num) hj (.inr (.inl rfl)),
        if_neg (fun h => hyx h.1),
        field_setField (hn.sep r hrmem y hy) (by norm_num) hj (.inr (.inr rfl)), hq0]
      simp [hy0]
  · have hqmem := hq.resolve_left hq0
    by_cases hr0 : r = 0
    · rw [if_neg (fun h => h.2 hr0), if_pos hq0,
        field_setField (hn.sep q hqmem y hy) (by norm_num) hj (.inr (.inl rfl)), hr0]
      simp [hy0]
    · have hrmem := hr.resolve_left hr0
      rw [if_pos ⟨hq0, hr0⟩,
        field_setField (hn.sep r hrmem y hy) hqlt hj (.inr (.inr rfl)),
        field_setField (hn.sep q hqmem y hy) hrlt hj (.inr (.inl rfl))]
      by_cases h8 : j = 8
      · simp [h8]
      · simp [h8]

/-- The `size` pointer of the node taken out is stepped back to the header. -/
theorem nodeSize_unlinked (hn : NodeList nodes) (hx : x ∈ nodes) (hq : q = 0 ∨ q ∈ nodes)
    (hr : r = 0 ∨ r ∈ nodes) :
    nodeSize (unlinked m q r x) x = nodeSize m x - 8 := by
  have hqlt : q < 2 ^ 64 := by rcases hq with rfl | hq; exacts [by norm_num, hn.lt q hq]
  have hrlt : r < 2 ^ 64 := by rcases hr with rfl | hr; exacts [by norm_num, hn.lt r hr]
  have hother : ∀ m' : Mem, ∀ z ∈ nodes, ∀ k v, k = 8 ∨ k = 16 → v < 2 ^ 64 →
      field (setField m' z k v) x 0 = field m' x 0 := by
    intro m' z hz k v hk hv
    rw [field_setField (hn.sep z hz x hx) hv (.inl rfl) (.inr hk),
      if_neg (fun h => by omega)]
  unfold unlinked
  change field (setField _ x 0 (field _ x 0 - 8)) x 0 = field m x 0 - 8
  rw [field_setField (.inl rfl) ((Nat.sub_le _ _).trans_lt (field_lt _ _ _)) (.inl rfl) (.inl rfl),
    if_pos ⟨rfl, rfl⟩]
  apply congrArg (· - 8)
  split_ifs with h₁ h₂ h₃
  · rw [hother _ r (hr.resolve_left h₁.2) 16 q (.inr rfl) hqlt,
      hother _ q (hq.resolve_left h₁.1) 8 r (.inl rfl) hrlt]
  · exact hother _ q (hq.resolve_left h₂) 8 0 (.inl rfl) (by norm_num)
  · rw [hother _ x hx 8 0 (.inl rfl) (by norm_num),
      hother _ r (hr.resolve_left h₃) 16 0 (.inr rfl) (by norm_num)]
  · rfl

/-- Unlinking touches no byte outside the nodes of the list. -/
theorem unlinked_outside (hx : x ∈ nodes) (hq : q = 0 ∨ q ∈ nodes) (hr : r = 0 ∨ r ∈ nodes)
    {a : ℕ} (ha : Outside nodes a) : unlinked m q r x a = m a := by
  unfold unlinked
  rw [setField_of_lt (.inl rfl) (ha x hx)]
  split_ifs with h₁ h₂ h₃
  · rw [setField_of_lt (by simp) (ha r (hr.resolve_left h₁.2)),
      setField_of_lt (by simp) (ha q (hq.resolve_left h₁.1))]
  · rw [setField_of_lt (by simp) (ha q (hq.resolve_left h₂))]
  · rw [setField_of_lt (by simp) (ha x hx), setField_of_lt (by simp) (ha r (hr.resolve_left h₃))]
  · rfl

end Unlink

/-- `remove_node` in terms of the two neighbours it reads. -/
theorem removeNode_eq {h : Heap} {x q r : ℕ} (hx : x ≠ 0) (hxq : q = 0 ∨ NodeSep q x)
    (hne : q ≠ x) (hq : nodePrev h.mem x = q) (hr : nodeNext h.mem x = r) :
    removeNode h x =
      { h with head := if q = 0 then r else h.head, mem := unlinked h.mem q r x } := by
  have hrlt : r < 2 ^ 64 := hr ▸ field_lt _ _ _
  unfold removeNode unlinked
  rw [if_neg hx]
  by_cases hq0 : q = 0
  · by_cases hr0 : r = 0
    · simp [hq, hr, hq0, hr0]
    · simp [hq, hr, hq0, hr0]
  · have hsep := hxq.resolve_left hq0
    have hnext : field (setField h.mem q 8 r) x 8 = r := by
      rw [field_setField hsep hrlt (by simp) (by simp), if_neg (fun h => hne h.1.symm)]
      exact hr
    have hprev : field (setField h.mem q 8 r) x 16 = q := by
      rw [field_setField hsep hrlt (by simp) (by simp), if_neg (fun h => hne h.1.symm)]
      exact hq
    by_cases hr0 : r = 0
    · simp [hq, hr, hq0, hr0]
    · simp [hq, hr, hq0, hr0, hnext, hprev]

/-- What `remove_node` does to a list: `x` is gone, the rest is linked as before. -/
theorem removeNode_spec {h : Heap} {pre post : List ℕ} {x : ℕ}
    (hl : ListAt h (pre ++ x :: post)) :
    ListAt (removeNode h x) (pre ++ post) ∧ (removeNode h x).brk = h.brk ∧
      nodeSize (removeNode h x).mem x = nodeSize h.mem x - 8 ∧
      (∀ y ∈ pre ++ post, nodeSize (removeNode h x).mem y = nodeSize h.mem y) ∧
      ∀ a, Outside (pre ++ x :: post) a → (removeNode h x).mem a = h.mem a := by
  obtain ⟨hn, hs, hh⟩ := hl
  have hx : x ∈ pre ++ x :: post := by simp
  have hsub : ∀ y ∈ pre ++ post, y ∈ pre ++ x :: post := List.Sublist.subset (by simp)
  obtain ⟨-, hprev, hnext, -⟩ := seg_append.mp hs
  have hpre := NodeList.getLastD_cases pre fun y hy => hn.pos y (hsub y (by simp [hy]))
  have hpost := NodeList.headD_cases post fun y hy => hn.pos y (hsub y (by simp [hy]))
  have hnd := List.nodup_append.mp hn.nodup
  have hxpre : x ∉ pre := fun hm => hnd.2.2 x hm x (by simp) rfl
  have hxpost : x ∉ post := (List.nodup_cons.mp hnd.2.1).1
  have hyx : ∀ y ∈ pre ++ post, y ≠ x := by
    rintro y hy rfl
    rcases List.mem_append.mp hy with hy | hy
    exacts [hxpre hy, hxpost hy]
  generalize hqe : pre.getLastD 0 = q at *
  generalize hre : post.headD 0 = r at *
  have hqmem : q = 0 ∨ q ∈ pre ++ x :: post := by
    rcases hpre with h | h
    exacts [.inl h.2, .inr (hsub q (by simp [h.1]))]
  have hrmem : r = 0 ∨ r ∈ pre ++ x :: post := by
    rcases hpost with h | h
    exacts [.inl h.2, .inr (hsub r (by simp [h.1]))]
  have hqx : q ≠ x := by
    rcases hpre with h | h
    · rw [h.2]
      exact (hn.pos x hx).symm
    · exact fun he => hxpre (he ▸ h.1)
  rw [removeNode_eq (hn.pos x hx) (hqmem.imp id fun hm => hn.sep q hm x hx) hqx hprev hnext]
  have hfield : ∀ y ∈ pre ++ post, ∀ j, j = 0 ∨ j = 8 ∨ j = 16 →
      field (unlinked h.mem q r x) y j =
        if y = q ∧ j = 8 then r else if y = r ∧ j = 16 then q else field h.mem y j :=
    fun y hy j hj => field_unlinked hn hx hqmem hrmem (hsub y hy) (hyx y hy) hj
  refine ⟨⟨⟨?_, ?_, ?_, ?_⟩, ?_, ?_⟩, rfl, nodeSize_unlinked hn hx hqmem hrmem, ?_, ?_⟩
  · exact hn.nodup.sublist (by simp)
  · exact fun y hy => hn.pos y (hsub y hy)
  · exact fun y hy => hn.lt y (hsub y hy)
  · exact fun y hy z hz => hn.sep y (hsub y hy) z (hsub z hz)
  · have hnull : 0 ∉ pre ++ post := fun hm => hn.pos 0 (hsub 0 hm) rfl
    apply hs.unlink hn.nodup hnull hnull
    · intro y hy
      rw [hqe, hre]
      simp [hfield y hy 8 (by simp)]
    · intro y hy
      rw [hqe, hre]
      simp [hfield y hy 16 (by simp)]
  · rw [headD_append, hre]
    rcases hpre with ⟨rfl, hq⟩ | ⟨hmem, hq⟩
    · simp [hq]
    · have hne : pre ≠ [] := List.ne_nil_of_mem hmem
      rw [if_neg hq, hh, headD_append]
      cases pre with
      | nil => exact absurd rfl hne
      | cons z zs => rfl
  · intro y hy
    simp [hfield y hy 0 (by simp)]
  · exact fun a ha => unlinked_outside hx hqmem hrmem ha

/-! ## The search of `malloc` -/

/-- The search runs to `NULL` past nodes that all fail, or stops at the first that passes. -/
theorem findNode_spec {m : Mem} {space : ℕ} : ∀ {p : ℕ} {xs : List ℕ} {fuel r : ℕ},
    Seg (nodeNext m) (nodePrev m) p xs 0 → (∀ x ∈ xs, x ≠ 0) →
    findNode m space fuel (xs.headD 0) = some r →
      (r = 0 ∧ ∀ x ∈ xs, fitWord m x < space) ∨
      ∃ pre post, xs = pre ++ r :: post ∧ space ≤ fitWord m r ∧ ∀ y ∈ pre, fitWord m y < space
  | _, _, 0, _, _, _, h => by simp [findNode] at h
  | _, [], fuel + 1, r, _, _, h => by
    left
    simpa [findNode, eq_comm] using h
  | _, x :: xs, fuel + 1, r, hs, hx, h => by
    have hx0 := hx x List.mem_cons_self
    rw [List.headD_cons, findNode, if_neg hx0] at h
    split_ifs at h with hfit
    · right
      obtain rfl : x = r := Option.some.inj h
      exact ⟨[], xs, rfl, hfit, by simp⟩
    · obtain ⟨-, hnext, hs⟩ := hs
      rw [hnext] at h
      have hlt : fitWord m x < space := not_le.mp hfit
      rcases findNode_spec hs (fun y hy => hx y (List.mem_cons_of_mem _ hy)) h with
        ⟨hr, hall⟩ | ⟨pre, post, heq, hr, hall⟩
      · exact .inl ⟨hr, List.forall_mem_cons.mpr ⟨hlt, hall⟩⟩
      · exact .inr ⟨x :: pre, post, by rw [heq]; rfl, hr, List.forall_mem_cons.mpr ⟨hlt, hall⟩⟩

/-- On a well-linked list the search ends within one round a node. -/
theorem findNode_isSome {m : Mem} {space : ℕ} : ∀ {p : ℕ} {xs : List ℕ} {fuel : ℕ},
    Seg (nodeNext m) (nodePrev m) p xs 0 → xs.length < fuel →
      (findNode m space fuel (xs.headD 0)).isSome
  | _, _, 0, _, hf => absurd hf (by omega)
  | _, [], _ + 1, _, _ => by simp [findNode]
  | _, x :: xs, fuel + 1, ⟨_, hnext, hs⟩, hf => by
    rw [List.headD_cons, findNode]
    split_ifs with h₁ h₂
    · rfl
    · rfl
    · rw [hnext]
      exact findNode_isSome hs (by simpa using hf)

theorem chain_of_seg {m : Mem} : ∀ {p : ℕ} {xs : List ℕ}, Seg (nodeNext m) (nodePrev m) p xs 0 →
    (∀ x ∈ xs, x ≠ 0) → Chain m (xs.headD 0) xs
  | _, [], _, _ => rfl
  | _, x :: xs, ⟨_, hn, hs⟩, hx => by
    refine ⟨rfl, hx x List.mem_cons_self, ?_⟩
    rw [hn]
    exact chain_of_seg hs fun y hy => hx y (List.mem_cons_of_mem _ hy)

/-- The loop visits one list of nodes only. -/
theorem Chain.unique {m : Mem} : ∀ {a : ℕ} {xs ys : List ℕ}, Chain m a xs → Chain m a ys → xs = ys
  | _, [], [], _, _ => rfl
  | _, [], _ :: _, h, ⟨h', h0, _⟩ => absurd (h'.symm.trans h) h0
  | _, _ :: _, [], ⟨h', h0, _⟩, h => absurd (h'.symm.trans h) h0
  | _, x :: xs, y :: ys, ⟨hx, _, hxs⟩, ⟨hy, _, hys⟩ => by
    obtain rfl : x = y := hx.symm.trans hy
    rw [hxs.unique hys]

/-! ## The insertion of `free` -/

/-- Memory after `free` has filled the node `t` of the block at `ptr`, which goes before the node
`head`. -/
def inserted (m : Mem) (ptr t head : ℕ) : Mem :=
  let m := setField m t 0 (getSizePtr ptr)
  let m := setField m t 0 (nodeSize m t + 8)
  setField (setField m t 16 0) t 8 head

section Insert

variable {m : Mem} {xs : List ℕ} {ptr t head : ℕ}

/-- The two writes through `this->size` amount to one, of the payload's address. -/
theorem field_inserted (hn : NodeList (t :: xs)) (hptr : 8 ≤ ptr) (hlt : ptr < 2 ^ 64)
    (hhead : head < 2 ^ 64) {y j : ℕ} (hy : y ∈ t :: xs) (hj : j = 0 ∨ j = 8 ∨ j = 16) :
    field (inserted m ptr t head) y j =
      if y = t then (if j = 0 then ptr else if j = 8 then head else 0) else field m y j := by
  have hsep : NodeSep t y := hn.sep t List.mem_cons_self y hy
  have hstep : nodeSize (setField m t 0 (getSizePtr ptr)) t + 8 = ptr := by
    change field (setField m t 0 (ptr - 8)) t 0 + 8 = ptr
    rw [field_setField (.inl rfl) (by omega) (.inl rfl) (.inl rfl), if_pos ⟨rfl, rfl⟩]
    omega
  unfold inserted
  dsimp only
  rw [hstep, field_setField hsep hhead hj (by simp), field_setField hsep (by norm_num) hj (by simp),
    field_setField hsep hlt hj (.inl rfl), getSizePtr,
    field_setField hsep (by omega) hj (.inl rfl)]
  by_cases hyt : y = t
  · rcases hj with rfl | rfl | rfl <;> simp [hyt]
  · simp [hyt]

theorem inserted_outside {a : ℕ} (ha : Outside (t :: xs) a) : inserted m ptr t head a = m a := by
  have hat := ha t List.mem_cons_self
  unfold inserted
  rw [setField_of_lt (by simp) hat, setField_of_lt (by simp) hat, setField_of_lt (.inl rfl) hat,
    setField_of_lt (.inl rfl) hat]

/-- Both branches fill the new node in the same way; the second one also relinks the old head. -/
theorem free_eq {h : Heap} (hptr : 8 ≤ ptr) (ht : (ptr - 8 + getSize h.mem ptr) - 24 = t) :
    free h ptr = if h.head = 0 then
        { h with mem := inserted h.mem ptr t h.head, head := t, tail := t }
      else { h with mem := setField (inserted h.mem ptr t h.head) h.head 16 t, head := t } := by
  unfold free inserted
  rw [if_neg (by omega)]
  dsimp only
  rw [ht]
  split_ifs with hz
  · rw [hz]
  · rfl

end Insert

/-- `free` puts the node of the freed block in front of the list. -/
theorem free_spec {h : Heap} {xs : List ℕ} {ptr t : ℕ} (hl : ListAt h xs)
    (hn : NodeList (t :: xs)) (hptr : 8 ≤ ptr) (hlt : ptr < 2 ^ 64)
    (ht : (ptr - 8 + getSize h.mem ptr) - 24 = t) :
    ListAt (free h ptr) (t :: xs) ∧ (free h ptr).brk = h.brk ∧
      nodeSize (free h ptr).mem t = ptr ∧
      (∀ y ∈ xs, nodeSize (free h ptr).mem y = nodeSize h.mem y) ∧
      ∀ a, Outside (t :: xs) a → (free h ptr).mem a = h.mem a := by
  obtain ⟨hnxs, hs, hh⟩ := hl
  have hcases := NodeList.headD_cases xs hnxs.pos
  rw [← hh] at hcases
  have htmem : t ∈ t :: xs := List.mem_cons_self
  have htxs : t ∉ xs := (List.nodup_cons.mp hn.nodup).1
  have hyt : ∀ y ∈ xs, y ≠ t := fun y hy he => htxs (he ▸ hy)
  have hheadlt : h.head < 2 ^ 64 := by
    rcases hcases with ⟨-, hz⟩ | ⟨hmem, -⟩
    · rw [hz]; norm_num
    · exact hnxs.lt _ hmem
  have hfield : ∀ y ∈ t :: xs, ∀ j, j = 0 ∨ j = 8 ∨ j = 16 →
      field (inserted h.mem ptr t h.head) y j =
        if y = t then (if j = 0 then ptr else if j = 8 then h.head else 0)
          else field h.mem y j :=
    fun y hy j hj => field_inserted hn hptr hlt hheadlt hy hj
  have hout : ∀ a, Outside (t :: xs) a → inserted h.mem ptr t h.head a = h.mem a :=
    fun a ha => inserted_outside ha
  rw [free_eq hptr ht]
  rcases hcases with ⟨rfl, hz⟩ | ⟨hhead, hz⟩
  · rw [if_pos hz]
    refine ⟨⟨hn, ⟨?_, ?_, trivial⟩, rfl⟩, rfl, ?_, by simp, hout⟩
    · simp [hfield t htmem 16 (by simp)]
    · exact (hfield t htmem 8 (by simp)).trans (by simp [hz])
    · simp [hfield t htmem 0 (by simp)]
  · rw [if_neg hz]
    have hheadt : t ≠ h.head := fun he => htxs (he ▸ hhead)
    have hrelinked : ∀ y ∈ t :: xs, ∀ j, j = 0 ∨ j = 8 ∨ j = 16 →
        field (setField (inserted h.mem ptr t h.head) h.head 16 t) y j =
          if y = h.head ∧ j = 16 then t else field (inserted h.mem ptr t h.head) y j := by
      intro y hy j hj
      exact field_setField (hn.sep _ (List.mem_cons_of_mem _ hhead) y hy) (hn.lt t htmem) hj
        (by simp)
    refine ⟨⟨hn, ?_, rfl⟩, rfl, ?_, ?_, ?_⟩
    · apply hs.push hnxs.nodup
      · simp [hrelinked t htmem 16 (by simp), hfield t htmem 16 (by simp), hheadt]
      · rw [← hh]
        simp [hrelinked t htmem 8 (by simp), hfield t htmem 8 (by simp)]
      · intro y hy
        have hy' := List.mem_cons_of_mem t hy
        simp [hrelinked y hy' 8 (by simp), hfield y hy' 8 (by simp), hyt y hy]
      · intro y hy
        have hy' := List.mem_cons_of_mem t hy
        rw [← hh]
        simp [hrelinked y hy' 16 (by simp), hfield y hy' 16 (by simp), hyt y hy]
    · simp [hrelinked t htmem 0 (by simp), hfield t htmem 0 (by simp)]
    · intro y hy
      have hy' := List.mem_cons_of_mem t hy
      simp [hrelinked y hy' 0 (by simp), hfield y hy' 0 (by simp), hyt y hy]
    · intro a ha
      dsimp only
      rw [setField_of_lt (by simp) (ha _ (List.mem_cons_of_mem _ hhead))]
      exact hout a ha

end Cs241.Malloc
