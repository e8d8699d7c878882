import Mathlib.Data.List.Nodup
import Mathlib.Tactic.Common

/-!
# Linked lists in memory

`Seg next prev p xs e` says that the nodes `xs` are linked in both directions:
the first one points back to `p`, the last one points on to `e`, and between
two neighbours `next` and `prev` are inverse to each other. The link fields
are arbitrary functions, so the segment can be read from any kind of memory.
`Chain` is the singly linked list that ends at the null pointer.
-/
namespace Cs241.Foundation

section Chain

variable {α : Type*} {link link' : α → Option (Option α)} {p : Option α} {xs : List α}

/-- Following `link` from `p` visits `xs` and then meets the null pointer. -/
def Chain (link : α → Option (Option α)) : Option α → List α → Prop
  | p, [] => p = none
  | p, x :: xs => p = some x ∧ ∃ q, link x = some q ∧ Chain link q xs

theorem Chain.congr (h : Chain link p xs) (hag : ∀ x ∈ xs, link' x = link x) :
    Chain link' p xs := by
  induction xs generalizing p with
  | nil => exact h
  | cons x xs ih =>
    obtain ⟨rfl, q, hq, hrest⟩ := h
    refine ⟨rfl, q, (hag x List.mem_cons_self).trans hq, ih hrest fun y hy => ?_⟩
    exact hag y (List.mem_cons_of_mem _ hy)

theorem Chain.eq_head? (h : Chain link p xs) : p = xs.head? := by
  cases xs with
  | nil => exact h
  | cons x xs => exact h.1

/-- Each node of a chain is there. -/
theorem Chain.link_isSome (h : Chain link p xs) {x : α} (hx : x ∈ xs) : (link x).isSome := by
  induction xs generalizing p with
  | nil => exact absurd hx List.not_mem_nil
  | cons y xs ih =>
    obtain ⟨-, q, hq, hrest⟩ := h
    rcases List.mem_cons.mp hx with rfl | hx
    · simp [hq]
    · exact ih hrest hx

variable {pre post ys : List α} {q : Option α} {z : α}

/-- The node `z` is linked to another chain. -/
theorem Chain.splice (h : Chain link p (pre ++ z :: post)) (hz : link' z = some q)
    (hys : Chain link' q ys) (hag : ∀ x ∈ pre, link' x = link x) :
    Chain link' p (pre ++ z :: ys) := by
  induction pre generalizing p with
  | nil => exact ⟨h.1, q, hz, hys⟩
  | cons x pre ih =>
    obtain ⟨rfl, r, hr, hrest⟩ := h
    refine ⟨rfl, r, (hag x List.mem_cons_self).trans hr, ih hrest fun y hy => ?_⟩
    exact hag y (List.mem_cons_of_mem _ hy)

/-- Two chains that are linked alike in front go on with the same node. -/
theorem Chain.unique {y : α} (h : Chain link p (pre ++ z :: post))
    (h' : Chain link' p (pre ++ y :: ys)) (hag : ∀ x ∈ pre, link' x = link x) : y = z := by
  induction pre generalizing p with
  | nil => exact Option.some.inj (h'.1.symm.trans h.1)
  | cons x pre ih =>
    obtain ⟨-, q, hq, hrest⟩ := h
    obtain ⟨-, q', hq', hrest'⟩ := h'
    rw [hag x List.mem_cons_self, hq] at hq'
    obtain rfl := Option.some.inj hq'
    exact ih hrest hrest' fun y hy => hag y (List.mem_cons_of_mem _ hy)

/-- What follows the node `z`. -/
theorem Chain.after (h : Chain link p (pre ++ z :: post)) :
    ∃ q, link z = some q ∧ Chain link q post := by
  induction pre generalizing p with
  | nil => exact h.2
  | cons x pre ih =>
    obtain ⟨-, q, -, hrest⟩ := h
    exact ih hrest

/-- Linking `a` behind the last node. -/
theorem Chain.snoc {a : α} (h : Chain link p xs) (hnd : xs.Nodup) (hz : xs.getLast? = some z)
    (ha : link' a = some none) (hlast : link' z = some (some a))
    (hag : ∀ x ∈ xs, x ≠ z → link' x = link x) : Chain link' p (xs ++ [a]) := by
  obtain ⟨pre, rfl⟩ := List.getLast?_eq_some_iff.mp hz
  have hpre : z ∉ pre := by
    intro hmem
    exact (List.nodup_append.mp hnd).2.2 z hmem z List.mem_cons_self rfl
  have hend : Chain link' (some a) [a] := ⟨rfl, none, ha, rfl⟩
  rw [List.append_assoc]
  apply h.splice hlast hend
  intro x hx
  exact hag x (List.mem_append_left _ hx) fun heq => hpre (heq ▸ hx)

end Chain

variable {α : Type*} {next prev next' prev' : α → α} {p e : α}

/-- The nodes `xs` form a doubly linked segment between `p` and `e`. -/
def Seg (next prev : α → α) : α → List α → α → Prop
  | _, [], _ => True
  | p, x :: xs, e => prev x = p ∧ next x = xs.headD e ∧ Seg next prev x xs e

@[simp] theorem seg_nil : Seg next prev p [] e := trivial

theorem seg_cons {x : α} {xs : List α} :
    Seg next prev p (x :: xs) e ↔ prev x = p ∧ next x = xs.headD e ∧ Seg next prev x xs e :=
  Iff.rfl

theorem headD_append (xs ys : List α) (e : α) : (xs ++ ys).headD e = xs.headD (ys.headD e) := by
  cases xs <;> rfl

theorem getLastD_mem_of_ne_nil {xs : List α} (h : xs ≠ []) (p : α) : xs.getLastD p ∈ xs := by
  rw [List.getLastD_eq_getLast?, List.getLast?_eq_some_getLast h]
  exact List.getLast_mem h

theorem headD_mem_of_ne_nil {xs : List α} (h : xs ≠ []) (e : α) : xs.headD e ∈ xs := by
  cases xs with
  | nil => exact absurd rfl h
  | cons x xs => exact List.mem_cons_self

theorem seg_append : ∀ {p : α} {xs ys : List α}, Seg next prev p (xs ++ ys) e ↔
    Seg next prev p xs (ys.headD e) ∧ Seg next prev (xs.getLastD p) ys e
  | p, [], ys => by simp
  | p, x :: xs, ys => by
    simp only [List.cons_append, seg_cons, headD_append, @seg_append x xs,
      List.getLastD_cons]
    tauto

theorem Seg.congr : ∀ {p : α} {xs : List α}, Seg next prev p xs e →
    (∀ x ∈ xs, next' x = next x ∧ prev' x = prev x) → Seg next' prev' p xs e
  | _, [], _, _ => trivial
  | _, x :: xs, h, hag => by
    obtain ⟨hp, hn, hs⟩ := h
    have hx := hag x List.mem_cons_self
    exact ⟨hx.2.trans hp, hx.1.trans hn,
      hs.congr fun y hy => hag y (List.mem_cons_of_mem _ hy)⟩

/-- Inside a segment `prev` undoes `next`. -/
theorem Seg.prev_next : ∀ {p x : α} {xs : List α}, Seg next prev p xs e → x ∈ xs →
    next x = e ∨ prev (next x) = x
  | _, _, [], _, hx => absurd hx List.not_mem_nil
  | _, x, y :: ys, ⟨_, hn, hs⟩, hx => by
    rcases List.mem_cons.mp hx with rfl | hx
    · cases ys with
      | nil => exact .inl hn
      | cons z zs => exact .inr (by rw [hn]; exact hs.1)
    · exact hs.prev_next hx

/-- Inside a segment `next` undoes `prev`. -/
theorem Seg.next_prev : ∀ {p x : α} {xs : List α}, Seg next prev p xs e → x ∈ xs →
    (xs.headD e = x ∧ prev x = p) ∨ next (prev x) = x
  | _, _, [], _, hx => absurd hx List.not_mem_nil
  | _, x, y :: ys, ⟨hp, hn, hs⟩, hx => by
    rcases List.mem_cons.mp hx with rfl | hx
    · exact .inl ⟨rfl, hp⟩
    · rcases hs.next_prev hx with ⟨hhead, hprev⟩ | hback
      · exact .inr (by rw [hprev, hn, hhead])
      · exact .inr hback

variable [DecidableEq α]

/-- Redirect the forward pointer of the last node of a segment. -/
theorem Seg.retarget : ∀ {p e' : α} {xs : List α}, Seg next prev p xs e → xs.Nodup → p ∉ xs →
    (∀ x ∈ xs, next' x = if x = xs.getLastD p then e' else next x) →
    (∀ x ∈ xs, prev' x = prev x) → Seg next' prev' p xs e'
  | _, _, [], _, _, _, _, _ => trivial
  | p, e', x :: xs, h, hnd, hp, hn, hv => by
    obtain ⟨hback, hfwd, hs⟩ := h
    obtain ⟨hx, hnd⟩ := List.nodup_cons.mp hnd
    rw [List.getLastD_cons] at hn
    have hs' : Seg next' prev' x xs e' := hs.retarget hnd hx
      (fun y hy => hn y (List.mem_cons_of_mem _ hy)) fun y hy => hv y (List.mem_cons_of_mem _ hy)
    refine ⟨(hv x List.mem_cons_self).trans hback, ?_, hs'⟩
    rw [hn x List.mem_cons_self]
    cases xs with
    | nil => simp
    | cons y ys =>
      have hlast : x ≠ (y :: ys).getLastD x :=
        fun heq => hx (heq ▸ getLastD_mem_of_ne_nil (List.cons_ne_nil y ys) x)
      rw [if_neg hlast, hfwd]
      rfl

/-- Redirect the backward pointer of the first node of a segment. -/
theorem Seg.resource {q : α} : ∀ {p : α} {xs : List α}, Seg next prev p xs e → xs.Nodup →
    (∀ x ∈ xs, next' x = next x) →
    (∀ x ∈ xs, prev' x = if x = xs.headD e then q else prev x) → Seg next' prev' q xs e
  | _, [], _, _, _, _ => trivial
  | p, x :: xs, h, hnd, hn, hv => by
    obtain ⟨_, hfwd, hs⟩ := h
    obtain ⟨hx, hnd⟩ := List.nodup_cons.mp hnd
    refine ⟨by simpa using hv x List.mem_cons_self, (hn x List.mem_cons_self).trans hfwd, ?_⟩
    apply hs.congr
    intro y hy
    have hyx : y ≠ x := fun heq => hx (heq ▸ hy)
    have hy' := hv y (List.mem_cons_of_mem _ hy)
    rw [List.headD_cons, if_neg hyx] at hy'
    exact ⟨hn y (List.mem_cons_of_mem _ hy), hy'⟩

/-- Taking `x` out: its neighbours are linked to each other, all other pointers stay. -/
theorem Seg.unlink {pre post : List α} {x : α} (h : Seg next prev p (pre ++ x :: post) e)
    (hnd : (pre ++ x :: post).Nodup) (hp : p ∉ pre ++ post) (he : e ∉ pre ++ post)
    (hn : ∀ y ∈ pre ++ post, next' y = if y = pre.getLastD p then post.headD e else next y)
    (hv : ∀ y ∈ pre ++ post, prev' y = if y = post.headD e then pre.getLastD p else prev y) :
    Seg next' prev' p (pre ++ post) e := by
  obtain ⟨hpre, -, -, hpost⟩ := seg_append.mp h
  have hnd' : (pre ++ post).Nodup := hnd.sublist (by simp)
  obtain ⟨hndpre, hndpost, hdisj⟩ := List.nodup_append.mp hnd'
  simp only [List.mem_append, not_or] at hp he hn hv
  have hlast : ∀ y ∈ post, y ≠ pre.getLastD p := by
    intro y hy heq
    cases hpre : pre with
    | nil =>
      rw [heq, hpre] at hy
      exact hp.2 hy
    | cons z zs =>
      have hmem := getLastD_mem_of_ne_nil (hpre ▸ List.cons_ne_nil z zs : pre ≠ []) p
      exact hdisj _ hmem y hy heq.symm
  have hhead : ∀ y ∈ pre, y ≠ post.headD e := by
    intro y hy heq
    cases hpost : post with
    | nil =>
      rw [heq, hpost] at hy
      exact he.1 hy
    | cons z zs =>
      have hmem := headD_mem_of_ne_nil (hpost ▸ List.cons_ne_nil z zs : post ≠ []) e
      exact hdisj y hy _ hmem heq
  rw [seg_append]
  constructor
  · apply hpre.retarget hndpre hp.1 fun y hy => hn y (.inl hy)
    intro y hy
    rw [hv y (.inl hy), if_neg (hhead y hy)]
  · apply hpost.resource hndpost _ fun y hy => hv y (.inr hy)
    intro y hy
    rw [hn y (.inr hy), if_neg (hlast y hy)]

/-- Putting `x` in front of a segment. -/
theorem Seg.push {xs : List α} {x : α} (h : Seg next prev p xs e) (hnd : xs.Nodup)
    (hpx : prev' x = p) (hnx : next' x = xs.headD e) (hn : ∀ y ∈ xs, next' y = next y)
    (hv : ∀ y ∈ xs, prev' y = if y = xs.headD e then x else prev y) :
    Seg next' prev' p (x :: xs) e :=
  ⟨hpx, hnx, h.resource hnd hn hv⟩

end Cs241.Foundation
