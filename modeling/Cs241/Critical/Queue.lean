import Mathlib.Algebra.Order.Ring.Int
import Cs241.Foundation.LinkedList
import Cs241.Foundation.Monitor

/-!
# The queue of `critical_concurrency/queue.c`

The queue is a singly linked list with a head and a tail pointer, a size and a
largest size, under one mutex with one condition variable. Memory holds the
nodes; `malloc` answers with the address of no node.
-/
namespace Cs241.Critical

open Foundation Foundation.Monitor

structure QueueNode (A V : Type*) where
  data : V
  next : Option A

structure Queue (A V : Type*) where
  head : Option A
  tail : Option A
  size : ℤ
  maxSize : ℤ
  nodes : A → Option (QueueNode A V)

inductive QueueCall (V : Type*)
  | push (data : V)
  | pull

variable {A V : Type*}

def queueCreate (maxSize : ℤ) : Queue A V :=
  { head := none, tail := none, size := 0, maxSize := maxSize, nodes := fun _ => none }

variable [DecidableEq A]

/-- `queue_push` after its wait, where `malloc` returned `node`; `none` if it faults. -/
def Queue.append (q : Queue A V) (data : V) (node : A) : Option (Queue A V) :=
  let nodes := Function.update q.nodes node (some { data := data, next := none })
  if q.size = 0 then
    some { q with nodes := nodes, tail := some node, head := some node, size := q.size + 1 }
  else
    q.tail.bind fun tail => (nodes tail).map fun last =>
      { q with nodes := Function.update nodes tail (some { last with next := some node })
               tail := some node, size := q.size + 1 }

/-- A stretch of `queue_push`. -/
def queuePush (q : Queue A V) (data : V) (node : A) : Option (Stretch (Queue A V) (Option V)) :=
  if 0 < q.maxSize ∧ q.maxSize ≤ q.size then some (.wait q)
  else if (q.nodes node).isSome then none
  else (q.append data node).map fun q => .leave q none .every

/-- `queue_pull` after its wait; `none` if it faults. -/
def Queue.remove (q : Queue A V) : Option (Queue A V × V) :=
  q.head.bind fun node => (q.nodes node).map fun first =>
    let nodes := Function.update q.nodes node none
    if q.size = 1 then
      ({ q with tail := none, head := none, nodes := nodes, size := q.size - 1 }, first.data)
    else
      ({ q with head := first.next, nodes := nodes, size := q.size - 1 }, first.data)

/-- A stretch of `queue_pull`. -/
def queuePull (q : Queue A V) : Option (Stretch (Queue A V) (Option V)) :=
  if q.size ≤ 0 then some (.wait q)
  else q.remove.map fun (q, data) => .leave q (some data) .every

/-- Both calls test again after a wait, so that every stretch starts at the test. -/
def queueStretch (q : Queue A V) (c : QueueCall V) (node : A) :
    Option (Stretch (Queue A V) (Option V)) :=
  match c with
  | .push data => queuePush q data node
  | .pull => queuePull q

def queueMonitor : Monitor (Queue A V) (QueueCall V) (Option V) A :=
  { enter := queueStretch, resume := queueStretch }

/-- The states of a queue and its threads. -/
abbrev QueueWorld (T A V : Type*) := World T (Queue A V) (QueueCall V) (Option V)

def Event.pushed {T : Type*} : Event T (QueueCall V) (Option V) → Option V
  | .returned _ (.push data) _ => some data
  | _ => none

def Event.pulled {T : Type*} : Event T (QueueCall V) (Option V) → Option V
  | .returned _ .pull r => r
  | _ => none

/-- The values pushed so far, in the order in which they were linked in. -/
def pushed {T : Type*} (log : List (Event T (QueueCall V) (Option V))) : List V :=
  log.filterMap Event.pushed

/-- The values pulled so far, in the order in which they were unlinked. -/
def pulled {T : Type*} (log : List (Event T (QueueCall V) (Option V))) : List V :=
  log.filterMap Event.pulled

section Log

variable {T : Type*} {log : List (Event T (QueueCall V) (Option V))} {t : T} {c : QueueCall V}
  {data : V} {r : Option V}

theorem pushed_called : pushed (log ++ [.called t c]) = pushed log := by
  simp [pushed, Event.pushed]

theorem pulled_called : pulled (log ++ [.called t c]) = pulled log := by
  simp [pulled, List.filterMap_cons, Event.pulled]

theorem pushed_push : pushed (log ++ [.returned t (.push data) r]) = pushed log ++ [data] := by
  simp [pushed, Event.pushed]

theorem pulled_push : pulled (log ++ [.returned t (.push data) r]) = pulled log := by
  simp [pulled, List.filterMap_cons, Event.pulled]

theorem pushed_pull : pushed (log ++ [.returned t .pull r]) = pushed log := by
  simp [pushed, List.filterMap_cons, Event.pushed]

theorem pulled_pull :
    pulled (log ++ [.returned t .pull (some data)]) = pulled log ++ [data] := by
  simp [pulled, Event.pulled]

end Log

/-! ## The linked list -/

def Queue.link (q : Queue A V) (a : A) : Option (Option A) := (q.nodes a).map QueueNode.next

/-- The values in the nodes `xs`. -/
def Queue.contents (q : Queue A V) (xs : List A) : List V :=
  xs.filterMap fun a => (q.nodes a).map QueueNode.data

/-- The chain from the head is `xs`: as many nodes as the size says, the last one at the tail. -/
structure Queue.Linked (q : Queue A V) (xs : List A) : Prop where
  chain : Chain q.link q.head xs
  nodup : xs.Nodup
  size : q.size = xs.length
  tail : q.tail = xs.getLast?

section

omit [DecidableEq A]

theorem queueCreate_linked (maxSize : ℤ) : (queueCreate maxSize : Queue A V).Linked [] :=
  ⟨rfl, List.nodup_nil, rfl, rfl⟩

theorem contents_congr {q q' : Queue A V} {xs : List A} (h : ∀ a ∈ xs, q'.nodes a = q.nodes a) :
    q'.contents xs = q.contents xs :=
  List.filterMap_congr fun a ha => by rw [h a ha]

theorem Queue.Linked.isSome {q : Queue A V} {xs : List A} (h : q.Linked xs) {a : A} (ha : a ∈ xs) :
    (q.nodes a).isSome := by
  simpa [Queue.link] using h.chain.link_isSome ha

end

theorem append_empty {q : Queue A V} (hsize : q.size = 0) (data : V) (node : A) :
    q.append data node = some
      { q with nodes := Function.update q.nodes node (some { data := data, next := none })
               tail := some node, head := some node, size := q.size + 1 } :=
  if_pos hsize

theorem append_nonempty {q : Queue A V} {tail : A} {last : QueueNode A V} (hsize : q.size ≠ 0)
    (htail : q.tail = some tail) (hlast : q.nodes tail = some last) (data : V) {node : A}
    (hne : tail ≠ node) :
    q.append data node = some
      { q with nodes := Function.update
                 (Function.update q.nodes node (some { data := data, next := none })) tail
                 (some { last with next := some node })
               tail := some node, size := q.size + 1 } := by
  simp [Queue.append, hsize, htail, hne, hlast]

theorem Queue.Linked.append {q : Queue A V} {xs : List A} {node : A} (h : q.Linked xs)
    (hfree : q.nodes node = none) (data : V) :
    ∃ q', q.append data node = some q' ∧ q'.Linked (xs ++ [node]) ∧
      q'.contents (xs ++ [node]) = q.contents xs ++ [data] ∧
      q'.size = q.size + 1 ∧ q'.maxSize = q.maxSize := by
  have hnode : node ∉ xs := fun hmem => by simpa [hfree] using h.isSome hmem
  have hnd : (xs ++ [node]).Nodup := h.nodup.append (List.nodup_singleton node) (by simpa)
  rcases List.eq_nil_or_concat' xs with rfl | ⟨ys, tail, rfl⟩
  · have hsize : q.size = 0 := h.size
    refine ⟨_, append_empty hsize data node, ⟨?_, hnd, ?_, rfl⟩, ?_, rfl, rfl⟩
    · exact ⟨rfl, none, by simp [Queue.link], rfl⟩
    · simp [hsize]
    · simp [Queue.contents]
  · have hlen : q.size = ys.length + 1 := by simpa using h.size
    have hsize : q.size ≠ 0 := by omega
    have htail : q.tail = some tail := by simpa using h.tail
    have hne : tail ≠ node := fun heq => hnode (by simp [← heq])
    obtain ⟨last, hlast⟩ := Option.isSome_iff_exists.mp (h.isSome (a := tail) (by simp))
    refine ⟨_, append_nonempty hsize htail hlast data hne, ⟨?_, hnd, ?_, ?_⟩, ?_, rfl, rfl⟩
    · apply h.chain.snoc h.nodup (z := tail) (by simp)
      · simp [Queue.link, hne.symm]
      · simp [Queue.link]
      · intro a ha hat
        have hanode : a ≠ node := fun heq => hnode (heq ▸ ha)
        simp [Queue.link, hat, hanode]
    · simp only [List.length_append, List.length_singleton]
      omega
    · simp
    · have hold : ∀ a ∈ ys, a ≠ tail ∧ a ≠ node := by
        intro a ha
        refine ⟨fun heq => ?_, fun heq => hnode (heq ▸ List.mem_append_left _ ha)⟩
        exact (List.nodup_append.mp h.nodup).2.2 a ha tail (by simp) heq
      have hys : ys.filterMap (fun a => (Function.update
          (Function.update q.nodes node (some { data := data, next := none })) tail
          (some { last with next := some node }) a).map QueueNode.data) = q.contents ys :=
        List.filterMap_congr fun a ha => by simp [(hold a ha).1, (hold a ha).2]
      simp [Queue.contents, hys, hne.symm, hlast]

/-- With a node at its head, the queue gives out that node's value. -/
theorem Queue.Linked.remove {q : Queue A V} {x : A} {xs : List A} (h : q.Linked (x :: xs)) :
    ∃ q' data, q.remove = some (q', data) ∧ q'.Linked xs ∧
      q.contents (x :: xs) = data :: q'.contents xs ∧
      q'.size = q.size - 1 ∧ q'.maxSize = q.maxSize := by
  obtain ⟨hx, hnd⟩ := List.nodup_cons.mp h.nodup
  obtain ⟨hhead, next, hnext, hrest⟩ := h.chain
  obtain ⟨first, hfirst⟩ := Option.isSome_iff_exists.mp (h.isSome List.mem_cons_self)
  obtain rfl : first.next = next := by simpa [Queue.link, hfirst] using hnext
  have hsize : q.size = xs.length + 1 := by simpa using h.size
  have hold : ∀ a ∈ xs, Function.update q.nodes x none a = q.nodes a := fun a ha =>
    Function.update_of_ne (ne_of_mem_of_not_mem ha hx) _ _
  have hcontents : q.contents (x :: xs) = first.data :: q.contents xs := by
    simp [Queue.contents, hfirst]
  cases xs with
  | nil =>
    have hone : q.size = 1 := by simpa using hsize
    refine ⟨{ q with tail := none, head := none, nodes := Function.update q.nodes x none,
                     size := q.size - 1 }, first.data, ?_, ⟨rfl, hnd, ?_, rfl⟩, ?_, rfl, rfl⟩
    · simp [Queue.remove, hhead, hfirst, hone]
    · simp [hone]
    · exact hcontents
  | cons y ys =>
    have hone : q.size ≠ 1 := by
      simp at hsize
      omega
    refine ⟨{ q with head := first.next, nodes := Function.update q.nodes x none,
                     size := q.size - 1 }, first.data, ?_, ⟨?_, hnd, ?_, ?_⟩, ?_, rfl, rfl⟩
    · simp [Queue.remove, hhead, hfirst, hone]
    · exact hrest.congr fun a ha => by simp only [Queue.link, hold a ha]
    · simp [hsize]
    · simpa using h.tail
    · rw [hcontents]
      exact congrArg (first.data :: ·) (contents_congr hold).symm

/-! ## Every interleaving -/

/-- The invariant of a queue with bound `maxSize`, for the pushes and pulls of `log`. -/
def QueueInv {T : Type*} (maxSize : ℤ) (q : Queue A V)
    (log : List (Event T (QueueCall V) (Option V))) : Prop :=
  ∃ xs, q.Linked xs ∧ q.maxSize = maxSize ∧ (0 < maxSize → q.size ≤ maxSize) ∧
    pulled log ++ q.contents xs = pushed log

theorem queueStretch_of_runs {q : Queue A V} {c : QueueCall V} {node : A}
    {e : Stretch (Queue A V) (Option V)} (h : queueMonitor.Runs q c node e) :
    queueStretch q c node = some e := by
  rcases h with h | h
  · exact h
  · exact h

/-- A thread waits only when its call is blocked, and a wait changes nothing. -/
def Queue.Blocked (q : Queue A V) : QueueCall V → Prop
  | .push _ => 0 < q.maxSize ∧ q.maxSize ≤ q.size
  | .pull => q.size ≤ 0

theorem queueStretch_wait {q q' : Queue A V} {c : QueueCall V} {node : A}
    (h : queueStretch q c node = some (.wait q')) : q' = q ∧ q.Blocked c := by
  cases c with
  | push data =>
    simp only [queueStretch, queuePush] at h
    split_ifs at h with hfull hused
    · simp at h
      exact ⟨h.symm, hfull⟩
    · obtain ⟨_, -, heq⟩ := Option.map_eq_some_iff.mp h
      cases heq
  | pull =>
    simp only [queueStretch, queuePull] at h
    split_ifs at h with hempty
    · simp at h
      exact ⟨h.symm, hempty⟩
    · obtain ⟨_, -, heq⟩ := Option.map_eq_some_iff.mp h
      cases heq

/-- What the two calls do when they return. -/
theorem queueStretch_leave {q q' : Queue A V} {c : QueueCall V} {node : A} {r : Option V}
    {wake : Wake} (h : queueStretch q c node = some (.leave q' r wake)) :
    wake = .every ∧ ¬ q.Blocked c ∧
      ((∃ data, c = .push data ∧ r = none ∧ q.nodes node = none ∧ q.append data node = some q') ∨
        ∃ data, c = .pull ∧ r = some data ∧ q.remove = some (q', data)) := by
  cases c with
  | push data =>
    simp only [queueStretch, queuePush] at h
    split_ifs at h with hfull hused
    · simp at h
    · obtain ⟨q₁, hq₁, heq⟩ := Option.map_eq_some_iff.mp h
      obtain ⟨rfl, rfl, rfl⟩ := Stretch.leave.inj heq
      exact ⟨rfl, hfull, .inl ⟨data, rfl, rfl, by simpa using hused, hq₁⟩⟩
  | pull =>
    simp only [queueStretch, queuePull] at h
    split_ifs at h with hempty
    · simp at h
    · obtain ⟨⟨q₁, data⟩, hq₁, heq⟩ := Option.map_eq_some_iff.mp h
      obtain ⟨rfl, rfl, rfl⟩ := Stretch.leave.inj heq
      exact ⟨rfl, hempty, .inr ⟨data, rfl, rfl, hq₁⟩⟩

theorem QueueInv.leave {T : Type*} {maxSize : ℤ} {q q' : Queue A V}
    {log : List (Event T (QueueCall V) (Option V))} {t : T} {c : QueueCall V} {node : A}
    {r : Option V} {wake : Wake} (hI : QueueInv maxSize q log)
    (h : queueStretch q c node = some (.leave q' r wake)) :
    QueueInv maxSize q' (log ++ [.returned t c r]) := by
  obtain ⟨xs, hlinked, hmax, hbound, hlog⟩ := hI
  obtain ⟨-, hfree, ⟨data, rfl, rfl, hnode, happ⟩ | ⟨data, rfl, rfl, hrem⟩⟩ := queueStretch_leave h
  · obtain ⟨q₁, happ₁, hlinked₁, hcont, hsize, hmax₁⟩ := hlinked.append hnode data
    obtain rfl : q₁ = q' := Option.some.inj (happ₁.symm.trans happ)
    refine ⟨xs ++ [node], hlinked₁, hmax₁.trans hmax, fun hpos => ?_, ?_⟩
    · rw [Queue.Blocked, hmax] at hfree
      have : q.size < maxSize := not_le.mp fun hle => hfree ⟨hpos, hle⟩
      omega
    · rw [pushed_push, pulled_push, hcont, ← List.append_assoc, hlog]
  · cases xs with
    | nil => exact absurd hlinked.size.le hfree
    | cons x xs =>
      obtain ⟨q₁, data₁, hrem₁, hlinked₁, hcont, hsize, hmax₁⟩ := hlinked.remove
      obtain ⟨rfl, rfl⟩ := Prod.mk.inj (Option.some.inj (hrem₁.symm.trans hrem))
      refine ⟨xs, hlinked₁, hmax₁.trans hmax, fun hpos => ?_, ?_⟩
      · have := hbound hpos
        omega
      · rw [pushed_pull, pulled_pull, ← hlog, hcont]
        simp

variable {T : Type*} [DecidableEq T] {maxSize : ℤ} {w : QueueWorld T A V}
  {as : List (Action T (QueueCall V) A)}

theorem run_queueInv (h : Run (Step queueMonitor) (.init (queueCreate maxSize)) as w) :
    QueueInv maxSize w.shared w.log := by
  refine run_shared (I := QueueInv maxSize) h ?_ ?_ ?_ ?_
  · exact ⟨[], queueCreate_linked maxSize, rfl, fun hpos => hpos.le, rfl⟩
  · rintro q log t c ⟨xs, hlinked, hmax, hbound, hlog⟩
    refine ⟨xs, hlinked, hmax, hbound, ?_⟩
    rw [pushed_called, pulled_called, hlog]
  · intro q log c node q' hI hwait
    obtain ⟨rfl, -⟩ := queueStretch_wait (queueStretch_of_runs hwait)
    exact hI
  · intro q log t c node q' r wake hI hleave
    exact hI.leave (queueStretch_of_runs hleave)

/-- In every state reached, following the nodes from the head meets exactly `size` of them and
ends at the tail, the bound is kept, and what was pulled followed by what is in the queue is what
was pushed. -/
theorem run_fifo (h : Run (Step queueMonitor) (.init (queueCreate maxSize)) as w) :
    ∃ xs, Chain w.shared.link w.shared.head xs ∧ (xs.length : ℤ) = w.shared.size ∧
      w.shared.tail = xs.getLast? ∧ (0 < maxSize → w.shared.size ≤ maxSize) ∧
      pulled w.log ++ w.shared.contents xs = pushed w.log := by
  obtain ⟨xs, hlinked, -, hbound, hlog⟩ := run_queueInv h
  exact ⟨xs, hlinked.chain, hlinked.size.symm, hlinked.tail, hbound, hlog⟩

/-- A puller waits, is woken by a push and takes the value. -/
theorem run_fifo_handoff : ∃ w : QueueWorld (Fin 2) ℕ ℕ, pulled w.log = [7] ∧
    ∃ xs, Chain w.shared.link w.shared.head xs ∧ (xs.length : ℤ) = w.shared.size ∧
      w.shared.tail = xs.getLast? ∧ (0 < (1 : ℤ) → w.shared.size ≤ 1) ∧
      pulled w.log ++ w.shared.contents xs = pushed w.log := by
  have hstart : Run (Step (queueMonitor (A := ℕ) (V := ℕ))) (.init (queueCreate 1)) []
      (.init (queueCreate 1) : QueueWorld (Fin 2) ℕ ℕ) := .refl
  have hwait := hstart.tail (.call (t := 0) (c := .pull) rfl)
      |>.tail (.wait (t := 0) (x := 0) rfl)
  have hpush := hwait.tail (.call (t := 1) (c := .push 7) rfl)
      |>.tail (.leave (t := 1) (x := 5) (u := none) rfl (by exact rfl))
  have hpull := hpush.tail (.leave (t := 0) (x := 0) (u := none) rfl (by exact rfl))
  exact ⟨_, rfl, run_fifo hpull⟩

/-- No thread faults: one at the mutex can always run its stretch, at any fresh address. -/
theorem run_queueStretch (h : Run (Step queueMonitor) (.init (queueCreate maxSize)) as w)
    (c : QueueCall V) {node : A} (hnode : w.shared.nodes node = none) :
    (queueStretch w.shared c node).isSome := by
  obtain ⟨xs, hlinked, -, -, -⟩ := run_queueInv h
  cases c with
  | push data =>
    obtain ⟨q, hq, -⟩ := hlinked.append hnode data
    by_cases hfull : 0 < w.shared.maxSize ∧ w.shared.maxSize ≤ w.shared.size
    · simp [queueStretch, queuePush, hfull]
    · simp [queueStretch, queuePush, hfull, hnode, hq]
  | pull =>
    cases xs with
    | nil =>
      have hempty : w.shared.size ≤ 0 := hlinked.size.le
      simp [queueStretch, queuePull, hempty]
    | cons x xs =>
      obtain ⟨q, data, hq, -⟩ := hlinked.remove
      by_cases hempty : w.shared.size ≤ 0
      · simp [queueStretch, queuePull, hempty]
      · simp [queueStretch, queuePull, hempty, hq]

theorem run_blocked (h : Run (Step queueMonitor) (.init (queueCreate maxSize)) as w) :
    ∀ t c, w.phase t = .asleep c → w.shared.Blocked c := by
  refine run_asleep h ?_ ?_
  · intro q c node q' hwait
    exact queueStretch_wait (queueStretch_of_runs hwait)
  · intro q c node q' r wake hleave
    exact (queueStretch_leave (queueStretch_of_runs hleave)).1

/-- No wakeup is lost: nobody sleeps in a call that could go on, so that pushers and pullers
never sleep together. -/
theorem run_no_lost_wakeup (h : Run (Step queueMonitor) (.init (queueCreate maxSize)) as w) :
    (∀ t, w.phase t = .asleep .pull → ¬ 0 < w.shared.size) ∧
      (∀ t data, w.phase t = .asleep (.push data) → ¬ w.shared.size < w.shared.maxSize) ∧
      ¬ ∃ t u data, w.phase t = .asleep .pull ∧ w.phase u = .asleep (.push data) := by
  have hblocked := run_blocked h
  refine ⟨fun t ht => not_lt.mpr (hblocked t _ ht), fun t data ht => ?_, ?_⟩
  · exact not_lt.mpr (hblocked t _ ht).2
  · rintro ⟨t, u, data, ht, hu⟩
    have hempty : w.shared.size ≤ 0 := hblocked t _ ht
    have hfull : 0 < w.shared.maxSize ∧ w.shared.maxSize ≤ w.shared.size := hblocked u _ hu
    omega

/-- A pusher sleeps on a full queue of one place. -/
theorem run_no_lost_wakeup_full : ∃ w : QueueWorld (Fin 2) ℕ ℕ, w.phase 1 = .asleep (.push 8) ∧
    (∀ t, w.phase t = .asleep .pull → ¬ 0 < w.shared.size) ∧
    (∀ t data, w.phase t = .asleep (.push data) → ¬ w.shared.size < w.shared.maxSize) ∧
    ¬ ∃ t u data, w.phase t = .asleep .pull ∧ w.phase u = .asleep (.push data) := by
  have hstart : Run (Step (queueMonitor (A := ℕ) (V := ℕ))) (.init (queueCreate 1)) []
      (.init (queueCreate 1) : QueueWorld (Fin 2) ℕ ℕ) := .refl
  have hpush := hstart.tail (.call (t := 0) (c := .push 7) rfl)
      |>.tail (.leave (t := 0) (x := 5) (u := none) rfl (by exact rfl))
  have hwait := hpush.tail (.call (t := 1) (c := .push 8) rfl)
      |>.tail (.wait (t := 1) (x := 6) rfl)
  exact ⟨_, rfl, run_no_lost_wakeup hwait⟩

/-! ## Balanced calls -/

def QueueCall.isPush : QueueCall V → Bool
  | .push _ => true
  | .pull => false

def QueueCall.isPull : QueueCall V → Bool
  | .push _ => false
  | .pull => true

theorem size_append {q q' : Queue A V} {data : V} {node : A}
    (h : q.append data node = some q') : q'.size = q.size + 1 ∧ q'.maxSize = q.maxSize := by
  unfold Queue.append at h
  split_ifs at h
  · obtain rfl := Option.some.inj h
    exact ⟨rfl, rfl⟩
  · obtain ⟨tail, -, htail⟩ := Option.bind_eq_some_iff.mp h
    obtain ⟨last, -, rfl⟩ := Option.map_eq_some_iff.mp htail
    exact ⟨rfl, rfl⟩

theorem size_remove {q q' : Queue A V} {data : V} (h : q.remove = some (q', data)) :
    q'.size = q.size - 1 ∧ q'.maxSize = q.maxSize := by
  obtain ⟨node, -, hnode⟩ := Option.bind_eq_some_iff.mp h
  obtain ⟨first, -, hfirst⟩ := Option.map_eq_some_iff.mp hnode
  dsimp only at hfirst
  split_ifs at hfirst
  all_goals
    obtain rfl := (Prod.mk.inj hfirst).1
    exact ⟨rfl, rfl⟩

/-- The size is the number of pushes that returned, less that of pulls. -/
theorem run_size (h : Run (Step queueMonitor) (.init (queueCreate maxSize)) as w) :
    w.shared.size + completed w.log QueueCall.isPull = completed w.log QueueCall.isPush ∧
      w.shared.maxSize = maxSize := by
  refine run_shared (I := fun q log => q.size + (completed log QueueCall.isPull : ℤ) =
    completed log QueueCall.isPush ∧ q.maxSize = maxSize) h ⟨rfl, rfl⟩ ?_ ?_ ?_
  · intro q log t c hI
    rwa [completed_called, completed_called]
  · intro q log c node q' hI hwait
    obtain ⟨rfl, -⟩ := queueStretch_wait (queueStretch_of_runs hwait)
    exact hI
  · intro q log t c node q' r wake ⟨hsize, hmax⟩ hleave
    rw [completed_returned, completed_returned]
    obtain ⟨-, -, ⟨data, rfl, -, -, happ⟩ | ⟨data, rfl, -, hrem⟩⟩ :=
      queueStretch_leave (queueStretch_of_runs hleave)
    · obtain ⟨hsize', hmax'⟩ := size_append happ
      refine ⟨?_, hmax'.trans hmax⟩
      simp only [QueueCall.isPush, QueueCall.isPull, if_true, Bool.false_eq_true, if_false]
      omega
    · obtain ⟨hsize', hmax'⟩ := size_remove hrem
      refine ⟨?_, hmax'.trans hmax⟩
      simp only [QueueCall.isPush, QueueCall.isPull, if_true, Bool.false_eq_true, if_false]
      omega

/-- A thread at the mutex can run its stretch. -/
theorem run_step (h : Run (Step queueMonitor) (.init (queueCreate maxSize)) as w) {t : T}
    {c : QueueCall V} (ht : (w.phase t).atMutex = some c) {node : A}
    (hnode : w.shared.nodes node = none) : ∃ w', Step queueMonitor w (.run t node none) w' := by
  obtain ⟨e, he⟩ := Option.isSome_iff_exists.mp (run_queueStretch h c hnode)
  have hs : queueMonitor.stretch w.shared node (w.phase t) = some (c, e) := by
    cases hphase : w.phase t with
    | outside => simp [hphase, Phase.atMutex] at ht
    | asleep d => simp [hphase, Phase.atMutex] at ht
    | calling d =>
      obtain rfl : d = c := by simpa [hphase, Phase.atMutex] using ht
      simp [stretch, queueMonitor, he]
    | awake d woken =>
      obtain rfl : d = c := by simpa [hphase, Phase.atMutex] using ht
      simp [stretch, queueMonitor, he]
  cases e with
  | wait s => exact ⟨_, .wait hs⟩
  | leave s r wake =>
    obtain ⟨rfl, -, -⟩ := queueStretch_leave he
    exact ⟨_, .leave hs rfl⟩

/-- There is no deadlock: as long as not more pulls than pushes were called, and the pushes without
a pull have room, somebody can go on unless every call has returned. -/
theorem run_drains [Fintype T] (h : Run (Step queueMonitor) (.init (queueCreate maxSize)) as w)
    (hpulls : called w.log QueueCall.isPull ≤ called w.log QueueCall.isPush)
    (hroom : 0 < maxSize →
      (called w.log QueueCall.isPush : ℤ) ≤ called w.log QueueCall.isPull + maxSize)
    {node : A} (hnode : w.shared.nodes node = none) :
    (∀ t, w.phase t = .outside) ∨ ∃ t w', Step queueMonitor w (.run t node none) w' := by
  by_cases hmutex : ∃ t c, (w.phase t).atMutex = some c
  · obtain ⟨t, c, ht⟩ := hmutex
    exact .inr ⟨t, run_step h ht hnode⟩
  · left
    obtain ⟨hsize, hmax⟩ := run_size h
    have hblocked := run_blocked h
    have hpush := run_called h QueueCall.isPush
    have hpull := run_called h QueueCall.isPull
    have hasleep : ∀ t c, (w.phase t).current = some c → w.shared.Blocked c := by
      intro t c ht
      apply hblocked t
      cases hphase : w.phase t with
      | outside => simp [hphase, Phase.current] at ht
      | calling d => exact absurd ⟨t, d, by rw [hphase]; rfl⟩ hmutex
      | asleep d => simpa [hphase, Phase.current] using ht
      | awake d woken => exact absurd ⟨t, d, by rw [hphase]; rfl⟩ hmutex
    have hinside : ∀ P : QueueCall V → Bool, 0 < (inside w.phase P).card ↔
        ∃ t c, (w.phase t).current = some c ∧ P c = true := by
      intro P
      simp [Finset.card_pos, Finset.Nonempty, inside, Option.any_eq_true]
    have hempty : 0 < (inside w.phase QueueCall.isPull).card → w.shared.size ≤ 0 := by
      intro hpos
      obtain ⟨t, c, ht, hc⟩ := (hinside _).mp hpos
      cases c with
      | push data => cases hc
      | pull => exact hasleep t _ ht
    have hfull : 0 < (inside w.phase QueueCall.isPush).card →
        0 < w.shared.maxSize ∧ w.shared.maxSize ≤ w.shared.size := by
      intro hpos
      obtain ⟨t, c, ht, hc⟩ := (hinside _).mp hpos
      cases c with
      | push data => exact hasleep t _ ht
      | pull => cases hc
    -- Either kind of sleeper needs one of the other kind, and they never sleep together.
    have hnobody : (inside w.phase QueueCall.isPull).card = 0 ∧
        (inside w.phase QueueCall.isPush).card = 0 := by
      omega
    intro t
    cases hphase : w.phase t with
    | outside => rfl
    | calling c => exact absurd ⟨t, c, by rw [hphase]; rfl⟩ hmutex
    | awake c woken => exact absurd ⟨t, c, by rw [hphase]; rfl⟩ hmutex
    | asleep c =>
      have hcurrent : (w.phase t).current = some c := by rw [hphase]; rfl
      cases c with
      | push data => exact absurd ((hinside QueueCall.isPush).mpr ⟨t, _, hcurrent, rfl⟩) (by omega)
      | pull => exact absurd ((hinside QueueCall.isPull).mpr ⟨t, _, hcurrent, rfl⟩) (by omega)

/-- A puller sleeps, and the pusher that it needs is at the mutex. -/
theorem run_drains_sleeper : ∃ w : QueueWorld (Fin 2) ℕ ℕ, w.phase 0 = .asleep .pull ∧
    ((∀ t, w.phase t = .outside) ∨ ∃ t w', Step queueMonitor w (.run t 5 none) w') := by
  have hstart : Run (Step (queueMonitor (A := ℕ) (V := ℕ))) (.init (queueCreate 1)) []
      (.init (queueCreate 1) : QueueWorld (Fin 2) ℕ ℕ) := .refl
  have hwait := hstart.tail (.call (t := 0) (c := .pull) rfl)
      |>.tail (.wait (t := 0) (x := 0) rfl)
  have hcall := hwait.tail (.call (t := 1) (c := .push 7) rfl)
  exact ⟨_, rfl, run_drains hcall (by decide) (by decide) rfl⟩

end Cs241.Critical
