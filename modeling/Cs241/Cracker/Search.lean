import Cs241.Cracker.Model
import Cs241.Foundation.Loops

/-!
# The candidates that a worker of `cracker1.c` tries

The loop of `crack` moves to the next candidate before it hashes one. What it hashes are the
candidates behind the first one, in order and until one matches, and the first one is never tried.
-/
namespace Cs241.Cracker

open Foundation

/-- The candidates behind `c`, one after the other; `incrementString` answers zero at the last. -/
inductive Behind (u : Utils) : CString → List CString → Prop
  | last {c : CString} (h : (u.incrementString c).1 = 0) : Behind u c []
  | next {c : CString} {rest : List CString} (h : (u.incrementString c).1 ≠ 0)
      (hrest : Behind u (u.incrementString c).2 rest) :
      Behind u c ((u.incrementString c).2 :: rest)

/-- A task with the candidates for what is unknown of its password, all of them different. -/
structure Search (u : Utils) where
  task : Task
  first : CString
  others : List CString
  prefix_le : u.getPrefixLength task.1.password ≤ task.1.password.length
  setStringPosition_zero : u.setStringPosition
    (task.1.password.drop (u.getPrefixLength task.1.password)) 0 = first
  behind : Behind u first others
  nodup : (first :: others).Nodup

namespace Search

variable {u : Utils} (search : Search u)

def keyOf (c : CString) : CString :=
  u.key search.task.1.password search.task.1.password c

/-- The keys with the known prefix. -/
def keys : List CString := (search.first :: search.others).map search.keyOf

def hits (key : CString) : Bool := u.cryptR key [120, 120] = search.task.1.hash

end Search

variable (u : Utils) {n : ℕ} (id : Fin n)

/-- A step of a worker that is at work on a task. -/
def workRound : Worker × List (Event n) → Round (Worker × List (Event n)) (List (Event n))
  | (w, log) =>
    match w.point with
    | .pull => .exit log
    | _ =>
      match crackStep u id [] w with
      | none => .stuck
      | some (w, _, events) => .next (w, log ++ events)

/-- What a worker prints and hashes from the moment when it pulls the task. -/
def crackTask (task : Task) (fuel : ℕ) : Option (List (Event n)) :=
  (crackStep u id [some task] { numFound := 0, point := .pull }).bind fun (w, _, events) =>
    iterate (workRound u id) fuel (w, events)

def Event.key : Event n → Option CString
  | .hashed _ _ key => some key
  | _ => none

/-- The elements until the first that meets the test. -/
def upToFirst {α : Type*} (p : α → Bool) : List α → List α
  | [] => []
  | x :: xs => if p x then [x] else x :: upToFirst p xs

/-- The report of a search: whether it was successful, and then with the first key that matches. -/
def Reports (search : Search u) (log : List (Event n)) : Prop :=
  ∃ key count found, Event.threadResult id search.task key count found ∈ log ∧
    (found = true ↔ ∃ key ∈ search.keys, search.hits key) ∧
      (found = true → search.keys.find? search.hits = some key)

/-- The worker hashes the candidates in order until the first match, and reports whether there was
one. -/
def Cracks (search : Search u) : Prop :=
  ∃ fuel log, crackTask u id search.task fuel = some log ∧
    log.filterMap Event.key = upToFirst search.hits search.keys ∧ Reports u id search log

variable {u} {id}

section Loop

variable {search : Search u} {c : CString} {rest : List CString} {num count : ℕ}
  {log : List (Event n)}

theorem keyOf_drop (search : Search u) (c : CString) :
    (search.keyOf c).drop (u.getPrefixLength search.task.1.password) = c :=
  List.drop_left' (List.length_take_of_le search.prefix_le)

theorem key_keyOf (search : Search u) (c d : CString) :
    u.key search.task.1.password (search.keyOf c) d = search.keyOf d := by
  rw [Utils.key, Search.keyOf, Utils.key, List.take_left' (List.length_take_of_le search.prefix_le)]
  rfl

/-- A round moves to the next candidate and hashes it, or ends at the last. -/
theorem crackStep_loop :
    crackStep u id [] ⟨num, .loop search.task (search.keyOf c) count⟩ =
      some (if (u.incrementString c).1 ≠ 0 then
        (⟨num, if search.hits (search.keyOf (u.incrementString c).2)
            then .result search.task (search.keyOf (u.incrementString c).2) (count + 1) true
            else .loop search.task (search.keyOf (u.incrementString c).2) (count + 1)⟩, [],
          [.hashed id search.task (search.keyOf (u.incrementString c).2)])
      else
        (⟨num, .result search.task (search.keyOf (u.incrementString c).2) count false⟩, [], [])) := by
  unfold crackStep
  dsimp only
  rw [keyOf_drop, key_keyOf]
  by_cases hnext : (u.incrementString c).1 ≠ 0
  · simp only [if_pos hnext, Search.hits, decide_eq_true_eq]
  · simp only [if_neg hnext]

theorem workRound_loop {w : Worker} {events : List (Event n)}
    (h : crackStep u id [] ⟨num, .loop search.task (search.keyOf c) count⟩ = some (w, [], events)) :
    workRound u id (⟨num, .loop search.task (search.keyOf c) count⟩, log) =
      .next (w, log ++ events) := by
  rw [workRound, h]

theorem ends_result (num count : ℕ) (key : CString) (found : Bool) (log : List (Event n)) :
    Ends (workRound u id) (⟨num, .result search.task key count found⟩, log)
      (log ++ [.threadResult id search.task key count found]) :=
  .next rfl (.exit rfl)

/-- The loop hashes what is behind `c` until the first match. -/
theorem ends_loop (num : ℕ) (h : Behind u c rest) : ∃ key count' found,
    Ends (workRound u id) (⟨num, .loop search.task (search.keyOf c) count⟩, log)
      (log ++ (upToFirst search.hits (rest.map search.keyOf)).map (.hashed id search.task) ++
        [.threadResult id search.task key count' found]) ∧
      (rest.map search.keyOf).find? search.hits = if found then some key else none := by
  induction h generalizing count log with
  | @last c hlast =>
    have hstep := @crackStep_loop u n id search c num count
    rw [if_neg (not_not.mpr hlast)] at hstep
    refine ⟨search.keyOf (u.incrementString c).2, count, false,
      .next (workRound_loop hstep) ?_, rfl⟩
    simpa [upToFirst] using ends_result num count _ false log
  | @next c rest hnext hrest ih =>
    have hstep := @crackStep_loop u n id search c num count
    rw [if_pos hnext] at hstep
    rw [List.map_cons, List.find?_cons, upToFirst]
    by_cases hhit : search.hits (search.keyOf (u.incrementString c).2)
    · rw [if_pos hhit] at hstep ⊢
      exact ⟨search.keyOf (u.incrementString c).2, count + 1, true,
        .next (workRound_loop hstep) (ends_result _ _ _ _ _), by simp [hhit]⟩
    · rw [if_neg hhit] at hstep ⊢
      obtain ⟨key, count', found, hends, hfind⟩ := @ih (count + 1)
        (log ++ [.hashed id search.task (search.keyOf (u.incrementString c).2)])
      refine ⟨key, count', found, .next (workRound_loop hstep) ?_, by simpa [hhit] using hfind⟩
      rw [List.map_cons, List.append_cons log _ (List.map _ _)]
      exact hends

end Loop

/-! ## A task -/

section Task

variable {search : Search u} {log : List (Event n)} {fuel : ℕ}

/-- Whatever a worker does for a task: it hashes the candidates behind the first one until one
matches, and reports whether one of these did. -/
theorem crackTask_spec (search : Search u) (id : Fin n) : ∃ key count found, ∃ fuel,
    crackTask u id search.task fuel = some (.threadStart id search.task ::
      ((upToFirst search.hits (search.others.map search.keyOf)).map (.hashed id search.task) ++
        [.threadResult id search.task key count found])) ∧
      (search.others.map search.keyOf).find? search.hits = if found then some key else none := by
  obtain ⟨key, count, found, ⟨fuel, hfuel⟩, hfind⟩ := @ends_loop u n id search search.first
    search.others 1 [.threadStart id search.task] 0 search.behind
  refine ⟨key, count, found, fuel, ?_, hfind⟩
  have hfirst := search.setStringPosition_zero
  simp only [crackTask, crackStep, Option.bind_some, hfirst]
  exact hfuel

theorem crackTask_unique {log' : List (Event n)} {fuel' : ℕ}
    (h : crackTask u id search.task fuel = some log)
    (h' : crackTask u id search.task fuel' = some log') : log = log' := by
  obtain ⟨⟨w, jobs, events⟩, hstep, hlog⟩ := Option.bind_eq_some_iff.mp h
  obtain ⟨⟨w', jobs', events'⟩, hstep', hlog'⟩ := Option.bind_eq_some_iff.mp h'
  obtain ⟨rfl, -, rfl⟩ : w = w' ∧ jobs = jobs' ∧ events = events' := by
    simpa using hstep.symm.trans hstep'
  exact Ends.unique ⟨fuel, hlog⟩ ⟨fuel', hlog'⟩

theorem filterMap_key (keys : List CString) :
    (keys.map (Event.hashed id search.task)).filterMap Event.key = keys := by
  rw [List.filterMap_map]
  exact List.filterMap_some

theorem keyOf_injective (search : Search u) {c d : CString}
    (h : search.keyOf c = search.keyOf d) : c = d := by
  rw [← keyOf_drop search c, h, keyOf_drop search d]

/-- What is hashed first, if anything, is not the first candidate. -/
theorem upToFirst_others_ne (search : Search u) :
    upToFirst search.hits (search.others.map search.keyOf) ≠
      upToFirst search.hits search.keys := by
  have hhead : ∀ c cs, (upToFirst search.hits (List.map search.keyOf (c :: cs))).head? =
      some (search.keyOf c) := by
    intro c cs
    rw [List.map_cons, upToFirst]
    split_ifs <;> rfl
  intro heq
  have hheads := congrArg List.head? heq
  rw [Search.keys, hhead] at hheads
  cases hothers : search.others with
  | nil => simp [hothers, upToFirst] at hheads
  | cons c cs =>
    rw [hothers, hhead] at hheads
    have hsame := keyOf_injective search (Option.some.inj hheads)
    have hnodup := search.nodup
    rw [hothers, hsame] at hnodup
    simp at hnodup

end Task

/-- No task is cracked as it should be: the first candidate is not hashed. -/
theorem not_cracks (search : Search u) (id : Fin n) : ¬ Cracks u id search := by
  rintro ⟨fuel, log, hlog, hhashed, -⟩
  obtain ⟨key, count, found, fuel', hspec, -⟩ := crackTask_spec search id
  obtain rfl := crackTask_unique hlog hspec
  refine upToFirst_others_ne search ?_
  rw [← hhashed, List.filterMap_cons, List.filterMap_append, filterMap_key]
  exact (List.append_nil _).symm

/-- The report by itself is right exactly if the first candidate does not match. -/
theorem reports_iff (search : Search u) (id : Fin n) {fuel : ℕ} {log : List (Event n)}
    (hlog : crackTask u id search.task fuel = some log) :
    Reports u id search log ↔ search.hits (search.keyOf search.first) = false := by
  obtain ⟨key, count, found, fuel', hspec, hfind⟩ := crackTask_spec search id
  obtain rfl := crackTask_unique hlog hspec
  have hreport : ∀ {key' count' found'}, Event.threadResult id search.task key' count' found' ∈
      Event.threadStart id search.task ::
        ((upToFirst search.hits (search.others.map search.keyOf)).map (.hashed id search.task) ++
          [.threadResult id search.task key count found]) →
        key' = key ∧ found' = found := by
    intro key' count' found' hmem
    simp at hmem
    exact ⟨hmem.1, hmem.2.2⟩
  constructor
  · rintro ⟨key', count', found', hmem, hfound, hkey⟩
    obtain ⟨rfl, rfl⟩ := hreport hmem
    by_contra hhit
    rw [Bool.not_eq_false] at hhit
    -- the first candidate would have to be reported, but is not among the others
    have htrue := hfound.mpr ⟨search.keyOf search.first, List.mem_cons_self, hhit⟩
    have hfirst := hkey htrue
    rw [Search.keys, List.map_cons, List.find?_cons, hhit] at hfirst
    rw [htrue, if_pos rfl] at hfind
    obtain ⟨c, hc, hsame⟩ := List.mem_map.mp (List.mem_of_find?_eq_some hfind)
    have heq := keyOf_injective search (hsame.trans (Option.some.inj hfirst).symm)
    have hnodup := search.nodup
    rw [← heq] at hnodup
    exact (List.nodup_cons.mp hnodup).1 hc
  · intro hmiss
    have hall : search.keys.find? search.hits = if found then some key else none := by
      rw [Search.keys, List.map_cons, List.find?_cons, hmiss]
      exact hfind
    refine ⟨key, count, found, by simp, ?_, fun hfound => by rw [hall, if_pos hfound]⟩
    rw [← List.find?_isSome, hall]
    cases found <;> simp

/-- The letters `a` and `b`; `crypt_r` answers with the key. -/
def plainLetters : Utils where
  getPrefixLength := fun s => s.idxOf 46
  setStringPosition := fun s _ => s.map fun _ => 97
  incrementString := fun s => if s = [97] then (1, [98]) else (0, [97])
  cryptR := fun key _ => key

/-- The password is known except for its last letter, which is `a`. -/
def lastLetter : Search plainLetters where
  task := (⟨[120], [98, 97], [98, 46]⟩, 0)
  first := [97]
  others := [[98]]
  prefix_le := by decide
  setStringPosition_zero := rfl
  behind := .next (by decide) (.last (by decide))
  nodup := by decide

/-- The worker hashes one key only, and reports that none matches. -/
theorem not_cracks_lastLetter : ¬ Cracks plainLetters (0 : Fin 1) lastLetter ∧
    crackTask plainLetters (0 : Fin 1) lastLetter.task 9 =
      some [.threadStart 0 lastLetter.task, .hashed 0 lastLetter.task [98, 98],
        .threadResult 0 lastLetter.task [98, 97] 2 false] := by
  have hrun : crackTask plainLetters (0 : Fin 1) lastLetter.task 9 =
      some [.threadStart 0 lastLetter.task, .hashed 0 lastLetter.task [98, 98],
        .threadResult 0 lastLetter.task [98, 97] 2 false] := rfl
  refine ⟨?_, hrun⟩
  rintro ⟨fuel, log, hlog, hhashed, -⟩
  obtain rfl := crackTask_unique hlog hrun
  revert hhashed
  decide

end Cs241.Cracker
