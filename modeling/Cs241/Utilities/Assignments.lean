import Cs241.Foundation.Blocks
import Cs241.Foundation.Delimiters
import Cs241.Utilities.Model
import Mathlib.Data.List.Count

/-!
# The environment of the program

What the arguments say: an assignment is split at its first `=`, and the assignments
are applied from left to right. The utility cuts `VALUE` at its next `=`, and counts
the arguments of the program without those that are `--` again.
-/
namespace Cs241.Utilities

open Foundation

/-- `KEY=VALUE`, split at its first `=`. -/
structure Assignment where
  key : Text
  value : Text
  key_isName : IsName key
  value_ne_nil : value ≠ []

namespace Assignment

variable (a : Assignment) (env : Environment)

def text : Text := a.key ++ 61 :: a.value

/-- What the variable is to be set to, if a `%NAME` is set. -/
def resolve : Option Text :=
  if a.value.head? = some 37 then env.getenv a.value.tail else some a.value

/-- Nothing is cut off: `VALUE` has no `=`, or what is left of it is a `%NAME` and `NAME` happens
to have this very value. -/
def Whole : Prop :=
  61 ∉ a.value ∨ ∃ name rest, strtok a.value = some (37 :: name, rest) ∧
    env.getenv name = some a.value

end Assignment

/-- The environment behind the assignments, with the changes; `none` if a `%NAME` is not set. -/
def applyAll (env : Environment) :
    List Assignment → Option (Environment × List (Text × Text))
  | [] => some (env, [])
  | a :: as => (a.resolve env).bind fun v =>
    (applyAll (env.set a.key v a.key_isName) as).map fun r => (r.1, (a.key, v) :: r.2)

/-- Each assignment keeps its value, in the environment in which it is applied. -/
def AllWhole (env : Environment) : List Assignment → Prop
  | [] => True
  | a :: as =>
    a.Whole env ∧ ∀ v, a.resolve env = some v → AllWhole (env.set a.key v a.key_isName) as

/-! ## Tokens -/

section Tokens

variable {key value token rest str : Text}

theorem strtok_key (h : IsName key) (value : Text) :
    strtok (key ++ 61 :: value) = some (key, value) := by
  obtain ⟨hne, hmem⟩ := h
  rw [strtok, dropWhile_eq_word hne hmem, if_neg (by simp), takeWhile_ne_cons hmem,
    dropWhile_ne_cons hmem, List.tail_cons]

theorem strtok_plain (h : 61 ∉ value) (hne : value ≠ []) : strtok value = some (value, []) := by
  have hskip := dropWhile_eq_word hne h []
  rw [List.append_nil] at hskip
  rw [strtok, hskip, if_neg hne, takeWhile_ne_iff.mpr h, dropWhile_ne h, List.tail_nil]

/-- A token has no `=` in it. -/
theorem not_mem_token (h : strtok str = some (token, rest)) : 61 ∉ token := by
  rw [strtok] at h
  split_ifs at h
  obtain ⟨rfl, -⟩ := Prod.mk.inj (Option.some.inj h)
  exact not_mem_takeWhile_ne 61 _

end Tokens

/-! ## One assignment -/

section Assign

variable {env : Environment} {a : Assignment} {v w : Text} {stop : Stop}

theorem orStop_eq_ok {α : Type} {x : Option α} {b : α} : orStop stop x = .ok b ↔ x = some b := by
  cases x <;> simp [orStop]

theorem setPair_eq_ok {r : Environment × Text × Text} : setPair env a.text = .ok r ↔
    ∃ v, currVal env a.value = .ok v ∧ r = (env.set a.key v a.key_isName, a.key, v) := by
  have hmem : 61 ∈ a.text := by simp [Assignment.text]
  rw [setPair, if_pos hmem, Assignment.text, strtok_key a.key_isName]
  simp only [orStop, Option.elim_some, bind_eq_ok]
  constructor
  · rintro ⟨_, ⟨⟩, v, hv, env', henv', hr⟩
    rw [Environment.setenv, dif_pos a.key_isName] at henv'
    obtain rfl := Except.ok.inj henv'
    exact ⟨v, hv, (Except.ok.inj hr).symm⟩
  · rintro ⟨v, hv, rfl⟩
    refine ⟨_, rfl, v, hv, env.set a.key v a.key_isName, ?_, rfl⟩
    rw [Environment.setenv, dif_pos a.key_isName]
    rfl

/-- A value that begins with a `%` and can be resolved has no `=`. -/
theorem plain_of_percent (h : a.resolve env = some v) (hpercent : a.value.head? = some 37) :
    61 ∉ a.value := by
  rw [Assignment.resolve, if_pos hpercent] at h
  have hname := env.isName (by rw [h]; exact Option.some_ne_none v)
  obtain ⟨c, value, hvalue⟩ := List.exists_cons_of_ne_nil a.value_ne_nil
  rw [hvalue] at hpercent hname ⊢
  obtain rfl := Option.some.inj hpercent
  simpa using hname.2

theorem currVal_iff (h : a.resolve env = some v) : currVal env a.value = .ok v ↔ a.Whole env := by
  rw [currVal, bind_eq_ok]
  by_cases hplain : 61 ∈ a.value
  · have hpercent : a.value.head? ≠ some 37 := fun hp => plain_of_percent h hp hplain
    rw [Assignment.resolve, if_neg hpercent] at h
    obtain rfl := Option.some.inj h
    constructor
    · rintro ⟨⟨token, rest⟩, htoken, hvalue⟩
      have hstr := orStop_eq_ok.mp htoken
      dsimp only at hvalue
      split_ifs at hvalue with hhead
      · obtain ⟨name, rfl⟩ : ∃ name, token = 37 :: name := by
          cases token with
          | nil => simp at hhead
          | cons c name => exact ⟨name, by rw [Option.some.inj hhead]⟩
        exact .inr ⟨name, rest, hstr, orStop_eq_ok.mp hvalue⟩
      · obtain rfl := Except.ok.inj hvalue
        exact absurd hplain (not_mem_token hstr)
    · rintro (hbad | ⟨name, rest, hstr, hname⟩)
      · exact absurd hplain hbad
      · refine ⟨(37 :: name, rest), orStop_eq_ok.mpr hstr, ?_⟩
        exact orStop_eq_ok.mpr hname
  · refine iff_of_true ?_ (.inl hplain)
    refine ⟨(a.value, []), orStop_eq_ok.mpr (strtok_plain hplain a.value_ne_nil), ?_⟩
    rw [Assignment.resolve] at h
    split_ifs at h ⊢ with hpercent
    · exact orStop_eq_ok.mpr h
    · rw [Option.some.inj h]

/-- The loop applies the assignments as they are exactly if none of them loses a part. -/
theorem setPairs_iff {as : List Assignment} {r : Environment × List (Text × Text)}
    (h : applyAll env as = some r) :
    setPairs env (as.map Assignment.text) = .ok r ↔ AllWhole env as := by
  induction as generalizing env r with
  | nil =>
    obtain rfl := Option.some.inj h
    exact iff_of_true rfl trivial
  | cons a as ih =>
    obtain ⟨v, hv, hrest⟩ := Option.bind_eq_some_iff.mp h
    obtain ⟨s, hs, rfl⟩ := Option.map_eq_some_iff.mp hrest
    rw [List.map_cons, setPairs, bind_eq_ok]
    constructor
    · rintro ⟨first, hfirst, hloop⟩
      obtain ⟨w, hw, rfl⟩ := setPair_eq_ok.mp hfirst
      obtain ⟨t, ht, hpair⟩ := bind_eq_ok.mp hloop
      obtain ⟨henv, hchanges⟩ := Prod.mk.inj (Except.ok.inj hpair)
      obtain ⟨hchange, htail⟩ := List.cons.inj hchanges
      obtain rfl : w = v := congrArg Prod.snd hchange
      obtain rfl : t = s := Prod.ext henv htail
      refine ⟨(currVal_iff hv).mp hw, fun u hu => ?_⟩
      obtain rfl := Option.some.inj (hv.symm.trans hu)
      exact (ih hs).mp ht
    · rintro ⟨hwhole, hall⟩
      refine ⟨_, setPair_eq_ok.mpr ⟨v, (currVal_iff hv).mpr hwhole, rfl⟩, ?_⟩
      exact bind_eq_ok.mpr ⟨s, (ih hs).mpr (hall v hv), rfl⟩

end Assign

/-! ## The arguments -/

section Arguments

variable {n k : ℕ}

theorem Assignment.text_ne_dashes (a : Assignment) : a.text ≠ dashes := by
  intro h
  have hmem : 61 ∈ a.text := by simp [Assignment.text]
  rw [h] at hmem
  exact absurd hmem (by decide)

theorem counts_assignments (as : List Assignment) :
    (as.map Assignment.text).foldl Counts.next ⟨n, k, false⟩ = ⟨n + as.length, k, false⟩ := by
  induction as generalizing n with
  | nil => rfl
  | cons a as ih =>
    rw [List.map_cons, List.foldl_cons, Counts.next, if_neg a.text_ne_dashes]
    simp only [Bool.false_eq_true, if_false]
    rw [ih, List.length_cons]
    congr 1
    omega

/-- Another `--` is not counted. -/
theorem counts_inputs (inputs : List Text) : inputs.foldl Counts.next ⟨n, k, true⟩ =
    ⟨n, k + inputs.countP (· ≠ dashes), true⟩ := by
  induction inputs generalizing k with
  | nil => rfl
  | cons arg inputs ih =>
    rw [List.foldl_cons, Counts.next]
    by_cases harg : arg = dashes
    · rw [if_pos harg, ih, List.countP_cons_of_neg (by simpa using harg)]
    · rw [if_neg harg, if_pos rfl, ih, List.countP_cons_of_pos (by simpa using harg)]
      congr 1
      exact Nat.add_right_comm k 1 _

theorem counts_eq (as : List Assignment) (inputs : List Text) :
    counts (as.map Assignment.text ++ dashes :: inputs) =
      ⟨as.length, inputs.countP (· ≠ dashes), true⟩ := by
  rw [counts, List.foldl_append, counts_assignments, List.foldl_cons, Counts.next, if_pos rfl,
    counts_inputs, Nat.zero_add, Nat.zero_add]

theorem take_countP_iff {inputs : List Text} :
    inputs.take (inputs.countP (· ≠ dashes)) = inputs ↔ ∀ arg ∈ inputs, arg ≠ dashes := by
  constructor
  · intro h
    have hlength := congrArg List.length h
    rw [List.length_take, min_eq_left List.countP_le_length] at hlength
    have hall := List.countP_eq_length.mp hlength
    exact fun arg harg => by simpa using hall arg harg
  · intro h
    have hcount : inputs.countP (· ≠ dashes) = inputs.length :=
      List.countP_eq_length.mpr fun arg harg => by simpa using h arg harg
    rw [hcount, List.take_length]

end Arguments

/-- The program is executed with the arguments behind the first `--`, and each assignment sets its
variable to its value, exactly if none of those arguments is `--` and no assignment loses a part
of its value. -/
theorem main_executes_iff (env : Environment) (as : List Assignment) (inputs : List Text)
    (hinputs : inputs ≠ []) {env' : Environment} {changes : List (Text × Text)}
    (hset : applyAll env as = some (env', changes)) :
    main env (as.map Assignment.text ++ dashes :: inputs) = .executed inputs env' changes ↔
      (∀ arg ∈ inputs, arg ≠ dashes) ∧ AllWhole env as := by
  have hlength : ¬ (as.map Assignment.text ++ dashes :: inputs).length ≤ 1 := by
    have hpos := List.length_pos_iff.mpr hinputs
    simp only [List.length_append, List.length_cons]
    omega
  have htake : (as.map Assignment.text ++ dashes :: inputs).take as.length =
      as.map Assignment.text := List.take_left' (List.length_map _)
  have hdrop : (as.map Assignment.text ++ dashes :: inputs).drop (as.length + 1) = inputs := by
    rw [← List.drop_drop, List.drop_left' (List.length_map _)]
    rfl
  rw [main, if_neg hlength, counts_eq]
  dsimp only
  rw [htake, hdrop, ← setPairs_iff hset, ← take_countP_iff]
  by_cases husage : as.length = 0 ∧ inputs.countP (· ≠ dashes) = 0
  · -- no argument of the program has been counted
    rw [if_pos (.inl husage), husage.2, List.take_zero]
    exact iff_of_false (by simp) fun h => hinputs h.1.symm
  · rw [if_neg (by simpa using husage)]
    cases hpairs : setPairs env (as.map Assignment.text) with
    | error stop => simp [execute]
    | ok r =>
      simp only [execute, Outcome.executed.injEq, Except.ok.injEq, Prod.ext_iff]

/-- Nothing is set. -/
def noEnvironment : Environment where
  getenv _ := none
  isName h := absurd rfl h

/-- `env A=1 -- ls` -/
theorem main_executes_iff_ls : ∃ env' changes,
    main noEnvironment [[65, 61, 49], dashes, [108, 115]] = .executed [[108, 115]] env' changes ∧
      changes = [([65], [49])] :=
  ⟨_, _, (main_executes_iff noEnvironment [⟨[65], [49], by decide, by decide⟩] [[108, 115]]
    (by decide) rfl).mpr ⟨by decide, .inl (by decide), fun _ _ => trivial⟩, rfl⟩

/-- `env A=b=c -- ls` runs `ls` with `b` for `A`, where `A` is to be `b=c`; and `env A=1 -- ls --`
runs it without its argument. -/
theorem not_main_executes :
    ((∃ env' changes, applyAll noEnvironment [⟨[65], [98, 61, 99], by decide, by decide⟩] =
        some (env', changes) ∧ env'.getenv [65] = some [98, 61, 99]) ∧
      ∃ env' changes, main noEnvironment [[65, 61, 98, 61, 99], dashes, [108, 115]] =
        .executed [[108, 115]] env' changes ∧ env'.getenv [65] = some [98]) ∧
    ∃ env' changes, main noEnvironment [[65, 61, 49], dashes, [108, 115], dashes] =
      .executed [[108, 115]] env' changes :=
  ⟨⟨⟨_, _, rfl, rfl⟩, ⟨_, _, rfl, rfl⟩⟩, ⟨_, _, rfl⟩⟩

end Cs241.Utilities
