import Cs241.Foundation.Delimiters
import Cs241.Shell.Model

/-!
# Replaying an entry of the history

`#n` and `!prefix` run the words of the entry they select as one command. This is what
typing the entry does as long as it has no operator and its first word means nothing to
the shell. An entry that starts with `cd` is followed in the history by the line that was
typed.
-/
namespace Cs241.Shell

open Foundation

/-! ## Lines and words -/

@[simp] theorem yeet_newline (line : Line) : yeet (line.text ++ [10]) = line := by
  obtain ⟨text, htext⟩ := line
  have htake : (text ++ [10]).takeWhile (fun c => c ≠ 10) = text := takeWhile_ne_cons htext []
  simp only [yeet, htake]

@[simp] theorem yeet_text (line : Line) : yeet line.text = line := by
  obtain ⟨text, htext⟩ := line
  have htake : text.takeWhile (fun c => c ≠ 10) = text := takeWhile_ne_iff.mpr htext
  simp only [yeet, htake]

section Words

variable {mem : Memory} {p : Parsed} {line : Line}

theorem getArgs_newline : getArgs mem (line.text ++ [10]) = getArgs mem line.text := by
  rw [getArgs, getArgs, yeet_newline, yeet_text]

theorem length_args_round (i : ℕ) : (p.round mem i).args.length = p.args.length := by
  unfold Parsed.round
  dsimp only
  split_ifs <;> simp

theorem length_args_rounds (n : ℕ) : (p.rounds mem n).args.length = p.args.length := by
  induction n with
  | zero => rfl
  | succ n ih => rw [Parsed.rounds, length_args_round, ih]

theorem args_ne_nil (text : Text) : (getArgs mem text).args ≠ [] := by
  rw [← List.length_pos_iff, getArgs, length_args_rounds]
  exact List.length_pos_iff.mpr Sstring.split_ne_nil

/-- `args1` starts with the first word, if with any. -/
def Parsed.Headed (p : Parsed) : Prop := p.args1 = [] ∨ p.args1.head? = p.args.head?

theorem head?_modify {f : Text → Text} {args : List Text} {i : ℕ} (hi : i ≠ 0) :
    (args.modify i f).head? = args.head? := by
  cases args <;> cases i <;> simp_all

theorem Parsed.Headed.append {args : List Text} {i : ℕ} (h : p.Headed) (hi : i ≠ 0)
    (hargs : args.head? = p.args.head?) :
    p.args1 ++ args.take i = [] ∨ (p.args1 ++ args.take i).head? = args.head? := by
  cases hargs1 : p.args1 with
  | nil =>
    rw [List.nil_append, List.head?_take, if_neg hi]
    exact .inr rfl
  | cons word words =>
    have hword := h.resolve_left (by simp [hargs1])
    rw [hargs, ← hword, hargs1]
    exact .inr rfl

/-- Left of the first argument there is nothing. -/
theorem Parsed.round_zero (h : p.args1 = []) : (p.round mem 0).args1 = [] := by
  unfold Parsed.round
  dsimp only
  split_ifs <;> simp [h]

/-- Later rounds keep the first argument. -/
theorem Parsed.Headed.round {i : ℕ} (h : p.Headed) (hi : i ≠ 0) : (p.round mem i).Headed := by
  unfold Parsed.round
  dsimp only
  split_ifs
  · exact h.append hi (head?_modify hi)
  · exact h.append hi (head?_modify hi)
  · exact h.append hi ((head?_modify hi).trans (head?_modify hi))
  · unfold Parsed.Headed
    rw [head?_modify hi]
    exact h

theorem Parsed.headed_rounds (h : p.args1 = []) (n : ℕ) : (p.rounds mem n).Headed := by
  induction n with
  | zero => exact .inl h
  | succ n ih =>
    cases n with
    | zero => exact .inl (Parsed.round_zero h)
    | succ n => exact ih.round (Nat.succ_ne_zero n)

theorem headed_getArgs (text : Text) : (getArgs mem text).Headed := Parsed.headed_rounds rfl _

end Words

/-! ## Programs -/

/-- The arguments that programs were started with. -/
def programs (log : List Event) : List (List Text) :=
  log.filterMap fun
    | .program args => some args
    | _ => none

/-- Every program ends with this status. -/
def ending (ok : Bool) : World where
  fork _ _ := some ok
  chdir _ _ := true

/-- The program that is started, if a process can be forked for it. -/
def started (world : World) (log : List Event) (args : List Text) : List (List Text) :=
  if (world.fork log args).isSome then [args] else []

section Programs

variable {mem : Memory} {world : World} {s : State} {args : List Text}

theorem programs_did (event : Event) :
    programs (s.did event).log = programs s.log ++ programs [event] := List.filterMap_append

/-- `cd` starts no program and adds the line that was read. -/
theorem spoon_cd (world : World) (s : State) (h : args.head? = some cdWord) :
    ∃ r, spoon world s args = some r ∧ r.1.history = s.history ++ [s.line] ∧
      programs r.1.log = programs s.log := by
  obtain ⟨words, rfl⟩ : ∃ words, args = cdWord :: words := by
    cases args with
    | nil => cases h
    | cons word words => exact ⟨words, by rw [Option.some.inj h]⟩
  rw [spoon, if_pos rfl]
  refine ⟨_, rfl, ?_⟩
  cases words with
  | nil => exact ⟨rfl, rfl⟩
  | cons dir words =>
    rw [changeDirectory]
    split_ifs
    · exact ⟨rfl, by rw [programs_did]; simp [programs, State.push]⟩
    · exact ⟨rfl, rfl⟩

/-- Any other command starts a program. -/
theorem spoon_program (world : World) (s : State) (hne : args ≠ []) (h : args.head? ≠ some cdWord) :
    ∃ r, spoon world s args = some r ∧ r.1.history = s.history ∧
      programs r.1.log = programs s.log ++ started world s.log args ∧
      r.2 = (world.fork s.log args == some true) := by
  obtain ⟨word, words, rfl⟩ := List.exists_cons_of_ne_nil hne
  have hword : word ≠ cdWord := fun hc => h (by rw [hc]; rfl)
  rw [spoon, if_neg hword, started]
  cases world.fork s.log (word :: words) with
  | none => exact ⟨_, rfl, rfl, by rw [programs_did]; rfl, rfl⟩
  | some ok => exact ⟨_, rfl, rfl, by rw [programs_did]; rfl, by cases ok <;> rfl⟩

end Programs

/-! ## One round -/

/-- No word that `loop()` looks for. -/
def Plain (word : Text) : Prop :=
  word ≠ exitWord ∧ word ≠ historyWord ∧ word.head? ≠ some 35 ∧ word.head? ≠ some 33

/-- The entry that a line selects with `#n` or `!prefix`. -/
def selected (mem : Memory) (s : State) (raw : Text) : Option Line :=
  let word := (getArgs mem raw).args.headD []
  if raw = [10] ∨ word = exitWord ∨ word = historyWord then none
  else if word.head? = some 35 then nthCmd mem { s with line := yeet raw } word
  else if word.head? = some 33 then prefixCmd { s with line := yeet raw } word
  else none

/-- Whether the command on the right is run after the one on the left. -/
def Op.second : Op → Bool → Bool
  | .none, _ => false
  | .and, ok => ok
  | .or, ok => !ok
  | .seq, _ => true

section Round

variable {mem : Memory} {world : World} {s : State} {raw : Text} {p : Parsed} {past : Line}

theorem round_selected (h : selected mem s raw = some past) :
    round mem world s raw =
      (replay mem world { s with line := yeet raw } past).map fun r => (r.1, true) := by
  unfold selected at h
  dsimp only at h
  unfold round
  dsimp only
  split_ifs at h with hnone hnth hprefix
  · rw [not_or, not_or] at hnone
    rw [if_neg hnone.1, if_neg hnone.2.1, if_neg hnone.2.2, if_pos hnth, h]
  · rw [not_or, not_or] at hnone
    rw [if_neg hnone.1, if_neg hnone.2.1, if_neg hnone.2.2, if_neg hnth, if_pos hprefix, h]

theorem round_plain (hraw : raw ≠ [10]) (h : Plain ((getArgs mem raw).args.headD [])) :
    round mem world s raw =
      (ordinary world ({ s with line := yeet raw }.push (yeet raw)) (getArgs mem raw)).map
        fun r => (r.1, true) := by
  obtain ⟨hexit, hhistory, hnth, hprefix⟩ := h
  unfold round
  dsimp only
  rw [if_neg hraw, if_neg hexit, if_neg hhistory, if_neg hnth, if_neg hprefix]

/-- Nothing is run for a line that selects no entry and is no command. -/
theorem round_idle (world : World) (hnone : selected mem s raw = none)
    (h : raw = [10] ∨ ¬ Plain ((getArgs mem raw).args.headD [])) :
    ∃ r, round mem world s raw = some r ∧ r.1.log = s.log := by
  unfold selected at hnone
  dsimp only at hnone
  unfold round
  dsimp only
  by_cases hraw : raw = [10]
  · rw [if_pos hraw]
    exact ⟨_, rfl, rfl⟩
  rw [if_neg hraw]
  split_ifs with hexit hhistory hnth hprefix
  · exact ⟨_, rfl, rfl⟩
  · exact ⟨_, rfl, rfl⟩
  · rw [if_neg (not_or.mpr ⟨hraw, not_or.mpr ⟨hexit, hhistory⟩⟩), if_pos hnth] at hnone
    rw [hnone]
    exact ⟨_, rfl, rfl⟩
  · rw [if_neg (not_or.mpr ⟨hraw, not_or.mpr ⟨hexit, hhistory⟩⟩), if_neg hnth,
      if_pos hprefix] at hnone
    rw [hnone]
    exact ⟨_, rfl, rfl⟩
  · exact absurd ⟨hexit, hhistory, hnth, hprefix⟩ (h.resolve_left hraw)

/-- An operator decides by the status of its left command. -/
theorem ordinary_op (h : p.op ≠ .none) :
    ordinary world s p = (spoon world s p.args1).bind fun r =>
      if p.op.second r.2 then spoon world r.1 p.args2 else some r := by
  unfold ordinary
  cases hop : p.op
  · exact absurd hop h
  · rfl
  · rfl
  · rfl

end Round

/-! ## Replaying -/

/-- Typing `raw` starts the same programs as typing `past`, whatever becomes of them, and adds
`past` to the history, once. -/
def Replays (mem : Memory) (s : State) (raw : Text) (past : Line) : Prop :=
  ∀ world, ∃ replayed typed, round mem world s raw = some replayed ∧
    round mem world s (past.text ++ [10]) = some typed ∧
    programs replayed.1.log = programs typed.1.log ∧
    replayed.1.history = s.history ++ [past]

/-- A line of its own whose words are run as one command. The second case is a line such as
`&& cd && cd && cd`, in which the parts left of the operators amount to the whole line. -/
def OneCommand (p : Parsed) : Prop :=
  p.op = .none ∨ p.args1 = p.args ∧ p.args2.head? = some cdWord

/-- The entries for which a replay does what typing does. -/
structure Replayable (mem : Memory) (s : State) (past : Line) : Prop where
  ne_nil : past.text ≠ []
  not_cd : (getArgs mem past.text).args.head? ≠ some cdWord
  same : Plain ((getArgs mem past.text).args.headD []) ∧ OneCommand (getArgs mem past.text) ∨
    ∃ entry, selected mem s (past.text ++ [10]) = some entry ∧
      (getArgs mem entry.text).args = (getArgs mem past.text).args

section Replaying

variable {mem : Memory} {world : World} {s : State} {raw : Text} {p : Parsed} {past : Line}

/-- A replay of `cd` adds the typed line, too. -/
theorem replay_cd (world : World) (s : State)
    (h : (getArgs mem past.text).args.head? = some cdWord) :
    ∃ r, replay mem world s past = some r ∧ r.1.history = s.history ++ [past] ++ [s.line] ∧
      programs r.1.log = programs s.log := spoon_cd world (s.push past) h

theorem replay_program (world : World) (s : State)
    (h : (getArgs mem past.text).args.head? ≠ some cdWord) :
    ∃ r, replay mem world s past = some r ∧ r.1.history = s.history ++ [past] ∧
      programs r.1.log =
        programs s.log ++ started world s.log (getArgs mem past.text).args := by
  obtain ⟨r, hr, hhistory, hlog, -⟩ := spoon_program world (s.push past) (args_ne_nil past.text) h
  exact ⟨r, hr, hhistory, hlog⟩

/-- A line that selects a `cd` starts nothing and adds two lines. -/
theorem round_selected_cd (world : World) (hselected : selected mem s raw = some past)
    (h : (getArgs mem past.text).args.head? = some cdWord) :
    ∃ r, round mem world s raw = some r ∧ r.1.history = s.history ++ [past] ++ [yeet raw] ∧
      programs r.1.log = programs s.log := by
  obtain ⟨r, hr, hhistory, hlog⟩ := replay_cd world { s with line := yeet raw } h
  exact ⟨(r.1, true), by rw [round_selected hselected, hr]; rfl, hhistory, hlog⟩

/-- A line that selects anything else starts one program. -/
theorem round_selected_program (world : World) (hselected : selected mem s raw = some past)
    (h : (getArgs mem past.text).args.head? ≠ some cdWord) :
    ∃ r, round mem world s raw = some r ∧ r.1.history = s.history ++ [past] ∧
      programs r.1.log =
        programs s.log ++ started world s.log (getArgs mem past.text).args := by
  obtain ⟨r, hr, hhistory, hlog⟩ := replay_program world { s with line := yeet raw } h
  exact ⟨(r.1, true), by rw [round_selected hselected, hr]; rfl, hhistory, hlog⟩

/-- One command starts one program. -/
theorem ordinary_oneCommand (world : World) (s : State) (hne : p.args ≠ [])
    (hcd : p.args.head? ≠ some cdWord) (h : OneCommand p) : ∃ r, ordinary world s p = some r ∧
      programs r.1.log = programs s.log ++ started world s.log p.args := by
  obtain ⟨r, hr, -, hlog, -⟩ := spoon_program world s hne hcd
  by_cases hop : p.op = .none
  · exact ⟨r, by rw [ordinary, hop]; exact hr, hlog⟩
  · obtain ⟨hargs, hargs2⟩ := h.resolve_left hop
    rw [ordinary_op hop, hargs, hr, Option.bind_some]
    split_ifs
    · obtain ⟨r', hr', -, hlog'⟩ := spoon_cd world r.1 hargs2
      exact ⟨r', hr', hlog'.trans hlog⟩
    · exact ⟨r, rfl, hlog⟩

/-- If one program is started, whatever becomes of it, then there is one command. -/
theorem oneCommand_of_ordinary (hcd : p.args.head? ≠ some cdWord)
    (hhead : p.Headed)
    (h : ∀ world, (∀ log args, (world.fork log args).isSome) → ∃ r, ordinary world s p = some r ∧
      programs r.1.log = programs s.log ++ [p.args]) : OneCommand p := by
  by_cases hop : p.op = .none
  · exact .inl hop
  -- The left command ends such that the right one is run.
  obtain ⟨ok, hok⟩ : ∃ ok, p.op.second ok = true := by
    cases hp : p.op
    · exact absurd hp hop
    · exact ⟨true, rfl⟩
    · exact ⟨false, rfl⟩
    · exact ⟨true, rfl⟩
  obtain ⟨r, hr, hlog⟩ := h (ending ok) fun _ _ => rfl
  rw [ordinary_op hop] at hr
  by_cases hnil : p.args1 = []
  · rw [hnil] at hr
    cases hr
  have hcd1 : p.args1.head? ≠ some cdWord := by rwa [hhead.resolve_left hnil]
  obtain ⟨r₁, hr₁, -, hlog₁, hok₁⟩ := spoon_program (ending ok) s hnil hcd1
  have hsecond : r₁.2 = ok := by rw [hok₁]; cases ok <;> rfl
  rw [hr₁, Option.bind_some, hsecond, if_pos hok] at hr
  have hstarted {log : List Event} {args : List Text} :
      started (ending ok) log args = [args] := rfl
  rw [hstarted] at hlog₁
  by_cases hcd2 : p.args2.head? = some cdWord
  · obtain ⟨r₂, hr₂, -, hlog₂⟩ := spoon_cd (ending ok) r₁.1 hcd2
    obtain rfl : r₂ = r := Option.some.inj (hr₂.symm.trans hr)
    have hargs := List.append_cancel_left (hlog₁.symm.trans (hlog₂.symm.trans hlog))
    exact .inr ⟨List.singleton_inj.mp hargs, hcd2⟩
  · -- Two programs.
    have hnil2 : p.args2 ≠ [] := by
      intro hnil2
      rw [hnil2] at hr
      cases hr
    obtain ⟨r₂, hr₂, -, hlog₂, -⟩ := spoon_program (ending ok) r₁.1 hnil2 hcd2
    obtain rfl : r₂ = r := Option.some.inj (hr₂.symm.trans hr)
    rw [hstarted, hlog₁, hlog, List.append_assoc] at hlog₂
    have hlen := congrArg List.length (List.append_cancel_left hlog₂)
    simp at hlen

theorem Replays.not_cd (hselected : selected mem s raw = some past)
    (h : Replays mem s raw past) : (getArgs mem past.text).args.head? ≠ some cdWord := by
  intro hcd
  obtain ⟨replayed, typed, hreplayed, -, -, hhistory⟩ := h (ending true)
  obtain ⟨r, hr, hhistory', -⟩ := round_selected_cd (ending true) hselected hcd
  obtain rfl := Option.some.inj (hr.symm.trans hreplayed)
  have hlen := congrArg List.length (hhistory'.symm.trans hhistory)
  simp at hlen

/-- The program that typing the entry has to start. -/
theorem Replays.typed (world : World) (hselected : selected mem s raw = some past)
    (h : Replays mem s raw past)
    (hfork : ∀ log args, (world.fork log args).isSome) :
    ∃ typed, round mem world s (past.text ++ [10]) = some typed ∧
      programs typed.1.log = programs s.log ++ [(getArgs mem past.text).args] := by
  obtain ⟨replayed, typed, hreplayed, htyped, hlog, -⟩ := h world
  obtain ⟨r, hr, -, hlog'⟩ := round_selected_program world hselected (h.not_cd hselected)
  obtain rfl := Option.some.inj (hr.symm.trans hreplayed)
  rw [started, if_pos (hfork _ _)] at hlog'
  exact ⟨typed, htyped, hlog.symm.trans hlog'⟩

theorem not_idle (hlog : programs s.log ++ [p.args] = programs s.log) : False := by
  have hlen := congrArg List.length hlog
  simp at hlen

theorem Replays.replayable (hselected : selected mem s raw = some past)
    (h : Replays mem s raw past) : Replayable mem s past := by
  obtain ⟨typed, htyped, hlog⟩ := h.typed (ending true) hselected fun _ _ => rfl
  have hne : past.text ≠ [] := by
    intro hnil
    rw [hnil] at htyped
    obtain rfl := Option.some.inj htyped
    exact not_idle hlog.symm
  refine ⟨hne, h.not_cd hselected, ?_⟩
  cases hentry : selected mem s (past.text ++ [10]) with
  | some entry =>
    refine .inr ⟨entry, rfl, ?_⟩
    by_cases hcd : (getArgs mem entry.text).args.head? = some cdWord
    · obtain ⟨r, hr, -, hlog'⟩ := round_selected_cd (ending true) hentry hcd
      obtain rfl := Option.some.inj (hr.symm.trans htyped)
      exact (not_idle (hlog.symm.trans hlog')).elim
    · obtain ⟨r, hr, -, hlog'⟩ := round_selected_program (ending true) hentry hcd
      obtain rfl := Option.some.inj (hr.symm.trans htyped)
      exact List.singleton_inj.mp (List.append_cancel_left (hlog'.symm.trans hlog))
  | none =>
    have hraw : past.text ++ [10] ≠ [10] := by simpa using hne
    by_cases hplain : Plain ((getArgs mem (past.text ++ [10])).args.headD [])
    · rw [getArgs_newline] at hplain
      refine .inl ⟨hplain, oneCommand_of_ordinary
        (s := { s with line := past }.push past) (h.not_cd hselected) (headed_getArgs _) ?_⟩
      intro world hworld
      obtain ⟨typed, htyped, hlog⟩ := h.typed world hselected hworld
      rw [round_plain hraw (by rwa [getArgs_newline]), yeet_newline, getArgs_newline] at htyped
      obtain ⟨r, hr, rfl⟩ := Option.map_eq_some_iff.mp htyped
      exact ⟨r, hr, hlog⟩
    · obtain ⟨r, hr, hidle⟩ := round_idle (ending true) hentry (.inr hplain)
      obtain rfl := Option.some.inj (hr.symm.trans htyped)
      rw [hidle] at hlog
      exact (not_idle hlog.symm).elim

theorem Replayable.replays (hselected : selected mem s raw = some past)
    (h : Replayable mem s past) : Replays mem s raw past := by
  intro world
  obtain ⟨r, hr, hhistory, hlog⟩ := round_selected_program world hselected h.not_cd
  rcases h.same with ⟨hplain, hone⟩ | ⟨entry, hentry, hargs⟩
  · obtain ⟨r', hr', hlog'⟩ := ordinary_oneCommand world
      ({ s with line := past }.push past) (args_ne_nil past.text) h.not_cd hone
    refine ⟨r, (r'.1, true), hr, ?_, hlog.trans hlog'.symm, hhistory⟩
    have hraw : past.text ++ [10] ≠ [10] := by simpa using h.ne_nil
    rw [round_plain hraw (by rwa [getArgs_newline]), yeet_newline, getArgs_newline, hr']
    rfl
  · obtain ⟨r', hr', -, hlog'⟩ := round_selected_program world hentry (hargs ▸ h.not_cd)
    exact ⟨r, r', hr, hr', by rw [hlog, hlog', hargs], hhistory⟩

end Replaying

end Cs241.Shell
