import Cs241.Parser.Lines

/-!
# The graph of a makefile

The parser returns the targets and dependencies with the edges between them, and the recipe of
the last rule line that has one. That a rule has commands is told by the line number of the
first of them, of which only the lower half is kept: a multiple of `2 ^ 32` is taken for no
recipe, and the next recipe of the target is added to it.
-/
namespace Cs241.Parser

open Foundation

/-! ## What a makefile says -/

/-- A name that is a target or a dependency. -/
def Occurs (lines : List Line) (name : Name) : Prop :=
  ∃ target dependencies, .rule target dependencies ∈ lines ∧
    (name = target ∨ name ∈ dependencies)

/-- A rule line for `a` lists `b`. -/
def Listed (lines : List Line) (a b : Name) : Prop :=
  ∃ dependencies, .rule a dependencies ∈ lines ∧ b ∈ dependencies

def firstTarget : List Line → Option Name
  | [] => none
  | .rule target _ :: _ => some target
  | _ :: lines => firstTarget lines

/-- The recipe lines up to the next rule line, with their numbers; the first line is line `n`. -/
def recipes : ℕ → List Line → List (ℕ × Name)
  | _, [] => []
  | _, .rule _ _ :: _ => []
  | n, .recipe command :: lines => (n, command) :: recipes (n + 1) lines
  | n, _ :: lines => recipes (n + 1) lines

/-- The recipes of the rule lines for `target` that have any. -/
def blocks (target : Name) : ℕ → List Line → List (List (ℕ × Name))
  | _, [] => []
  | n, .rule target' _ :: lines =>
    if target' = target ∧ recipes (n + 1) lines ≠ [] then
      recipes (n + 1) lines :: blocks target (n + 1) lines
    else blocks target (n + 1) lines
  | n, _ :: lines => blocks target (n + 1) lines

/-- The commands of the last rule line for `target` that has any. -/
def lastCommands (target : Name) (lines : List Line) : List Name :=
  ((blocks target 1 lines).getLast?.getD []).map Prod.snd

/-- The graph of a makefile and goals. -/
structure IsGraphOf (lines : List Line) (goals : List Name) (g : DependencyGraph) : Prop where
  mem_vertices : ∀ name, name ∈ g.graph.vertices ↔ name = [] ∨ Occurs lines name
  adj : ∀ target name, target ≠ [] → (g.graph.Adj target name ↔ Listed lines target name)
  adj_sentinel : ∀ name, g.graph.Adj [] name ↔
    name ∈ goals ∨ goals = [] ∧ firstTarget lines = some name
  state_eq : ∀ name ∈ g.graph.vertices, (g.rules name).state = 0
  commands_eq : ∀ name ∈ g.graph.vertices, (g.rules name).commands = lastCommands name lines

/-- The parser returns the graph of the makefile. -/
def Parses (fopen : Name → Option (List UInt8)) (makeFileName : Name) (lines : List Line)
    (goals : List Name) : Prop :=
  ∃ g, parserParseMakefile fopen (some makeFileName) goals = .ok g ∧ IsGraphOf lines goals g

/-- The recipe that the last one overrides does not begin at a multiple of `2 ^ 32`. -/
def Overrides (blocks : List (List (ℕ × Name))) : Prop :=
  ∀ front old new, blocks = front ++ [old, new] → ∀ recipe ∈ old.head?, ¬ 2 ^ 32 ∣ recipe.1

variable {g g' : DependencyGraph} {a b name target : Name} {names dependencies : List Name}
  {line : Line} {lines : List Line} {p : State} {n : ℕ}

/-! ## Changes of the graph -/

namespace DependencyGraph

/-- What is no vertex has a new rule. -/
def Fresh (g : DependencyGraph) : Prop :=
  ∀ name ∉ g.graph.vertices, g.rules name = strToRuleConstructor name

/-- The vertices and edges that a change adds. The rules stay. -/
structure Grows (g g' : DependencyGraph) (vertices : Name → Prop) (edges : Name → Name → Prop) :
    Prop where
  mem_vertices : ∀ name, name ∈ g'.graph.vertices ↔ name ∈ g.graph.vertices ∨ vertices name
  adj : ∀ a b, g'.graph.Adj a b ↔ g.graph.Adj a b ∨ edges a b
  rules_eq : g'.rules = g.rules

theorem Grows.fresh {v : Name → Prop} {e : Name → Name → Prop} (h : g.Grows g' v e)
    (hfresh : g.Fresh) : g'.Fresh := by
  intro name hname
  rw [h.rules_eq]
  exact hfresh name fun hmem => hname ((h.mem_vertices name).mpr (.inl hmem))

theorem Grows.trans {g'' : DependencyGraph} {v v' : Name → Prop} {e e' : Name → Name → Prop}
    (h : g.Grows g' v e) (h' : g'.Grows g'' v' e') :
    g.Grows g'' (fun name => v name ∨ v' name) fun a b => e a b ∨ e' a b where
  mem_vertices name := by rw [h'.mem_vertices, h.mem_vertices, or_assoc]
  adj a b := by rw [h'.adj, h.adj, or_assoc]
  rules_eq := h'.rules_eq.trans h.rules_eq

/-- A vertex that may be there already, whose rule is new otherwise. -/
theorem grows_vertex (h : g.Fresh) (name : Name) :
    g.Grows (if name ∈ g.graph.vertices then g else g.setVertexValue name name)
      (fun v => v = name) fun _ _ => False := by
  split_ifs with hname
  · refine ⟨fun v => ⟨.inl, fun hv => hv.elim id fun heq => heq ▸ hname⟩, by simp, rfl⟩
  · refine ⟨fun v => ?_, by simp [setVertexValue], ?_⟩
    · rw [setVertexValue, FinDigraph.mem_addVertex, or_comm]
    · rw [setVertexValue, ← h name hname]
      exact Function.update_eq_self name g.rules

theorem grows_addEdge (ha : a ∈ g.graph.vertices) (hb : b ∈ g.graph.vertices) :
    g.Grows (g.addEdge a b) (fun _ => False) fun v w => v = a ∧ w = b where
  mem_vertices v := by simp [addEdge]
  adj v w := FinDigraph.adj_addEdge ha hb
  rules_eq := rfl

theorem grows_addDependency (h : g.Fresh) (ha : a ∈ g.graph.vertices) (b : Name) :
    g.Grows (g.addDependency a b) (fun name => name = b) fun v w => v = a ∧ w = b := by
  have hvertex := grows_vertex h b
  have ha' := (hvertex.mem_vertices a).mpr (.inl ha)
  have hb' := (hvertex.mem_vertices b).mpr (.inr rfl)
  simpa [addDependency] using hvertex.trans (grows_addEdge ha' hb')

theorem grows_dependencies (h : g.Fresh) (ha : a ∈ g.graph.vertices) (names : List Name) :
    g.Grows (names.foldl (addDependency a) g) (fun name => name ∈ names)
      fun v w => v = a ∧ w ∈ names := by
  induction names generalizing g with
  | nil => exact ⟨by simp, by simp, rfl⟩
  | cons b names ih =>
    have hfirst := grows_addDependency h ha b
    have hrest := ih (hfirst.fresh h) ((hfirst.mem_vertices a).mpr (.inl ha))
    simpa [← and_or_left] using hfirst.trans hrest

end DependencyGraph

open DependencyGraph

theorem grows_addRule (h : p.dependencyGraph.Fresh) (target : Name) (dependencies : List Name) :
    p.dependencyGraph.Grows (p.addRule target dependencies).dependencyGraph
      (fun name => name = target ∨ name ∈ dependencies)
      fun a b => a = target ∧ b ∈ dependencies := by
  have htarget : (p.addTarget target).dependencyGraph =
      if target ∈ p.dependencyGraph.graph.vertices then p.dependencyGraph
      else p.dependencyGraph.setVertexValue target target := by
    rw [State.addTarget]
    split_ifs <;> rfl
  have hvertex := grows_vertex h target
  rw [← htarget] at hvertex
  have hmem := (hvertex.mem_vertices target).mpr (.inr rfl)
  simpa [State.addRule] using hvertex.trans
    (grows_dependencies (hvertex.fresh h) hmem dependencies)

/-! ## Lines -/

/-- The current rule is the rule of a vertex, and other names have new rules. -/
structure State.Valid (p : State) : Prop where
  fresh : p.dependencyGraph.Fresh
  currRule_mem : ∀ name, p.currRule = some name → name ∈ p.dependencyGraph.graph.vertices

theorem rules_init : State.init.dependencyGraph.rules = strToRuleConstructor :=
  Function.update_eq_self [] strToRuleConstructor

theorem State.valid_init : State.init.Valid where
  fresh name _ := by rw [rules_init]
  currRule_mem _ h := absurd h.symm (Option.some_ne_none _)

theorem occurs_cons : Occurs (line :: lines) name ↔ Occurs [line] name ∨ Occurs lines name := by
  simp only [Occurs, List.mem_cons, List.not_mem_nil, or_false, or_and_right, exists_or]

theorem listed_cons : Listed (line :: lines) a b ↔ Listed [line] a b ∨ Listed lines a b := by
  simp only [Listed, List.mem_cons, List.not_mem_nil, or_false, or_and_right, exists_or]

/-- What a line adds to the graph. -/
theorem next_graph (h : p.Valid) (line : Line) :
    (∀ name, name ∈ (p.next line).dependencyGraph.graph.vertices ↔
      name ∈ p.dependencyGraph.graph.vertices ∨ Occurs [line] name) ∧
    ∀ a b, (p.next line).dependencyGraph.graph.Adj a b ↔
      p.dependencyGraph.graph.Adj a b ∨ Listed [line] a b := by
  cases line with
  | blank => simp [State.next, State.count, Occurs, Listed]
  | comment => simp [State.next, State.count, Occurs, Listed]
  | recipe command =>
    have hgraph : (p.next (.recipe command)).dependencyGraph.graph = p.dependencyGraph.graph := by
      rw [State.next]
      split <;> rfl
    simp [hgraph, Occurs, Listed]
  | rule target dependencies =>
    have hgrows := grows_addRule (p := p.count) h.fresh target dependencies
    refine ⟨fun name => (hgrows.mem_vertices name).trans ?_, fun a b => (hgrows.adj a b).trans ?_⟩
    · simp [Occurs, State.count]
    · simp [Listed, State.count, and_comm]

/-- The rule of a name changes with a recipe line of it only. -/
theorem next_rules (h : p.Valid) (line : Line) (name : Name) :
    (p.next line).dependencyGraph.rules name =
      match line with
      | .recipe command =>
        if p.currRule = some name then
          (p.dependencyGraph.rules name).addCommand p.inCommandBlock p.count.lineNumber command
        else p.dependencyGraph.rules name
      | _ => p.dependencyGraph.rules name := by
  cases line with
  | blank => rfl
  | comment => rfl
  | rule target dependencies =>
    exact congrFun (grows_addRule (p := p.count) h.fresh target dependencies).rules_eq name
  | recipe command =>
    dsimp only [State.next]
    cases hcurr : p.currRule with
    | none => rfl
    | some currRule =>
      by_cases hname : currRule = name
      · subst hname
        rw [if_pos rfl]
        exact Function.update_self _ _ _
      · rw [if_neg fun heq => hname (Option.some.inj heq)]
        exact Function.update_of_ne (Ne.symm hname) _ _

theorem next_valid (h : p.Valid) (line : Line) : (p.next line).Valid := by
  have hmem := (next_graph h line).1
  constructor
  · intro name hname
    have hold : name ∉ p.dependencyGraph.graph.vertices := fun hold =>
      hname ((hmem name).mpr (.inl hold))
    rw [next_rules h]
    cases line with
    | recipe command =>
      dsimp only
      rw [if_neg fun hcurr => hold (h.currRule_mem name hcurr), h.fresh name hold]
    | _ => exact h.fresh name hold
  · intro name hcurr
    cases line with
    | rule target dependencies =>
      obtain rfl := Option.some.inj hcurr
      exact (hmem target).mpr (.inr ⟨target, dependencies, List.mem_singleton_self _, .inl rfl⟩)
    | recipe command =>
      refine (hmem name).mpr (.inl (h.currRule_mem name ?_))
      rw [State.next] at hcurr
      split at hcurr <;> exact hcurr
    | _ => exact (hmem name).mpr (.inl (h.currRule_mem name hcurr))

/-- What all lines add to the graph. -/
theorem foldl_next_graph (h : p.Valid) (lines : List Line) :
    (∀ name, name ∈ (lines.foldl State.next p).dependencyGraph.graph.vertices ↔
      name ∈ p.dependencyGraph.graph.vertices ∨ Occurs lines name) ∧
    ∀ a b, (lines.foldl State.next p).dependencyGraph.graph.Adj a b ↔
      p.dependencyGraph.graph.Adj a b ∨ Listed lines a b := by
  induction lines generalizing p with
  | nil => simp [Occurs, Listed]
  | cons line lines ih =>
    obtain ⟨hmem, hadj⟩ := next_graph h line
    obtain ⟨hmem', hadj'⟩ := ih (next_valid h line)
    rw [List.foldl_cons]
    refine ⟨fun name => ?_, fun a b => ?_⟩
    · rw [hmem', hmem, or_assoc, ← occurs_cons]
    · rw [hadj', hadj, or_assoc, ← listed_cons]

/-- The first target stays, once there is one. -/
theorem foldl_next_firstTarget (h : p.firstTarget = some target) (lines : List Line) :
    (lines.foldl State.next p).firstTarget = some target := by
  induction lines generalizing p with
  | nil => exact h
  | cons line lines ih =>
    apply ih
    cases line with
    | rule target' dependencies =>
      show (p.count.addTarget target').firstTarget = some target
      rw [State.addTarget]
      split_ifs
      · exact h
      · show p.firstTarget.or (some target') = some target
        rw [h, Option.some_or]
    | recipe command =>
      rw [State.next]
      split <;> exact h
    | _ => exact h

theorem foldl_next_rule (h : target ≠ []) (lines : List Line) :
    ((Line.rule target dependencies :: lines).foldl State.next State.init).firstTarget =
      some target := by
  rw [List.foldl_cons]
  apply foldl_next_firstTarget
  show (State.init.count.addTarget target).firstTarget = some target
  have hnew : target ∉ State.init.count.dependencyGraph.graph.vertices := fun hmem =>
    h (List.mem_singleton.mp hmem)
  rw [State.addTarget, if_neg hnew]
  rfl

/-! ## Commands -/

/-- The commands of a block are added to a rule. -/
def Rule.addBlock (inCommandBlock : Bool) (rule : Rule) : List (ℕ × Name) → Rule
  | [] => rule
  | (n, command) :: block => (rule.addCommand inCommandBlock n command).addBlock true block

theorem Rule.addCommand_mod (rule : Rule) (inCommandBlock : Bool) (n : ℕ) (command : Name) :
    rule.addCommand inCommandBlock (n % 2 ^ 64) command =
      rule.addCommand inCommandBlock n command := by
  have hmod : toInt ((n % 2 ^ 64 : ℕ) : ℤ) = toInt n := by
    rw [Int.natCast_mod]
    exact toInt_emod n
  rw [Rule.addCommand, Rule.addCommand, hmod]

theorem next_lineNumber (hn : p.lineNumber = n % 2 ^ 64) (line : Line) :
    (p.next line).lineNumber = (n + 1) % 2 ^ 64 := by
  have hcount : p.count.lineNumber = (n + 1) % 2 ^ 64 := by
    rw [State.count, hn, Nat.mod_add_mod]
  rw [← hcount]
  cases line with
  | rule target dependencies =>
    show (p.count.addTarget target).lineNumber = p.count.lineNumber
    rw [State.addTarget]
    split_ifs <;> rfl
  | recipe command =>
    rw [State.next]
    split <;> rfl
  | _ => rfl

/-- The rest of the current block comes first, then the blocks of the rule lines. -/
theorem foldl_next_rules (h : p.Valid) (hn : p.lineNumber = n % 2 ^ 64) (lines : List Line)
    (name : Name) :
    (lines.foldl State.next p).dependencyGraph.rules name =
      (blocks name (n + 1) lines).foldl (Rule.addBlock false)
        (if p.currRule = some name then
          (p.dependencyGraph.rules name).addBlock p.inCommandBlock (recipes (n + 1) lines)
        else p.dependencyGraph.rules name) := by
  induction lines generalizing p n with
  | nil => simp [blocks, recipes, Rule.addBlock]
  | cons line lines ih =>
    have hrules := next_rules h line name
    rw [List.foldl_cons, ih (next_valid h line) (next_lineNumber hn line), hrules]
    cases line with
    | blank => rfl
    | comment => rfl
    | rule target dependencies =>
      -- The current block is over, and the block of this line has no recipe yet.
      have hcurr : (p.next (.rule target dependencies)).currRule = some target := rfl
      have hblock : (p.next (.rule target dependencies)).inCommandBlock = false := rfl
      rw [hcurr, hblock, recipes, Rule.addBlock, ite_self, blocks]
      by_cases htarget : target = name
      · rw [if_pos (congrArg some htarget)]
        by_cases hnil : recipes (n + 1 + 1) lines = []
        · rw [if_neg fun hblocks => hblocks.2 hnil, hnil, Rule.addBlock]
        · rw [if_pos ⟨htarget, hnil⟩, List.foldl_cons]
      · rw [if_neg fun heq => htarget (Option.some.inj heq), if_neg fun heq => htarget heq.1]
    | recipe command =>
      have hcurr : (p.next (.recipe command)).currRule = p.currRule := by
        rw [State.next]
        split <;> rfl
      have hblocks : blocks name (n + 1) (.recipe command :: lines) =
          blocks name (n + 1 + 1) lines := rfl
      rw [hcurr, hblocks, recipes]
      dsimp only
      by_cases hname : p.currRule = some name
      · have hblock : (p.next (.recipe command)).inCommandBlock = true := by
          rw [State.next, hname]
          rfl
        have hcount : p.count.lineNumber = (n + 1) % 2 ^ 64 := next_lineNumber hn .blank
        rw [if_pos hname, if_pos hname, if_pos hname, hblock, hcount, Rule.addCommand_mod,
          Rule.addBlock]
      · rw [if_neg hname, if_neg hname, if_neg hname]

/-- A block is the recipe of a rule, unless the rule has one that it does not know of. -/
theorem Rule.addBlock_cons (rule : Rule) (number : ℕ) (command : Name) (block : List (ℕ × Name)) :
    rule.addBlock false ((number, command) :: block) =
      { rule with
        state := toInt number
        commands := (if rule.state = 0 then rule.commands else []) ++
          command :: block.map Prod.snd } := by
  have hblock : ∀ rule : Rule, rule.addBlock true block =
      { rule with commands := rule.commands ++ block.map Prod.snd } := by
    intro rule
    induction block generalizing rule with
    | nil => simp [Rule.addBlock]
    | cons recipe block ih => simp [Rule.addBlock, ih, Rule.addCommand]
  rw [Rule.addBlock, hblock, Rule.addCommand, if_neg Bool.false_ne_true]
  split_ifs <;> simp

theorem ne_nil_of_mem_blocks {block : List (ℕ × Name)} (h : block ∈ blocks target n lines) :
    block ≠ [] := by
  induction lines generalizing n with
  | nil => exact absurd h List.not_mem_nil
  | cons line lines ih =>
    cases line with
    | rule target' dependencies =>
      rw [blocks] at h
      split_ifs at h with hblock
      · rcases List.mem_cons.mp h with rfl | h
        exacts [hblock.2, ih h]
      · exact ih h
    | _ => exact ih h

theorem occurs_of_blocks (h : blocks target n lines ≠ []) : Occurs lines target := by
  induction lines generalizing n with
  | nil => exact absurd rfl h
  | cons line lines ih =>
    rw [occurs_cons]
    cases line with
    | rule target' dependencies =>
      by_cases htarget : target' = target
      · exact .inl ⟨target', dependencies, List.mem_singleton_self _, .inl htarget.symm⟩
      · rw [blocks, if_neg fun hblock => htarget hblock.1] at h
        exact .inr (ih h)
    | _ => exact .inr (ih h)

/-- The last block alone is left if the rule knows of the one before. -/
theorem foldl_addBlock_iff {blocks : List (List (ℕ × Name))} (hne : ∀ block ∈ blocks, block ≠ [])
    (name : Name) :
    (blocks.foldl (Rule.addBlock false) (strToRuleConstructor name)).commands =
        (blocks.getLast?.getD []).map Prod.snd ↔ Overrides blocks := by
  rw [Overrides]
  induction blocks using List.reverseRecOn with
  | nil => simp [strToRuleConstructor]
  | append_singleton front new _ =>
    obtain ⟨recipe, block, rfl⟩ := List.exists_cons_of_ne_nil (hne new (by simp))
    rw [List.foldl_append, List.foldl_cons, List.foldl_nil, Rule.addBlock_cons,
      List.getLast?_concat, Option.getD_some, List.map_cons, List.append_left_eq_self]
    induction front using List.reverseRecOn with
    | nil =>
      refine iff_of_true (by simp [strToRuleConstructor]) fun front old new heq => ?_
      have hlength := congrArg List.length heq
      simp at hlength
    | append_singleton front old _ =>
      obtain ⟨first, rest, rfl⟩ := List.exists_cons_of_ne_nil (hne old (by simp))
      rw [List.foldl_append, List.foldl_cons, List.foldl_nil, Rule.addBlock_cons]
      have hstate : toInt (first.1 : ℕ) = 0 ↔ 2 ^ 32 ∣ first.1 := by
        rw [toInt_eq_zero_iff]
        exact_mod_cast Int.natCast_dvd_natCast
      generalize toInt first.1 = state at hstate ⊢
      constructor
      · intro hcommands front' old' new' heq recipe' hrecipe hdvd
        rw [show [old', new'] = [old'] ++ [new'] from rfl, ← List.append_assoc] at heq
        obtain ⟨hfront, -⟩ := List.append_inj' heq rfl
        obtain rfl := List.singleton_inj.mp (List.append_inj' hfront rfl).2
        have hrecipe' : first = recipe' := Option.some.inj hrecipe
        subst hrecipe'
        have hzero := hstate.mpr hdvd
        simp [hzero] at hcommands
      · intro h
        have hdvd := h front (first :: rest) (recipe :: block) (by simp) first rfl
        rw [if_neg fun hzero => hdvd (hstate.mp hzero)]

/-! ## The end -/

theorem graph_zeroOutStates (g : DependencyGraph) : g.zeroOutStates.graph = g.graph := by
  have hfold : ∀ (targets : List Name) (g : DependencyGraph), (targets.foldl (fun g target =>
      g.modifyRule target fun rule => { rule with state := 0 }) g).graph = g.graph := by
    intro targets
    induction targets with
    | nil => exact fun _ => rfl
    | cons target targets ih => exact fun g => ih _
  exact hfold g.graph.vertices g

theorem rules_zeroOutStates (h : name ∈ g.graph.vertices) :
    g.zeroOutStates.rules name = { g.rules name with state := 0 } := by
  have hfold : ∀ (targets : List Name) (g : DependencyGraph), (targets.foldl (fun g target =>
      g.modifyRule target fun rule => { rule with state := 0 }) g).rules name =
        if name ∈ targets then { g.rules name with state := 0 } else g.rules name := by
    intro targets
    induction targets with
    | nil => exact fun _ => rfl
    | cons target targets ih =>
      intro g
      rw [List.foldl_cons, ih]
      by_cases htarget : name = target
      · subst htarget
        have hrule : (g.modifyRule name fun rule => { rule with state := 0 }).rules name =
            { g.rules name with state := 0 } := Function.update_self _ _ _
        rw [hrule, if_pos List.mem_cons_self]
        split_ifs <;> rfl
      · have hrule : (g.modifyRule target fun rule => { rule with state := 0 }).rules name =
            g.rules name := Function.update_of_ne htarget _ _
        simp only [hrule, List.mem_cons, htarget, false_or]
  exact (hfold g.graph.vertices g).trans (if_pos h)

/-- Without goals the first target is the only one. -/
theorem chooseGoals_some (first : Name) (goals : List Name) :
    ∃ chosen, chooseGoals (some first) goals = .ok chosen ∧
      ∀ b, b ∈ chosen ↔ b ∈ goals ∨ goals = [] ∧ first = b := by
  cases goals with
  | nil => exact ⟨[first], rfl, by simp [eq_comm]⟩
  | cons goal goals => exact ⟨goal :: goals, rfl, by simp⟩

/-- Goals that are vertices become neighbors of the sentinel. -/
theorem foldlM_addGoal {goals : List Name} (hsentinel : [] ∈ g.graph.vertices)
    (hgoals : ∀ goal ∈ goals, goal ∈ g.graph.vertices) :
    ∃ g', goals.foldlM addGoal g = .ok g' ∧
      g.Grows g' (fun _ => False) fun a b => a = [] ∧ b ∈ goals := by
  induction goals generalizing g with
  | nil => exact ⟨g, rfl, by simp, by simp, rfl⟩
  | cons goal goals ih =>
    obtain ⟨hgoal, hgoals⟩ := List.forall_mem_cons.mp hgoals
    have hgrows := grows_addEdge hsentinel hgoal
    have hmem : ∀ name, name ∈ g.graph.vertices → name ∈ (g.addEdge [] goal).graph.vertices :=
      fun name hname => (hgrows.mem_vertices name).mpr (.inl hname)
    obtain ⟨g', hfold, hgrows'⟩ := ih (hmem [] hsentinel) fun goal' hgoal' =>
      hmem goal' (hgoals goal' hgoal')
    refine ⟨g', ?_, by simpa [← and_or_left] using hgrows.trans hgrows'⟩
    rw [List.foldlM_cons, addGoal, if_pos hgoal]
    exact hfold

theorem Spells.isName {text : List UInt8} (h : Spells lines text)
    (hmem : .rule target dependencies ∈ lines) : IsName target := by
  have hline : ∀ {text}, IsLine (.rule target dependencies) text → IsName target := by
    intro text hline
    cases hline with
    | rule htarget _ => exact htarget
  induction h with
  | nil => exact absurd hmem List.not_mem_nil
  | last hlast _ => exact hline (List.mem_singleton.mp hmem ▸ hlast)
  | cons hfirst _ _ ih =>
    rcases List.mem_cons.mp hmem with rfl | hmem
    exacts [hline hfirst, ih hmem]

section Makefile

variable {fopen : Name → Option (List UInt8)} {makeFileName first : Name} {text : List UInt8}
  {goals : List Name} {rest : List Line}

/-- What the parser returns, whose commands may be wrong. -/
theorem parserParseMakefile_eq (hopen : fopen makeFileName = some text)
    (htext : Spells lines text) (hfirst : lines = .rule first dependencies :: rest)
    (hgoals : ∀ goal ∈ goals, Occurs lines goal) :
    ∃ g, parserParseMakefile fopen (some makeFileName) goals = .ok g ∧
      (∀ name, name ∈ g.graph.vertices ↔ name = [] ∨ Occurs lines name) ∧
      (∀ a b, g.graph.Adj a b ↔
        Listed lines a b ∨ a = [] ∧ (b ∈ goals ∨ goals = [] ∧ first = b)) ∧
      ∀ name ∈ g.graph.vertices, (g.rules name).state = 0 ∧
        ((g.rules name).commands = lastCommands name lines ↔
          Overrides (blocks name 1 lines)) := by
  have hrule : .rule first dependencies ∈ lines := hfirst ▸ List.mem_cons_self
  have htarget : (lines.foldl State.next State.init).firstTarget = some first := by
    rw [hfirst]
    exact foldl_next_rule (htext.isName hrule).ne_nil rest
  have hparse := foldlM_parseLine htext (.inr ⟨first, dependencies, rest, hfirst⟩)
    (p := State.init)
  have hrules := foldl_next_rules State.valid_init (n := 0) rfl lines
  obtain ⟨hmem, hadj⟩ := foldl_next_graph State.valid_init lines
  generalize lines.foldl State.next State.init = p at hparse htarget hrules hmem hadj
  have hvertices : ∀ name, name ∈ p.dependencyGraph.graph.vertices ↔
      name = [] ∨ Occurs lines name := fun name => (hmem name).trans
    (or_congr_left List.mem_singleton)
  have hedges : ∀ a b, p.dependencyGraph.graph.Adj a b ↔ Listed lines a b := fun a b =>
    (hadj a b).trans (or_iff_right List.not_mem_nil)
  have hsentinel : [] ∈ p.dependencyGraph.graph.vertices := (hvertices []).mpr (.inl rfl)
  obtain ⟨chosen, hchosen, hsome⟩ := chooseGoals_some first goals
  rw [← htarget] at hchosen
  have hknown : ∀ goal ∈ chosen, goal ∈ p.dependencyGraph.graph.vertices := by
    intro goal hgoal
    apply (hvertices goal).mpr
    rcases (hsome goal).mp hgoal with hgoal | ⟨-, rfl⟩
    exacts [.inr (hgoals goal hgoal), .inr ⟨first, dependencies, hrule, .inl rfl⟩]
  obtain ⟨g, hfold, hgrows⟩ := foldlM_addGoal hsentinel hknown
  refine ⟨g.zeroOutStates, ?_, ?_, ?_, ?_⟩
  · simp only [parserParseMakefile, openMakefile, hopen, hparse, hchosen, hfold, bind, Except.bind,
      pure, Except.pure]
  · intro name
    rw [graph_zeroOutStates, hgrows.mem_vertices, hvertices, or_false]
  · intro a b
    rw [graph_zeroOutStates, hgrows.adj, hedges, hsome]
  · intro name hname
    rw [graph_zeroOutStates] at hname
    rw [rules_zeroOutStates hname, hgrows.rules_eq, hrules, rules_init]
    exact ⟨rfl, foldl_addBlock_iff (fun _ => ne_nil_of_mem_blocks) name⟩

-- The makefile in the comment of `parser.h`, without goals.
example : (parserParseMakefile (fun _ => some [97, 58, 32, 99, 32, 98, 10, 10, 98, 58, 10, 10,
    99, 58, 10]) (some [109]) []).toOption.map (fun g => g.graph.edges) =
      some [([97], [99]), ([97], [98]), ([], [97])] := by decide

/-- The parser returns the graph exactly where it knows of all recipes that are overridden. -/
theorem parses_iff (hopen : fopen makeFileName = some text) (htext : Spells lines text)
    (hfirst : ∃ first dependencies rest, lines = .rule first dependencies :: rest)
    (hgoals : ∀ goal ∈ goals, Occurs lines goal) :
    Parses fopen makeFileName lines goals ↔ ∀ target, Overrides (blocks target 1 lines) := by
  obtain ⟨first, dependencies, rest, hfirst⟩ := hfirst
  obtain ⟨g, hparse, hvertices, hedges, hrules⟩ :=
    parserParseMakefile_eq hopen htext hfirst hgoals
  constructor
  · rintro ⟨g', hparse', hgraph⟩ target
    obtain rfl := Except.ok.inj (hparse.symm.trans hparse')
    by_cases hnone : blocks target 1 lines = []
    · rw [hnone]
      simp [Overrides]
    · have hmem := (hvertices target).mpr (.inr (occurs_of_blocks hnone))
      exact (hrules target hmem).2.mp (hgraph.commands_eq target hmem)
  · intro hoverrides
    refine ⟨g, hparse, hvertices, ?_, ?_, fun name hname => (hrules name hname).1,
      fun name hname => (hrules name hname).2.mpr (hoverrides name)⟩
    · intro target name htarget
      rw [hedges, or_iff_left fun h => htarget h.1]
    · intro name
      have hnone : ¬ Listed lines [] name := by
        rintro ⟨dependencies', hmem, -⟩
        exact (htext.isName hmem).ne_nil rfl
      rw [hedges, or_iff_right hnone, hfirst]
      simp [firstTarget]

/-- `"a: b\n\tx\n"` -/
theorem parses_iff_oneRule :
    Parses (fun _ => some [97, 58, 32, 98, 10, 9, 120, 10]) [109]
      [.rule [97] [[98]], .recipe [120]] [] := by
  have hdependencies : Separated [[98]] [32, 32, 98] := .cons 1 (isName_singleton rfl) (.nil 0)
  have hrule : IsLine (.rule [97] [[98]]) [97, 58, 32, 98] :=
    .rule (isName_singleton rfl) hdependencies
  have htext : Spells [.rule [97] [[98]], .recipe [120]] [97, 58, 32, 98, 10, 9, 120, 10] :=
    .cons hrule (.inl rfl) (.cons (.recipe (isCommand_singleton rfl)) (.inl rfl) .nil)
  refine (parses_iff rfl htext ⟨_, _, _, rfl⟩ (by simp)).mpr fun target front old new heq => ?_
  have hlength := congrArg List.length heq
  simp [blocks, recipes] at hlength
  split_ifs at hlength
  simp at hlength

/-! ## A long makefile -/

/-- Two rule lines for one target, with `m` blank lines in front of the first recipe. -/
def overridden (m : ℕ) : List Line :=
  .rule [97] [] :: (List.replicate m .blank ++
    [.recipe [120], .rule [97] [], .recipe [121]])

/-- `"a:\n"`, the blank lines and `"\tx\na:\n\ty\n"`. -/
def overriddenText (m : ℕ) : List UInt8 :=
  [97, 58, 10] ++ (List.replicate m 10 ++ [9, 120, 10, 97, 58, 10, 9, 121, 10])

theorem spells_blanks (h : Spells lines text) (m : ℕ) :
    Spells (List.replicate m .blank ++ lines) (List.replicate m 10 ++ text) := by
  induction m with
  | zero => exact h
  | succ m ih =>
    have hblank : IsLine .blank [] := .blank (by simp)
    have hcons : Spells (.blank :: (List.replicate m .blank ++ lines))
        ([] ++ [10] ++ (List.replicate m 10 ++ text)) := .cons hblank (.inl rfl) ih
    exact hcons

theorem spells_overridden (m : ℕ) : Spells (overridden m) (overriddenText m) := by
  have hrule : IsLine (.rule [97] []) [97, 58] := .rule (isName_singleton rfl) (.nil 1)
  have hrecipe : ∀ c, Ctype.isAlpha c = true → IsLine (.recipe [c]) [9, c] := fun _ hc =>
    .recipe (isCommand_singleton hc)
  have hend : Spells [.recipe [120], .rule [97] [], .recipe [121]]
      [9, 120, 10, 97, 58, 10, 9, 121, 10] :=
    .cons (hrecipe 120 rfl) (.inl rfl) (.cons hrule (.inl rfl)
      (.cons (hrecipe 121 rfl) (.inl rfl) .nil))
  exact .cons hrule (.inl rfl) (spells_blanks hend m)

theorem recipes_blanks (n m : ℕ) (lines : List Line) :
    recipes n (List.replicate m .blank ++ lines) = recipes (n + m) lines := by
  induction m generalizing n with
  | zero => rfl
  | succ m ih => exact (ih (n + 1)).trans (by rw [Nat.add_right_comm, Nat.add_assoc])

theorem blocks_blanks (target : Name) (n m : ℕ) (lines : List Line) :
    blocks target n (List.replicate m .blank ++ lines) = blocks target (n + m) lines := by
  induction m generalizing n with
  | zero => rfl
  | succ m ih => exact (ih (n + 1)).trans (by rw [Nat.add_right_comm, Nat.add_assoc])

theorem blocks_overridden (m : ℕ) :
    blocks [97] 1 (overridden m) = [[(m + 2, [120])], [(m + 4, [121])]] := by
  simp only [overridden, blocks, recipes_blanks, blocks_blanks, recipes]
  simp
  omega

/-- Both commands are left where the first is in a line with such a number. -/
theorem not_parses_overridden {m : ℕ} (hopen : fopen makeFileName = some (overriddenText m))
    (hm : 2 ^ 32 ∣ m + 2) : ¬ Parses fopen makeFileName (overridden m) [] := by
  rintro ⟨g, hparse, hgraph⟩
  obtain ⟨g', hparse', hvertices, -, hrules⟩ := parserParseMakefile_eq hopen
    (spells_overridden m) rfl (List.forall_mem_nil _)
  obtain rfl := Except.ok.inj (hparse'.symm.trans hparse)
  have hmem := (hvertices [97]).mpr (.inr ⟨[97], [], List.mem_cons_self, .inl rfl⟩)
  have hoverrides := (hrules [97] hmem).2.mp (hgraph.commands_eq [97] hmem)
  rw [blocks_overridden] at hoverrides
  exact hoverrides [] _ _ rfl (m + 2, [120]) rfl hm

/-- `2 ^ 32 - 2` blank lines are enough. -/
theorem not_parses : Spells (overridden 4294967294) (overriddenText 4294967294) ∧
    ¬ Parses (fun _ => some (overriddenText 4294967294)) [109] (overridden 4294967294) [] :=
  ⟨spells_overridden 4294967294, not_parses_overridden rfl ⟨1, rfl⟩⟩

end Makefile

end Cs241.Parser
