import Cs241.Parmake.Parallel
import Cs241.Parser.Graphs

/-!
# From the text to the commands

`parmake` hands the graph of the parser to the workers. Whatever the text, that graph
has the sentinel, without commands, among its vertices. So a text that spells some
lines is made as the lines say: the goals, what they list and what that lists, with
the last recipe of each target.
-/
namespace Cs241.Parmake

open Cs241.Parser Ctype Foundation Relation

/-! ## Every graph of the parser -/

/-- The sentinel is there, and is no target of a rule line. -/
structure WellFormed (g : DependencyGraph) : Prop where
  nodup : g.graph.vertices.Nodup
  sentinel_mem : [] ∈ g.graph.vertices
  sentinel_commands : (g.rules []).commands = []

/-- What `parmake` knows of the makefile. -/
def makefileOf (g : DependencyGraph) (h : WellFormed g) : Makefile Name Name where
  graph := g.graph
  nodup := h.nodup
  commands rule := (g.rules rule).commands
  sentinel := []
  sentinel_mem := h.sentinel_mem
  sentinel_commands := h.sentinel_commands

namespace WellFormed

variable {g : DependencyGraph} {name a b : Name}

theorem setVertexValue (h : WellFormed g) (hname : name ≠ []) (value : Name) :
    WellFormed (g.setVertexValue name value) where
  nodup := by
    unfold DependencyGraph.setVertexValue FinDigraph.addVertex
    dsimp only
    split_ifs with hmem
    · exact h.nodup
    · exact List.nodup_append_comm.mpr (List.nodup_cons.mpr ⟨hmem, h.nodup⟩)
  sentinel_mem := (FinDigraph.mem_addVertex _).mpr (.inr h.sentinel_mem)
  sentinel_commands := by
    change (Function.update g.rules name _ []).commands = []
    rw [Function.update_of_ne (Ne.symm hname)]
    exact h.sentinel_commands

theorem addEdge (h : WellFormed g) (a b : Name) : WellFormed (g.addEdge a b) where
  nodup := by
    change (g.graph.addEdge a b).vertices.Nodup
    rw [FinDigraph.vertices_addEdge]
    exact h.nodup
  sentinel_mem := by
    change [] ∈ (g.graph.addEdge a b).vertices
    rw [FinDigraph.vertices_addEdge]
    exact h.sentinel_mem
  sentinel_commands := h.sentinel_commands

theorem modifyRule (h : WellFormed g) (hname : name ≠ []) (f : Rule → Rule) :
    WellFormed (g.modifyRule name f) where
  nodup := h.nodup
  sentinel_mem := h.sentinel_mem
  sentinel_commands := by
    change (Function.update g.rules name _ []).commands = []
    rw [Function.update_of_ne (Ne.symm hname)]
    exact h.sentinel_commands

theorem addDependency (h : WellFormed g) (a b : Name) : WellFormed (g.addDependency a b) := by
  unfold DependencyGraph.addDependency
  split_ifs with hmem
  · exact h.addEdge a b
  · have hb : b ≠ [] := by
      rintro rfl
      exact hmem h.sentinel_mem
    exact (h.setVertexValue hb b).addEdge a b

theorem zeroOutStates (h : WellFormed g) : WellFormed g.zeroOutStates where
  nodup := by
    rw [graph_zeroOutStates]
    exact h.nodup
  sentinel_mem := by
    rw [graph_zeroOutStates]
    exact h.sentinel_mem
  sentinel_commands := by
    rw [rules_zeroOutStates h.sentinel_mem]
    exact h.sentinel_commands

end WellFormed

/-- What the loop over the lines keeps: the current rule is not that of the sentinel. -/
structure Reading (p : State) : Prop where
  wellFormed : WellFormed p.dependencyGraph
  currRule_ne : p.currRule ≠ some []

theorem reading_init : Reading State.init where
  wellFormed := ⟨by decide, by decide, by decide⟩
  currRule_ne := by decide

/-- A line that is taken for a rule line has a target. -/
theorem target_ne_nil {line : Name} (h : isMakefileTarget line = true) :
    terminateWhitespace (line.takeWhile fun c => c ≠ 58) ≠ [] := by
  cases line with
  | nil => simp [isMakefileTarget] at h
  | cons c rest =>
    have hname : isNameChar c = true := by
      simp only [isMakefileTarget, List.head?_cons, Option.any_some, Bool.or_eq_true] at h
      simp only [isNameChar, Bool.or_eq_true]
      tauto
    have hcolon : c ≠ 58 := ne_of_isNameChar hname rfl
    simp [terminateWhitespace, hcolon, isSpace_of_isNameChar hname]

namespace Reading

variable {p q : State}

theorem addRule {line : Name} (h : Reading p) (hline : line ≠ []) (dependencies : List Name) :
    Reading (p.addRule line dependencies) where
  wellFormed := by
    have htarget : WellFormed (p.addTarget line).dependencyGraph := by
      unfold State.addTarget
      split_ifs
      exacts [h.wellFormed, h.wellFormed.setVertexValue hline line]
    unfold State.addRule
    dsimp only
    generalize (p.addTarget line).dependencyGraph = g at htarget
    induction dependencies generalizing g with
    | nil => exact htarget
    | cons dependency dependencies ih => exact ih _ (htarget.addDependency line dependency)
  currRule_ne := fun heq => hline (Option.some.inj heq)

theorem parseLine {text : List UInt8} (h : Reading p) (hparse : p.parseLine text = .ok q) :
    Reading q := by
  have hcount : Reading p.count := ⟨h.wellFormed, h.currRule_ne⟩
  unfold State.parseLine at hparse
  dsimp only at hparse
  split_ifs at hparse
  · obtain rfl := Except.ok.inj hparse
    exact hcount
  · unfold State.parseNonempty at hparse
    split_ifs at hparse with htab htarget
    · cases hcurr : p.count.currRule with
      | none => simp [hcurr] at hparse
      | some currRule =>
        rw [hcurr] at hparse
        obtain rfl := Except.ok.inj hparse
        have hne : currRule ≠ [] := by
          rintro rfl
          exact hcount.currRule_ne hcurr
        refine ⟨?_, hcount.currRule_ne⟩
        exact hcount.wellFormed.modifyRule hne fun rule =>
          rule.addCommand p.count.inCommandBlock p.count.lineNumber _
    · split at hparse
      · simp at hparse
      · obtain rfl := Except.ok.inj hparse
        exact hcount.addRule (target_ne_nil htarget) _

end Reading

/-- Whatever the text and the goals, the parser returns a graph that the workers can start with. -/
theorem wellFormed_parse {fopen : Name → Option (List UInt8)} {file : Option Name}
    {goals : List Name} {g : DependencyGraph}
    (hparse : parserParseMakefile fopen file goals = .ok g) : WellFormed g := by
  unfold parserParseMakefile at hparse
  cases hopen : openMakefile fopen file goals with
  | error e => simp [hopen, bind, Except.bind] at hparse
  | ok text =>
    cases hlines : (getlines [] text).foldlM State.parseLine State.init with
    | error e => simp [hopen, hlines, bind, Except.bind] at hparse
    | ok p =>
      cases hchosen : chooseGoals p.firstTarget goals with
      | error e => simp [hopen, hlines, hchosen, bind, Except.bind] at hparse
      | ok chosen =>
        cases hfold : chosen.foldlM addGoal p.dependencyGraph with
        | error e => simp [hopen, hlines, hchosen, hfold, bind, Except.bind] at hparse
        | ok g' =>
          simp only [hopen, hlines, hchosen, hfold, bind, Except.bind, pure, Except.pure] at hparse
          obtain rfl := Except.ok.inj hparse
          have hread : Reading p := (Run.of_fold_ok hlines).invariant reading_init
            fun hp hline => hp.parseLine hline
          have hgoals : WellFormed g' := by
            refine (Run.of_fold_ok hfold).invariant hread.wellFormed fun {g goal g'} hg hgoal => ?_
            unfold addGoal at hgoal
            split_ifs at hgoal
            obtain rfl := Except.ok.inj hgoal
            exact hg.addEdge [] goal
          exact hgoals.zeroOutStates

/-! ## Makefiles that spell some lines -/

/-- What the lines and the goals ask for; without goals, the first target. -/
def textPlan (lines : List Line) (goals : List Name) : Plan Name Name where
  depends := Listed lines
  commands rule := lastCommands rule lines
  wanted rule := ∃ goal, (goal ∈ goals ∨ goals = [] ∧ firstTarget lines = some goal) ∧
    ReflTransGen (Listed lines) goal rule

/-- No name is a file, and the commands of a target make no file but that. -/
structure NoFiles {F : Type*} (lines : List Line) (env : Env Name Name F) (files : F) : Prop where
  start : ∀ name, name = [] ∨ Occurs lines name → env.mtime files name = none
  kept : ∀ rule, ∀ c ∈ lastCommands rule lines, ∀ f, ∀ name, name = [] ∨ Occurs lines name →
    name ≠ rule → env.mtime f name = none → env.mtime (env.effect c f) name = none

variable {lines : List Line} {goals : List Name} {text : List UInt8} {a b name : Name}
  {g : DependencyGraph}

theorem mem_separated {names : List Name} {rest : List UInt8} (h : Separated names rest)
    (hname : name ∈ names) : name ≠ [] := by
  induction h with
  | nil n => simp at hname
  | cons n hfirst _ ih =>
    rcases List.mem_cons.mp hname with rfl | hmem
    exacts [hfirst.ne_nil, ih hmem]

theorem occurs_ne_nil (htext : Spells lines text) (h : Occurs lines name) : name ≠ [] := by
  obtain ⟨target, dependencies, hrule, hname⟩ := h
  have hline : ∀ {text}, IsLine (.rule target dependencies) text → name ≠ [] := by
    intro text hline
    cases hline with
    | rule htarget hdependencies =>
      rcases hname with rfl | hmem
      exacts [htarget.ne_nil, mem_separated hdependencies hmem]
  induction htext with
  | nil => simp at hrule
  | last hlast _ => exact hline (List.mem_singleton.mp hrule ▸ hlast)
  | cons hfirst _ _ ih =>
    rcases List.mem_cons.mp hrule with rfl | hrest
    exacts [hline hfirst, ih hrest]

theorem occurs_of_listed (h : Listed lines a b) : Occurs lines b := by
  obtain ⟨dependencies, hrule, hb⟩ := h
  exact ⟨a, dependencies, hrule, .inr hb⟩

theorem occurs_firstTarget (h : firstTarget lines = some name) : Occurs lines name := by
  induction lines with
  | nil => simp [firstTarget] at h
  | cons line lines ih =>
    cases line with
    | rule target dependencies =>
      obtain rfl := Option.some.inj h
      exact ⟨target, dependencies, List.mem_cons_self, .inl rfl⟩
    | _ => exact occurs_cons.mpr (.inr (ih h))

section Text

variable (hgraph : IsGraphOf lines goals g) (hnames : ∀ name, Occurs lines name → name ≠ [])
include hgraph hnames

/-- From a target on, the paths of the graph are those of the lines. -/
theorem reaches_iff (ha : a ≠ []) :
    ReflTransGen g.graph.Adj a b ↔ ReflTransGen (Listed lines) a b := by
  constructor
  · intro h
    suffices hboth : ReflTransGen (Listed lines) a b ∧ b ≠ [] from hboth.1
    induction h with
    | refl => exact ⟨.refl, ha⟩
    | tail _ hstep ih =>
      have hlisted := (hgraph.adj _ _ ih.2).mp hstep
      exact ⟨ih.1.tail hlisted, hnames _ (occurs_of_listed hlisted)⟩
  · intro h
    suffices hboth : ReflTransGen g.graph.Adj a b ∧ b ≠ [] from hboth.1
    induction h with
    | refl => exact ⟨.refl, ha⟩
    | tail _ hstep ih =>
      exact ⟨ih.1.tail ((hgraph.adj _ _ ih.2).mpr hstep), hnames _ (occurs_of_listed hstep)⟩

theorem needed_iff (h : WellFormed g) (hgoals : ∀ goal ∈ goals, Occurs lines goal) :
    Needed (makefileOf g h) name ↔ (textPlan lines goals).wanted name := by
  refine exists_congr fun goal => ?_
  have hadj : goal ∈ g.graph.neighbors [] ↔
      goal ∈ goals ∨ goals = [] ∧ firstTarget lines = some goal :=
    (FinDigraph.mem_neighbors _).trans (hgraph.adj_sentinel goal)
  refine (and_congr_left' hadj).trans (and_congr_right fun hgoal => ?_)
  apply reaches_iff hgraph hnames
  apply hnames
  rcases hgoal with hgoal | ⟨-, hfirst⟩
  exacts [hgoals goal hgoal, occurs_firstTarget hfirst]

theorem noGoalCycle_of_listed (h : WellFormed g) (hgoals : ∀ goal ∈ goals, Occurs lines goal)
    (hac : ∀ rule, (textPlan lines goals).wanted rule → ¬ TransGen (Listed lines) rule rule) :
    NoGoalCycle (makefileOf g h) := by
  intro goal hgoal v hreach hcycle
  have hwanted := (needed_iff hgraph hnames h hgoals).mp ⟨goal, hgoal, hreach⟩
  obtain ⟨u, hstep, hback⟩ := TransGen.head'_iff.mp hcycle
  have hv : v ≠ [] := by
    rintro rfl
    obtain ⟨start, hstart, hpath⟩ := hwanted
    cases hpath with
    | refl =>
      rcases hstart with hstart | ⟨-, hfirst⟩
      exacts [hnames _ (hgoals _ hstart) rfl, hnames _ (occurs_firstTarget hfirst) rfl]
    | tail _ hlast => exact hnames _ (occurs_of_listed hlast) rfl
  have hlisted : Listed lines v u := (hgraph.adj v u hv).mp hstep
  have hu : u ≠ [] := hnames u (occurs_of_listed hlisted)
  exact hac v hwanted (.head' hlisted ((reaches_iff hgraph hnames hu).mp hback))

/-- What keeps to the plan of the graph keeps to that of the lines. -/
theorem kept_of_graph (h : WellFormed g) (hgoals : ∀ goal ∈ goals, Occurs lines goal)
    {log : List (Event Name Name)} (hkept : (makefileOf g h).plan.Kept log) :
    (textPlan lines goals).Kept log where
  ordered := by
    intro later r c earlier heq dep hlisted
    have hr : r ≠ [] := by
      obtain ⟨dependencies, hrule, -⟩ := hlisted
      exact hnames r ⟨r, dependencies, hrule, .inl rfl⟩
    have hadj : g.graph.Adj r dep := (hgraph.adj r dep hr).mpr hlisted
    have hrun := hkept.ordered later r c earlier heq dep ((FinDigraph.mem_neighbors _).mpr hadj)
    exact hrun.trans (hgraph.commands_eq dep hadj.right_mem)
  part := by
    intro rule
    by_cases hneed : Needed (makefileOf g h) rule
    · have hcommands : (makefileOf g h).plan.commands rule = (textPlan lines goals).commands rule :=
        hgraph.commands_eq rule hneed.mem
      rw [← hcommands]
      exact hkept.part rule
    · rw [hkept.only rule hneed]
      exact List.nil_prefix
  only rule hrule := hkept.only rule fun hneed =>
    hrule ((needed_iff hgraph hnames h hgoals).mp hneed)

theorem done_of_graph (h : WellFormed g) (hgoals : ∀ goal ∈ goals, Occurs lines goal)
    {log : List (Event Name Name)} (hdone : (makefileOf g h).plan.Done log) :
    (textPlan lines goals).Done log := by
  intro rule hrule
  have hneed := (needed_iff hgraph hnames h hgoals).mpr hrule
  exact (hdone rule hneed).trans (hgraph.commands_eq rule hneed.mem)

end Text

section Workers

variable {F I : Type*} [Fintype I] [DecidableEq I] (env : Env Name Name F) (files : F)
  (fopen : Name → Option (List UInt8)) (makeFileName : Name) (goals : List Name)

theorem parses_of_overrides (hopen : fopen makeFileName = some text) (htext : Spells lines text)
    (hfirst : ∃ first dependencies rest, lines = .rule first dependencies :: rest)
    (hgoals : ∀ goal ∈ goals, Occurs lines goal)
    (hoverrides : ∀ target, Overrides (blocks target 1 lines)) :
    Parses fopen makeFileName lines goals := by
  obtain ⟨first, dependencies, rest, hfirst⟩ := hfirst
  obtain ⟨g, hparse, hvertices, hedges, hrules⟩ :=
    parserParseMakefile_eq hopen htext hfirst hgoals
  have hnone : ∀ name, ¬ Listed lines [] name := by
    rintro name ⟨names, hmem, -⟩
    exact occurs_ne_nil htext ⟨[], names, hmem, .inl rfl⟩ rfl
  exact ⟨g, hparse,
    { mem_vertices := hvertices
      adj := fun target name htarget => by rw [hedges, or_iff_left fun h => htarget h.1]
      adj_sentinel := fun name => by
        rw [hedges, or_iff_right (hnone name), hfirst]
        simp [firstTarget]
      state_eq := fun name hname => (hrules name hname).1
      commands_eq := fun name hname => (hrules name hname).2.mpr (hoverrides name) }⟩

/-- A makefile that spells some lines without a cycle is made by several workers as the lines say,
if no command fails, no name is a file and no test of a rule is disturbed. -/
theorem run_builds [Nonempty I] (hopen : fopen makeFileName = some text)
    (htext : Spells lines text)
    (hfirst : ∃ first dependencies rest, lines = .rule first dependencies :: rest)
    (hgoals : ∀ goal ∈ goals, Occurs lines goal)
    (hoverrides : ∀ target, Overrides (blocks target 1 lines))
    (hac : ∀ rule, (textPlan lines goals).wanted rule → ¬ TransGen (Listed lines) rule rule)
    (hfiles : NoFiles lines env files)
    (hstatus : ∀ rule, ∀ c ∈ lastCommands rule lines, env.status c = 0) :
    ∃ (g : DependencyGraph) (w₀ : World Name Name F)
      (hparse : parserParseMakefile fopen (some makeFileName) goals = .ok g),
      loadRules (makefileOf g (wellFormed_parse hparse)) files = some w₀ ∧
      ∃ bound, ∀ (workers : List I) (s : Workers I Name Name F),
        Run (Guarded (WorkerStep (makefileOf g (wellFormed_parse hparse)) env) TestGuard)
          (.start w₀) workers s →
        workers.length ≤ bound ∧ (textPlan lines goals).Kept s.world.log ∧
        ((∀ i, s.next (makefileOf g (wellFormed_parse hparse)) env i = none) →
          (∀ i, s.point i = .returned) ∧ (textPlan lines goals).Done s.world.log) := by
  obtain ⟨g, hparse, hgraph⟩ := parses_of_overrides fopen makeFileName goals hopen htext hfirst
    hgoals hoverrides
  have hnames : ∀ name, Occurs lines name → name ≠ [] := fun _ => occurs_ne_nil htext
  have hformed := wellFormed_parse hparse
  obtain ⟨w₀, hload⟩ := Option.isSome_iff_exists.mp
    (loadRules_returns (makefileOf g hformed) files)
  have hnofiles : NoTargetFiles (makefileOf g hformed) env files := by
    refine ⟨fun t ht => hfiles.start t ((hgraph.mem_vertices t).mp ht), ?_⟩
    intro r hr c hc f t ht hne hnone
    refine hfiles.kept r c ?_ f t ((hgraph.mem_vertices t).mp ht) hne hnone
    exact hgraph.commands_eq r hr ▸ hc
  have hzero : ∀ r ∈ (makefileOf g hformed).graph.vertices,
      ∀ c ∈ (makefileOf g hformed).commands r, env.status c = 0 := by
    intro r hr c hc
    exact hstatus r c (hgraph.commands_eq r hr ▸ hc)
  have hac := noGoalCycle_of_listed hgraph hnames hformed hgoals hac
  refine ⟨g, w₀, hparse, hload,
    (Workers.start w₀ : Workers I Name Name F).steps (makefileOf g hformed), fun workers s hr => ?_⟩
  have hlength := (run_invariant hac hnofiles hzero hload hr).2
  obtain ⟨hkept, hend⟩ := keeps_of_run hac hnofiles hzero hload hr
  refine ⟨by omega, kept_of_graph hgraph hnames hformed hgoals hkept, fun hstuck => ?_⟩
  obtain ⟨hreturned, hdone⟩ := hend hstuck
  exact ⟨hreturned, done_of_graph hgraph hnames hformed hgoals hdone⟩

end Workers

/-! ## A target with a dependency -/

/-- `"a: b\n\tx\n"` -/
def oneRuleText : List UInt8 := [97, 58, 32, 98, 10, 9, 120, 10]

def oneRule : List Line := [.rule [97] [[98]], .recipe [120]]

def oneRuleGraph : DependencyGraph :=
  ((parserParseMakefile (fun _ => some oneRuleText) (some [109]) []).toOption).getD .create

/-- Files are never touched, and every command succeeds. -/
def succeeding : Env Name Name Unit where
  status _ := 0
  effect _ files := files
  mtime _ _ := none

theorem spells_oneRule : Spells oneRule oneRuleText := by
  have hdependencies : Separated [[98]] [32, 32, 98] := .cons 1 (isName_singleton rfl) (.nil 0)
  have hrule : IsLine (.rule [97] [[98]]) [97, 58, 32, 98] :=
    .rule (isName_singleton rfl) hdependencies
  exact .cons hrule (.inl rfl) (.cons (.recipe (isCommand_singleton rfl)) (.inl rfl) .nil)

theorem overrides_oneRule (target : Name) : Overrides (blocks target 1 oneRule) := by
  intro front old new heq
  have hlength := congrArg List.length heq
  simp [oneRule, blocks, recipes] at hlength
  split_ifs at hlength
  simp at hlength

theorem not_cycle_oneRule (rule : Name) : ¬ TransGen (Listed oneRule) rule rule := by
  have hlisted : ∀ {a b}, Listed oneRule a b → a = [97] ∧ b = [98] := by
    rintro a b ⟨dependencies, hrule, hb⟩
    simp only [oneRule, List.mem_cons, Line.rule.injEq, reduceCtorEq, List.not_mem_nil,
      or_false] at hrule
    obtain ⟨rfl, rfl⟩ := hrule
    exact ⟨rfl, List.mem_singleton.mp hb⟩
  intro hcycle
  obtain ⟨u, hfirst, -⟩ := TransGen.head'_iff.mp hcycle
  obtain ⟨v, -, hlast⟩ := TransGen.tail'_iff.mp hcycle
  have heq := (hlisted hfirst).1.symm.trans (hlisted hlast).2
  simp at heq

theorem wellFormed_oneRule : WellFormed oneRuleGraph := ⟨by decide, by decide, by decide⟩

/-- One worker makes `b`, the other runs the recipe of `a`. -/
theorem run_builds_oneRule : ∃ s : Workers (Fin 2) Name Name Unit,
    s.executed = [[97], [98]] ∧ (∀ i, s.point i = .returned) ∧
      (textPlan oneRule []).Done s.world.log := by
  obtain ⟨g, w₀, hparse, hload, bound, hbound⟩ := run_builds (I := Fin 2) succeeding ()
    (fun _ => some oneRuleText) [109] [] rfl spells_oneRule ⟨_, _, _, rfl⟩ (by simp)
    overrides_oneRule
    (fun rule _ => not_cycle_oneRule rule) ⟨fun _ _ => rfl, fun _ _ _ _ _ _ _ _ => rfl⟩
    fun _ _ _ => rfl
  obtain rfl : oneRuleGraph = g := by rw [oneRuleGraph, hparse]; rfl
  have hfold : ((loadRules (makefileOf oneRuleGraph wellFormed_oneRule) ()).bind fun w =>
      ((twoWorkers [(17, 0), (19, 1), (2, 0)]).foldlM (fun s i => if TestGuard s i then
        s.next (makefileOf oneRuleGraph wellFormed_oneRule) succeeding i else none)
          (Workers.start w)).map fun s => (s.executed, s.point 0, s.point 1)) =
        some ([[97], [98]], .returned, .returned) := by
    decide +kernel
  rw [show loadRules (makefileOf oneRuleGraph wellFormed_oneRule) () = some w₀ from hload,
    Option.bind_some] at hfold
  obtain ⟨s, hs, heq⟩ := Option.map_eq_some_iff.mp hfold
  obtain ⟨hexecuted, hpoints⟩ := Prod.mk.inj heq
  obtain ⟨hzero, hone⟩ := Prod.mk.inj hpoints
  have hpoint : ∀ i, s.point i = .returned := Fin.forall_fin_two.mpr ⟨hzero, hone⟩
  obtain ⟨-, -, hend⟩ := hbound _ s (Run.of_foldlM hs)
  refine ⟨s, hexecuted, hend fun i => ?_⟩
  rw [Workers.next, hpoint i]
  rfl

end Cs241.Parmake
