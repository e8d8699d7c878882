import Mathlib.Data.List.DropRight
import Cs241.Foundation.Ctype
import Cs241.Foundation.FinDigraph
import Cs241.Foundation.Integers

/-!
# The parser of `parallel_make/parser.c`

A makefile is a text of bytes that is read line by line. The graph is the dictionary that
`graph.h` describes, from targets to rules; a name that is no vertex has the rule that the
constructor would give to it. The warnings on an overridden recipe are left out.
-/
namespace Cs241.Parser

open Foundation Ctype

/-- A string of C, without its end. -/
abbrev Name := List UInt8

/-- A `rule_t`. Its `data` is for the user. -/
structure Rule where
  target : Name
  commands : List Name
  state : ℤ
deriving DecidableEq

/-- `str_to_rule_constructor(s)` -/
def strToRuleConstructor (s : Name) : Rule := { target := s, commands := [], state := 0 }

structure DependencyGraph where
  graph : FinDigraph Name
  rules : Name → Rule

namespace DependencyGraph

variable (g : DependencyGraph)

def create : DependencyGraph := { graph := .empty, rules := strToRuleConstructor }

/-- `graph_set_vertex_value(g, key, value)` -/
def setVertexValue (key value : Name) : DependencyGraph :=
  { graph := g.graph.addVertex key
    rules := Function.update g.rules key (strToRuleConstructor value) }

/-- `graph_add_edge(g, s, t)` -/
def addEdge (s t : Name) : DependencyGraph := { g with graph := g.graph.addEdge s t }

/-- A change of a rule through the pointer to it. -/
def modifyRule (target : Name) (f : Rule → Rule) : DependencyGraph :=
  { g with rules := Function.update g.rules target (f (g.rules target)) }

/-- `zero_out_states(g)` -/
def zeroOutStates : DependencyGraph :=
  g.graph.vertices.foldl (fun g target => g.modifyRule target fun rule => { rule with state := 0 })
    g

/-- One round of the loop over the dependencies of `line`. -/
def addDependency (line : Name) (g : DependencyGraph) (dep : Name) : DependencyGraph :=
  (if dep ∈ g.graph.vertices then g else g.setVertexValue dep dep).addEdge line dep

end DependencyGraph

/-! ## Strings -/

/-- The string that a buffer holds. -/
def cString (buf : List UInt8) : Name := buf.takeWhile fun c => c ≠ 0

def skipWhitespace (str : Name) : Name := str.dropWhile isSpace

/-- What `terminate_whitespace` leaves of the string. -/
def terminateWhitespace (str : Name) : Name := str.takeWhile fun c => !isSpace c

def stripBackWhitespace (str : Name) : Name := str.rdropWhile isSpace

def isMakefileTarget (line : Name) : Bool :=
  line.head?.any fun c => isAlpha c || isDigit c || c == 46 || c == 47

/-- The loop of `in_quotes`, over what is in front of `ptr`. -/
def inQuotesLoop : Bool → List UInt8 → Bool
  | inQuotes, [] => inQuotes
  | inQuotes, [c] => if c = 34 then !inQuotes else inQuotes
  | inQuotes, c :: d :: str =>
    if c = 92 then inQuotesLoop inQuotes str
    else inQuotesLoop (if c = 34 then !inQuotes else inQuotes) (d :: str)

def inQuotes (str : List UInt8) : Bool := inQuotesLoop false str

/-- The loop of `strip_back_comments`, where `str` is what is in front of `comment_str`. -/
def stripLoop (str : Name) : Name → Name
  | [] => str
  | c :: comment =>
    if c = 35 ∧ ¬ inQuotes str then str else stripLoop (str ++ [c]) comment

def stripBackComments (str : Name) : Name := stripLoop [] str

/-- `strtok(line, " ")`: the next token and where the search for another one starts. -/
def strtok (line : Name) : Option (Name × Name) :=
  let line := line.dropWhile fun c => c = 32
  if line = [] then none
  else some (line.takeWhile fun c => c ≠ 32, (line.dropWhile fun c => c ≠ 32).tail)

/-- The loop of `split_line_on_spaces`, with room for `size` pointers. -/
def tokens : ℕ → Name → List Name
  | 0, _ => []
  | size + 1, line =>
    match strtok line with
    | none => []
    | some (token, line) => token :: tokens size line

def splitLineOnSpaces (line : Name) : List Name := tokens (2 + line.count 32) line

/-! ## Lines -/

/-- The lines that `getline` reads, with their ends, where `lineBuf` is the start of the next. -/
def getlines (lineBuf : List UInt8) : List UInt8 → List (List UInt8)
  | [] => if lineBuf = [] then [] else [lineBuf]
  | c :: f => if c = 10 then (lineBuf ++ [c]) :: getlines [] f else getlines (lineBuf ++ [c]) f

/-- A line without its newline and carriage return. -/
def chomp (lineBuf : List UInt8) : List UInt8 :=
  if lineBuf.getLast? = some 10 then
    let lineBuf := lineBuf.dropLast
    if lineBuf.getLast? = some 13 then lineBuf.dropLast else lineBuf
  else lineBuf

/-- The ways in which the parser exits the program. -/
inductive Exit
  | noMakefile
  | noMakefileFor (goal : Name)
  | noSuchFile
  | recipeBeforeTarget (lineNumber : ℕ)
  | missingSeparator (lineNumber : ℕ)
  | noTargets
  | noRule (target : Name)
deriving DecidableEq

namespace Exit

def status : Exit → ℕ
  | noRule _ => 1
  | _ => 2

def text (s : String) : List UInt8 := s.toUTF8.toList

/-- What is written to `stderr`. -/
def message (makeFileName : Name) : Exit → List UInt8
  | noMakefile => text "parmake: *** No targets specified and no makefile found.  Stop.\n"
  | noMakefileFor goal => text "parmake: *** No rule to make target '" ++ goal ++ text "'.  Stop.\n"
  | noSuchFile => text "parmake: " ++ makeFileName ++ text ": No such file or directory\n"
  | recipeBeforeTarget lineNumber => makeFileName ++ text ":" ++ text (toString lineNumber) ++
      text ": *** recipe commences before first target.  Stop.\n"
  | missingSeparator lineNumber => makeFileName ++ text ":" ++ text (toString lineNumber) ++
      text ": *** missing separator.  Stop.\n"
  | noTargets => text "parmake: *** No targets.  Stop.\n"
  | noRule target => text "parmake: *** No rule to make target '" ++ target ++
      text "'.  Stop.\n"

end Exit

/-- The variables of `parser_parse_makefile`. The current rule is known by its target. -/
structure State where
  dependencyGraph : DependencyGraph
  firstTarget : Option Name
  currRule : Option Name
  inCommandBlock : Bool
  lineNumber : ℕ

def Rule.addCommand (rule : Rule) (inCommandBlock : Bool) (lineNumber : ℕ) (line : Name) : Rule :=
  if inCommandBlock then { rule with commands := rule.commands ++ [line] }
  else if rule.state = 0 then
    { rule with state := toInt lineNumber, commands := rule.commands ++ [line] }
  else { rule with state := toInt lineNumber, commands := [line] }

namespace State

variable (p : State)

/-- The sentinel is the first vertex. -/
def init : State :=
  { dependencyGraph := DependencyGraph.create.setVertexValue [] []
    firstTarget := none, currRule := none, inCommandBlock := false, lineNumber := 0 }

/-- `++line_number` -/
def count : State := { p with lineNumber := (p.lineNumber + 1) % 2 ^ 64 }

/-- A recipe line of the current rule. -/
def addRecipe (currRule line : Name) : State :=
  { p with
    dependencyGraph := p.dependencyGraph.modifyRule currRule fun rule =>
      rule.addCommand p.inCommandBlock p.lineNumber line
    inCommandBlock := true }

def addTarget (line : Name) : State :=
  if line ∈ p.dependencyGraph.graph.vertices then p
  else { p with
    dependencyGraph := p.dependencyGraph.setVertexValue line line
    firstTarget := p.firstTarget.or (some line) }

/-- A rule line, whose target is `line`. -/
def addRule (line : Name) (dependencies : List Name) : State :=
  { p.addTarget line with
    dependencyGraph := dependencies.foldl (DependencyGraph.addDependency line)
      (p.addTarget line).dependencyGraph
    currRule := some line
    inCommandBlock := false }

/-- A line that is not empty without its whitespace and comments. -/
def parseNonempty (lineBuf line : Name) : Except Exit State :=
  if lineBuf.head? = some 9 then
    match p.currRule with
    | none => .error (.recipeBeforeTarget p.lineNumber)
    | some currRule => .ok (p.addRecipe currRule line)
  else if isMakefileTarget line then
    match line.dropWhile fun c => c ≠ 58 with
    | [] => .error (.missingSeparator p.lineNumber)
    | _ :: depLine =>
      .ok (p.addRule (terminateWhitespace (line.takeWhile fun c => c ≠ 58))
        (splitLineOnSpaces depLine))
  else .error (.missingSeparator p.lineNumber)

/-- One round of the loop over the lines. -/
def parseLine (lineBuf : List UInt8) : Except Exit State :=
  let lineBuf := stripBackWhitespace (cString (chomp lineBuf))
  let line := stripBackComments (skipWhitespace lineBuf)
  if line = [] then .ok p.count else p.count.parseNonempty lineBuf line

end State

/-! ## The makefile -/

def openMakefile (fopen : Name → Option (List UInt8)) (makefileName : Option Name)
    (goals : List Name) : Except Exit (List UInt8) :=
  match makefileName, goals with
  | none, [] => .error .noMakefile
  | none, goal :: _ => .error (.noMakefileFor goal)
  | some name, _ =>
    match fopen name with
    | none => .error .noSuchFile
    | some f => .ok f

/-- One round of the loop over the goals. -/
def addGoal (g : DependencyGraph) (target : Name) : Except Exit DependencyGraph :=
  if target ∈ g.graph.vertices then .ok (g.addEdge [] target) else .error (.noRule target)

/-- The goals, or the first target where there are none. -/
def chooseGoals (firstTarget : Option Name) : List Name → Except Exit (List Name)
  | [] =>
    match firstTarget with
    | none => .error .noTargets
    | some target => .ok [target]
  | goals => .ok goals

/-- `parser_parse_makefile(makeFileName, goals)`; no goals are the same as a `NULL`. -/
def parserParseMakefile (fopen : Name → Option (List UInt8)) (makeFileName : Option Name)
    (goals : List Name) : Except Exit DependencyGraph := do
  let f ← openMakefile fopen makeFileName goals
  let p ← (getlines [] f).foldlM State.parseLine State.init
  let goals ← chooseGoals p.firstTarget goals
  let g ← goals.foldlM addGoal p.dependencyGraph
  return g.zeroOutStates

end Cs241.Parser
