import LexParse.Description.Basic
import LexParse.Journal
import LexParse.Parser

/-!
# Generating tables

The tables of a description: a parse table if it has productions, and a scan table if it has
scanning rules or named patterns. The parse table comes first, so a fault of the grammar is the one
reported when both are at fault.
-/

namespace LexParse

/-- Why no tables can be generated. -/
inductive CompileFault where
  /-- There is nothing to generate. -/
  | emptyDescription
  /-- The grammar cannot be resolved. -/
  | grammar (fault : GrammarFault)
  /-- Competing actions that nothing decides between. -/
  | conflicts (found : List Lr.Conflict)
  /-- There is no alphabet of this name. -/
  | unknownAlphabet (name : String)
  /-- No name of an alphabet is given. -/
  | noAlphabet
  /-- A pattern refers to a name that cannot be resolved. -/
  | reference (fault : Regex.ReferenceFault)
  /-- There are named patterns but no rules. -/
  | noRules
  /-- There is no scan table to read an input with. -/
  | noScanner
  /-- There is no parse table to parse an input with. -/
  | noGrammar
deriving DecidableEq, Repr

/-- The wording of a fault. -/
def CompileFault.message : CompileFault → String
  | .emptyDescription => "the description is empty"
  | .grammar fault => fault.message
  | .conflicts found =>
    toString found.length ++ " unresolved conflict(s)\n" ++
      "\n".intercalate (found.map Lr.Conflict.render)
  | .unknownAlphabet name => "unknown alphabet " ++ name
  | .noAlphabet => "unhashable type: 'list'"
  | .reference fault => fault.message
  | .noRules => "the lexer has no rules"
  | .noScanner => "the description has no lexer"
  | .noGrammar => "the description has no grammar"

/-- A generation: it tells of itself, also when it fails. -/
abbrev Generate := ExceptT CompileFault (StateM Journal)

namespace Generate

/-- Tell something. -/
def tell (entry : Entry) : Generate Unit := modify (· ++ [entry])

/-- Give a message. -/
def log (level : Level) (text : String) : Generate Unit := tell (.message level text)

/-- Fail if a part fails. -/
def check {ε α : Type} (fault : ε → CompileFault) (part : Except ε α) : Generate α :=
  match part with
  | .ok a => return a
  | .error e => throw (fault e)

end Generate

/-- What to generate. -/
structure Options where
  /-- How the states of the parser are told apart. -/
  method : Lr.Method := .canonical
  /-- The name of the alphabet of the scanner. A scanner cannot be generated without one. -/
  alphabet : Option String := some "bytes"
  /-- Merge the states of the scanner that no input tells apart. -/
  minimize : Bool := true
  /-- Print the states of the parser. -/
  printGraph : Bool := false

/-- The alphabet of the scanner. -/
def Options.findAlphabet (options : Options) : Except CompileFault Alphabet :=
  match options.alphabet with
  | none => .error .noAlphabet
  | some name =>
    match Alphabet.ofName? name with
    | some alphabet => .ok alphabet
    | none => .error (.unknownAlphabet name)

/-- The tables of a description. -/
structure Compiled where
  /-- The table of the scanner. -/
  scanTable : Option ScanTable := none
  /-- The table of the parser. -/
  parseTable : Option Lr.ParseTable := none
  /-- The rules that match the empty text; such a match is never taken. -/
  emptyMatches : List ScanRule := []

namespace Description

/-- There is something to scan with. -/
def hasScanner (d : Description) : Bool := !d.rules.isEmpty || !d.patterns.isEmpty

/-- There is something to parse with. -/
def hasGrammar (d : Description) : Bool := !d.grammar.productions.isEmpty

/-- Resolve the grammar. -/
def resolveGrammar (d : Description) : Except GrammarFault Grammar := d.grammar.resolve d.kinds

/-- The rules with resolved patterns in place of references. -/
def resolveRules (d : Description) : Except Regex.ReferenceFault (List ScanRule) := do
  let bindings ← Regex.resolveAll d.patterns
  d.rules.mapM (·.resolve bindings)

/-- Generate the state graph of the parser. -/
def graph (d : Description) (method : Lr.Method) : Generate (Lr.Context × Lr.Graph) := do
  let grammar ← Generate.check .grammar d.resolveGrammar
  let context := Lr.Context.ofGrammar grammar
  let graph := Lr.Graph.build context method
  Generate.log .info (toString graph.size ++ " LR states")
  return (context, graph)

/-- Generate the table of the parser. -/
def parseTable (d : Description) (options : Options) : Generate Lr.ParseTable := do
  let (context, graph) ← d.graph options.method
  if options.printGraph then
    (context.renderGraph graph).forM fun text => Generate.tell (.print (text ++ "\n"))
  let (table, conflicts) := Lr.ParseTable.ofGraph context graph
  conflicts.forM fun conflict => Generate.log .error conflict.render
  if !conflicts.isEmpty then throw (.conflicts conflicts)
  return table

/-- The warning about a rule that matches the empty text. -/
def emptyMatchWarning (number : Nat) (rule : ScanRule) : String :=
  "lexing rule " ++ toString number ++ " (" ++ rule.render ++
    ") matches the empty string, empty matches are never taken"

/-- The rules that match the empty text, with their numbers. -/
def emptyMatching (rules : List ScanRule) : List (Nat × ScanRule) :=
  (rules.mapIdx fun i rule => (i, rule)).filter fun p => p.2.pattern.matchesEmpty? == some true

/-- Generate the table of the scanner, and tell which rules match the empty text. -/
def scanTable (d : Description) (options : Options) : Generate (ScanTable × List ScanRule) := do
  let alphabet ← Generate.check id options.findAlphabet
  let rules ← Generate.check .reference d.resolveRules
  if rules.isEmpty then throw .noRules
  let empties := emptyMatching rules
  empties.forM fun (i, rule) => Generate.log .warning (emptyMatchWarning i rule)
  let table := ScanTable.ofRules alphabet rules d.kinds
  Generate.log .info ("lexer DFA: " ++ toString table.size ++ " states over " ++
    toString table.classes.count ++ " symbol classes")
  if !options.minimize then return (table, empties.map (·.2))
  let small := table.minimize
  Generate.log .info ("lexer DFA minimized from " ++ toString table.size ++ " to " ++
    toString small.size ++ " states")
  return (small, empties.map (·.2))

/-- Generate the tables of a description. -/
def generate (d : Description) (options : Options) : Generate Compiled := do
  if !d.hasScanner && !d.hasGrammar then throw .emptyDescription
  let parseTable ← if d.hasGrammar then some <$> d.parseTable options else pure none
  if !d.hasScanner then return { parseTable }
  let (table, emptyMatches) ← d.scanTable options
  return { scanTable := some table, parseTable, emptyMatches }

/-- Generate the tables of a description; the journal tells how it went. -/
def compile (d : Description) (options : Options) : Except CompileFault Compiled × Journal :=
  (d.generate options).run []

end Description

/-! ### Using the tables -/

/-- Why an input has no value. -/
inductive InputFault where
  /-- The tables lack a part. -/
  | compile (fault : CompileFault)
  /-- The input cannot be scanned. -/
  | scan (fault : ScanFault)
  /-- The input cannot be parsed. -/
  | parse (failure : Lr.Failure)
  /-- The parse took more steps than allowed. -/
  | unfinished

namespace Compiled

/-- A lexer on a source, decoded as the alphabet demands. -/
def lexer (t : Compiled) (source : Source) (file : String) : Except InputFault Lexer :=
  match t.scanTable with
  | none => .error (.compile .noScanner)
  | some table => (Lexer.ofSource table source file table.alphabet.encoding).mapError .scan

/-- Parse tokens, in no more steps than a limit. The events tell what the parser did, and what is
left of the tokens is handed back. -/
def parseFrom {σ : Type} (t : Compiled) (source : Lr.TokenSource σ) (limit : Nat) (tokens : σ) :
    Except InputFault Value × List Lr.Event × σ :=
  match t.parseTable with
  | none => (.error (.compile .noGrammar), [], tokens)
  | some table =>
    let run := Lr.parse table source limit tokens
    let result :=
      match run.result with
      | some (.ok value) => .ok value
      | some (.error failure) => .error (.parse failure)
      | none => .error .unfinished
    (result, run.events.reverse, run.source)

/-- Scan and parse a source. -/
def parse (t : Compiled) (source : Source) (file : String) (limit : Nat) :
    Except InputFault Value × List Lr.Event :=
  match t.lexer source file with
  | .error fault => (.error fault, [])
  | .ok lexer =>
    let (result, events, _) := t.parseFrom .lexer limit lexer
    (result, events)

end Compiled

end LexParse
