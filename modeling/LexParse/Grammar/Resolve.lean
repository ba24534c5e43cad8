import LexParse.Grammar.Basic
import LexParse.Token

/-!
# Resolving a grammar

A grammar is declared by names. Resolving it against the declared token kinds numbers the symbols:
the token kinds are the terminals and the left sides of the productions the nonterminals. It then
looks up the names on the right sides and gives every production its precedence: that of its tag, or
else that of its last terminal.
-/

namespace LexParse

/-- A production as it is declared. -/
structure ProductionDecl where
  /-- The name of the left side. -/
  left : String
  /-- The names of the right side. -/
  right : List String
  /-- How the value of the left side is computed. -/
  action : Action
  /-- The name whose precedence the production takes. -/
  tag : Option String

/-- A grammar as it is declared. -/
structure GrammarDecl where
  /-- The productions, in order. -/
  productions : List ProductionDecl := []
  /-- The declared precedences, in order. -/
  precedences : List (String × Precedence) := []
  /-- The number of precedence groups. -/
  levels : Nat := 0
  /-- The name of the start symbol; without one it is the left side of the first production. -/
  start : Option String := none

/-- Why a grammar cannot be resolved. -/
inductive GrammarFault where
  /-- There are no productions. -/
  | noProductions
  /-- A left side has a reserved name. -/
  | reservedLeft (name : String)
  /-- A name is used for two sorts of symbols. -/
  | symbol (fault : SymbolFault)
  /-- The start symbol is no left side. -/
  | startNotDerived (name : String)
  /-- A production is tagged with a name that has no precedence. -/
  | undefinedTag (tag production : String)
  /-- Right sides hold names that are no symbols: each with the productions that use it. -/
  | undefinedSymbols (uses : List (String × List String))
deriving DecidableEq, Repr

/-- The wording of a fault. -/
def GrammarFault.message : GrammarFault → String
  | .noProductions => "the grammar has no productions"
  | .reservedLeft name => "nonterminal names starting with $ are reserved: " ++ name
  | .symbol fault => fault.message
  | .startNotDerived name => "start symbol " ++ name ++ " has no productions"
  | .undefinedTag tag production =>
    "precedence " ++ tag ++ " used in " ++ production ++ " undefined"
  | .undefinedSymbols uses =>
    "\n".intercalate (uses.map fun (name, productions) =>
      "Undefined symbol " ++ name ++ " used in " ++ "; ".intercalate productions)

/-- Names that start with a dollar are reserved. -/
def isReserved (name : String) : Bool := name.toList.head? == some '$'

namespace ProductionDecl

/-- A declared production in print, by its own names. -/
def render (d : ProductionDecl) : String := d.left ++ " <- " ++ " ".intercalate d.right

/-- The symbol of a name on a right side; reserved names are none. -/
def symbol? (t : SymbolTable) (name : String) : Option Symbol :=
  if isReserved name then none else t.lookup name

/-- The names of the right side that are no symbols. -/
def undefinedNames (t : SymbolTable) (d : ProductionDecl) : List String :=
  d.right.filter fun name => (symbol? t name).isNone

end ProductionDecl

/-- Note that a production uses a name. -/
def noteUse (uses : List (String × List String)) (name production : String) :
    List (String × List String) :=
  match uses with
  | [] => [(name, [production])]
  | (other, productions) :: rest =>
    if other = name then (other, productions ++ [production]) :: rest
    else (other, productions) :: noteUse rest name production

namespace GrammarDecl

/-- Define the token kinds as terminals. -/
def defineTerminals (t : SymbolTable) : List TokenKind → Except SymbolFault SymbolTable
  | [] => .ok t
  | kind :: rest => do
    let (_, t) ← t.defineTerminal kind.name
    defineTerminals t rest

/-- Define the left sides as nonterminals. -/
def defineNonterminals (t : SymbolTable) : List ProductionDecl → Except GrammarFault SymbolTable
  | [] => .ok t
  | d :: rest =>
    if isReserved d.left then .error (.reservedLeft d.left)
    else
      match t.defineNonterminal d.left with
      | .error fault => .error (.symbol fault)
      | .ok (_, t) => defineNonterminals t rest

/-- The name of the start symbol. An empty name counts as none. -/
def startName (d : GrammarDecl) : String :=
  match d.start with
  | some name => if name.isEmpty then ((d.productions.head?).map (·.left)).getD "" else name
  | none => ((d.productions.head?).map (·.left)).getD ""

/-- The symbols of all names. -/
def symbolTable (d : GrammarDecl) (kinds : List TokenKind) : Except GrammarFault SymbolTable := do
  if d.productions.isEmpty then throw .noProductions
  let t ← (defineTerminals {} kinds).mapError .symbol
  defineNonterminals t d.productions

/-- The number of the start symbol. -/
def startSymbol (d : GrammarDecl) (t : SymbolTable) : Except GrammarFault Nat :=
  match t.lookup d.startName with
  | some (.nonterminal n) => .ok n
  | _ => .error (.startNotDerived d.startName)

/-- The precedence declared for a name. -/
def precedence? (d : GrammarDecl) (name : String) : Option Precedence := d.precedences.lookup name

/-- The terminals with their precedences. The end of the input has none. -/
def terminals (d : GrammarDecl) (t : SymbolTable) : List Terminal :=
  t.terminals.mapIdx fun i name =>
    { name, precedence := if i = 0 then none else d.precedence? name }

/-- The precedence of the last terminal of a right side. -/
def lastPrecedence (terminals : List Terminal) (right : List Symbol) : Option Precedence :=
  match (right.filter (·.isTerminal)).getLast? with
  | some s => (terminals[s.number]?).bind (·.precedence)
  | none => none

/-- Resolve one production; names that are no symbols are left out. -/
def resolveProduction (d : GrammarDecl) (t : SymbolTable) (p : ProductionDecl) :
    Except GrammarFault Production :=
  let right := p.right.filterMap (ProductionDecl.symbol? t)
  let left := ((t.lookup p.left).map (·.number)).getD 0
  match p.tag with
  | none =>
    .ok { left, right, precedence := lastPrecedence (d.terminals t) right, action := p.action }
  | some tag =>
    match d.precedence? tag with
    | some precedence => .ok { left, right, precedence := some precedence, action := p.action }
    | none =>
      let known := p.right.filter fun name => (ProductionDecl.symbol? t name).isSome
      .error (.undefinedTag tag (p.left ++ " <-" ++ String.join (known.map (" " ++ ·))))

/-- The uses of names that are no symbols. -/
def undefinedUses (d : GrammarDecl) (t : SymbolTable) : List (String × List String) :=
  d.productions.foldl
    (fun uses p => (p.undefinedNames t).foldl (fun uses name => noteUse uses name p.render) uses) []

/-- Resolve a grammar against the declared token kinds. -/
def resolve (d : GrammarDecl) (kinds : List TokenKind) : Except GrammarFault Grammar := do
  let symbols ← d.symbolTable kinds
  let start ← d.startSymbol symbols
  let productions ← d.productions.mapM (d.resolveProduction symbols)
  let uses := d.undefinedUses symbols
  if !uses.isEmpty then throw (.undefinedSymbols uses)
  return { symbols, terminals := (d.terminals symbols).toArray
           nonterminals := symbols.nonterminals.toArray, productions, start }

end GrammarDecl

end LexParse
