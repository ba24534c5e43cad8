import LexParse.Text.Quoted

/-!
# Grammar symbols

Symbols are numbered, terminals and nonterminals each from zero. Terminal zero is `$EOF`, the end of
the input, and nonterminal zero is `$START`, from which the whole input with its end is derived. A
*symbol table* gives the names of the symbols in the order in which they were defined.
-/

namespace LexParse

/-- A grammar symbol. -/
inductive Symbol where
  /-- The terminal of a number. -/
  | terminal (number : Nat)
  /-- The nonterminal of a number. -/
  | nonterminal (number : Nat)
deriving DecidableEq, Repr, Inhabited

namespace Symbol

/-- The end of the input. -/
def endOfInput : Symbol := .terminal 0

/-- The symbol that the whole input is derived from. -/
def origin : Symbol := .nonterminal 0

/-- The symbol is a terminal. -/
def isTerminal : Symbol → Bool
  | .terminal _ => true
  | .nonterminal _ => false

/-- The number of a symbol among those of its sort. -/
def number : Symbol → Nat
  | .terminal n | .nonterminal n => n

/-- A symbol of a name as a literal. -/
def literal (name : String) (s : Symbol) : String :=
  (if s = endOfInput then "EOF" else if s.isTerminal then "Terminal" else "Meta") ++
    "(" ++ Text.quoted name ++ ")"

end Symbol

/-- The names of symbols, in the order in which they were defined. -/
structure SymbolTable where
  /-- The names and their symbols. -/
  entries : List (String × Symbol) := [("$EOF", .endOfInput), ("$START", .origin)]
deriving Repr

/-- Why a name cannot be used for a symbol. -/
inductive SymbolFault where
  /-- The name is that of a nonterminal, or of the end of the input. -/
  | notTokenKind (name : String)
  /-- The name is that of a terminal. -/
  | tokenKindDerived (name : String)
  /-- The name is not defined. -/
  | undefined (name : String)
deriving DecidableEq, Repr

/-- The wording of a fault. -/
def SymbolFault.message : SymbolFault → String
  | .notTokenKind name => name ++ " is not a token kind"
  | .tokenKindDerived name => "token kind " ++ name ++ " cannot be derived by productions"
  | .undefined name => Text.quoted name

namespace SymbolTable

/-- The symbol of a name. -/
def lookup (t : SymbolTable) (name : String) : Option Symbol := t.entries.lookup name

/-- The symbol of a name that has to be defined. -/
def find (t : SymbolTable) (name : String) : Except SymbolFault Symbol :=
  match t.lookup name with
  | some s => .ok s
  | none => .error (.undefined name)

/-- The names, in the order in which they were defined. -/
def names (t : SymbolTable) : List String := t.entries.map (·.1)

/-- The names of the terminals, by number. -/
def terminals (t : SymbolTable) : List String :=
  (t.entries.filter (·.2.isTerminal)).map (·.1)

/-- The names of the nonterminals, by number. -/
def nonterminals (t : SymbolTable) : List String :=
  (t.entries.filter (!·.2.isTerminal)).map (·.1)

/-- Put a name at the end of the table. -/
def push (t : SymbolTable) (name : String) (s : Symbol) : SymbolTable :=
  ⟨t.entries ++ [(name, s)]⟩

/-- Define a terminal, unless there is one of this name. -/
def defineTerminal (t : SymbolTable) (name : String) : Except SymbolFault (Symbol × SymbolTable) :=
  match t.lookup name with
  | none =>
    let s := .terminal t.terminals.length
    .ok (s, t.push name s)
  | some (.terminal (n + 1)) => .ok (.terminal (n + 1), t)
  | some _ => .error (.notTokenKind name)

/-- Define a nonterminal, unless there is one of this name. -/
def defineNonterminal (t : SymbolTable) (name : String) :
    Except SymbolFault (Symbol × SymbolTable) :=
  match t.lookup name with
  | none =>
    let s := .nonterminal t.nonterminals.length
    .ok (s, t.push name s)
  | some (.nonterminal n) => .ok (.nonterminal n, t)
  | some (.terminal _) => .error (.tokenKindDerived name)

end SymbolTable

end LexParse
