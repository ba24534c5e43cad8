import LexParse.Grammar.Resolve
import LexParse.Regex.Parse
import LexParse.Scan.Rule
import LexParse.Text.Blank

/-!
# Descriptions

A description is what a scanner and a parser are generated from: token kinds, named patterns,
scanning rules and a grammar. It is built by steps. A step that fails may have done part of its
work, and what it has done stays: a keyword's rule is added before its token kind is declared, a
token kind is declared before the pattern that emits it is read, and a group of precedences keeps
the names before the offending one.

Descriptions hold names only. They are resolved each time tables are generated.

Steps that read the text of a pattern are given how much room there is for the copies that its
repetitions make.
-/

namespace LexParse

/-- The description of a scanner and a parser. -/
structure Description where
  /-- The declared token kinds, in order. -/
  kinds : List TokenKind := []
  /-- The named patterns, in order. -/
  patterns : Regex.Definitions := []
  /-- The scanning rules, in order. -/
  rules : List ScanRule := []
  /-- The grammar. -/
  grammar : GrammarDecl := {}

/-- Why a step of a description fails. -/
inductive DescriptionFault where
  /-- A token kind has a reserved name. -/
  | reservedKind (name : String)
  /-- A token kind is declared again with another payload. -/
  | otherPayload (name : String)
  /-- A pattern is defined again. -/
  | patternDefined (name : String)
  /-- An associativity has no such name. -/
  | unknownAssociativity (name : String)
  /-- The precedence of a name is declared again. -/
  | precedenceDeclared (name : String)
  /-- The text of a pattern cannot be read. -/
  | pattern (fault : Regex.Fault)
deriving DecidableEq, Repr

/-- The wording of a fault. -/
def DescriptionFault.message : DescriptionFault → String
  | .reservedKind name => "token kind names starting with $ are reserved: " ++ name
  | .otherPayload name => "token kind " ++ name ++ " redeclared with a different payload"
  | .patternDefined name => "redefinition of pattern name " ++ name
  | .unknownAssociativity name => "unknown associativity " ++ name
  | .precedenceDeclared name => "precedence of " ++ name ++ " declared twice"
  | .pattern fault => fault.message

/-- A step: it changes the description, also when it fails. -/
abbrev Describe := ExceptT DescriptionFault (StateM Description)

namespace Describe

/-- Read the text of a pattern. -/
def readPattern (room : Nat) (text : String) : Describe Regex :=
  match Regex.parse room text with
  | .ok r => return r
  | .error fault => throw (.pattern fault)

/-- Declare a token kind. It may be declared again with the same payload. -/
def token (name : String) (payload : Option Payload) : Describe Unit := do
  if isReserved name then throw (.reservedKind name)
  match (← get).kinds.find? (·.name == name) with
  | some kind => if kind.payload != payload then throw (.otherPayload name)
  | none => modify fun d => { d with kinds := d.kinds ++ [{ name, payload }] }

/-- Declare a token kind that carries its text, unless the name is declared already. -/
def ensureToken (name : String) : Describe Unit := do
  if (← get).kinds.all (·.name != name) then token name none

/-- Define a named pattern by its expression. -/
def defineAs (name : String) (r : Regex) : Describe Unit := do
  if (← get).patterns.any (·.1 == name) then throw (.patternDefined name)
  modify fun d => { d with patterns := d.patterns ++ [(name, r)] }

/-- Define a named pattern by its text. -/
def define (room : Nat) (name text : String) : Describe Unit := do
  defineAs name (← readPattern room text)

/-- Add a scanning rule. -/
def addRule (rule : ScanRule) : Describe Unit :=
  modify fun d => { d with rules := d.rules ++ [rule] }

/-- The pattern of a scanning rule. -/
inductive RulePattern where
  /-- A text that the pattern is read from. -/
  | text (text : String)
  /-- An expression; it has no text. -/
  | regex (r : Regex)

/-- Add the scanning rule of a pattern, which has to be read if it is a text. -/
def addPattern (room : Nat) (pattern : RulePattern) (action : ScanAction) : Describe Unit := do
  match pattern with
  | .text text => addRule ⟨← readPattern room text, action, text⟩
  | .regex r => addRule ⟨r, action, ""⟩

/-- Add a scanning rule for any action. The kind of a token that it emits is declared first. -/
def rule (room : Nat) (pattern : RulePattern) (action : ScanAction) : Describe Unit := do
  if let .emit kind := action then ensureToken kind
  addPattern room pattern action

/-- Emit a token on a pattern. -/
def emit (room : Nat) (pattern kind : String) : Describe Unit := do
  ensureToken kind
  addRule ⟨← readPattern room pattern, .emit kind, pattern⟩

/-- Emit a token on one text. -/
def keyword (text kind : String) : Describe Unit := do
  addRule ⟨Regex.literal text.toList, .emit kind, Text.quoted text⟩
  ensureToken kind

/-- Drop what a pattern matches. -/
def skip (room : Nat) (pattern : String) : Describe Unit := do
  addRule ⟨← readPattern room pattern, .skip, pattern⟩

/-- End the input where a pattern matches. -/
def finish (room : Nat) (pattern : String) : Describe Unit := do
  addRule ⟨← readPattern room pattern, .finish, pattern⟩

/-- Add a production. -/
def production (left : String) (right : List String) (action : Action) (tag : Option String) :
    Describe Unit :=
  modify fun d => { d with grammar := { d.grammar with
    productions := d.grammar.productions ++ [⟨left, right, action, tag⟩] } }

/-- Give names a precedence, one after the other. -/
def assign (precedence : Precedence) : List String → Describe Unit
  | [] => return
  | name :: rest => do
    if ((← get).grammar.precedence? name).isSome then throw (.precedenceDeclared name)
    modify fun d => { d with grammar := { d.grammar with
      precedences := d.grammar.precedences ++ [(name, precedence)] } }
    assign precedence rest

/-- Declare a group of names that bind tighter than those before. -/
def group (assoc : Assoc) (names : List String) : Describe Unit := do
  modify fun d => { d with grammar := { d.grammar with levels := d.grammar.levels + 1 } }
  assign ⟨assoc, (← get).grammar.levels⟩ names

/-- Declare a group by the name of its associativity. -/
def groupNamed (assoc : String) (names : List String) : Describe Unit :=
  match Assoc.ofName? assoc with
  | some assoc => group assoc names
  | none => throw (.unknownAssociativity assoc)

/-- Set or unset the start symbol. -/
def start (name : Option String) : Describe Unit :=
  modify fun d => { d with grammar := { d.grammar with start := name } }

end Describe

/-- Apply a step to a description. -/
def Description.apply (d : Description) (step : Describe Unit) :
    Except DescriptionFault Unit × Description := step.run d

end LexParse
