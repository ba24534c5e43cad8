import LexParse.Action
import LexParse.Grammar.Symbol

/-!
# Grammars

A grammar has numbered symbols, productions in the order of their declaration, and a start symbol.
Terminals and productions may carry a *precedence*, a level and an associativity, that decides
between competing parser actions.

The grammar is *augmented* by a production that derives the start symbol followed by the end of the
input. It stands before all others.
-/

namespace LexParse

/-- How operators of one level group. -/
inductive Assoc where
  /-- To the left. -/
  | left
  /-- To the right. -/
  | right
  /-- Not at all. -/
  | nonassoc
deriving DecidableEq, Repr

/-- The name of an associativity. -/
def Assoc.ofName? : String → Option Assoc
  | "left" => some .left
  | "right" => some .right
  | "nonassoc" => some .nonassoc
  | _ => none

/-- A level of binding strength; higher levels bind tighter. -/
structure Precedence where
  /-- How operators of the level group. -/
  assoc : Assoc
  /-- The level. -/
  level : Nat
deriving DecidableEq, Repr

/-- A terminal. -/
structure Terminal where
  /-- Its name. -/
  name : String
  /-- Its precedence, if one is declared. -/
  precedence : Option Precedence
deriving DecidableEq, Repr, Inhabited

/-- A production. -/
structure Production where
  /-- The number of the nonterminal on the left side. -/
  left : Nat
  /-- The right side. -/
  right : List Symbol
  /-- Its precedence, if it has one. -/
  precedence : Option Precedence
  /-- How the value of the left side is computed. -/
  action : Action

instance : Inhabited Production := ⟨⟨0, [], none, .first⟩⟩

/-- A grammar. -/
structure Grammar where
  /-- The names of all symbols. -/
  symbols : SymbolTable
  /-- The terminals, by number. -/
  terminals : Array Terminal
  /-- The names of the nonterminals, by number. -/
  nonterminals : Array String
  /-- The productions, in the order of declaration. -/
  productions : List Production
  /-- The number of the start symbol. -/
  start : Nat

namespace Grammar

/-- The production of the whole input. -/
def wholeInput (g : Grammar) : Production :=
  { left := 0, right := [.nonterminal g.start, .endOfInput], precedence := none, action := .first }

/-- The productions of the augmented grammar. -/
def augmented (g : Grammar) : List Production := g.wholeInput :: g.productions

/-- The name of a symbol. -/
def symbolName (g : Grammar) : Symbol → String
  | .terminal n => (g.terminals.getD n default).name
  | .nonterminal n => g.nonterminals.getD n ""

/-- The precedence of a terminal. -/
def terminalPrecedence (g : Grammar) (n : Nat) : Option Precedence :=
  (g.terminals.getD n default).precedence

/-- A production in print. -/
def renderProduction (g : Grammar) (p : Production) : String :=
  g.nonterminals.getD p.left "" ++ " <-" ++ String.join (p.right.map fun s => " " ++ g.symbolName s)

end Grammar

end LexParse
