import LexParse.Alphabet
import LexParse.Automaton.Minimize
import LexParse.Automaton.Subset
import LexParse.Place
import LexParse.Scan.Rule
import LexParse.Text.Column

/-!
# Scan tables

The table of the automaton of a list of rules, with all that is needed to run it: the classes its
columns stand for, the rules and the kinds of the tokens. The table is total: a symbol outside the
alphabet leads to the dead state.
-/

namespace LexParse

/-- The table that drives a scanner. -/
structure ScanTable where
  /-- The states and their successors. -/
  automaton : Automaton.Table
  /-- The alphabet of the input. -/
  alphabet : Alphabet
  /-- The columns of the table. -/
  classes : SymbolClasses
  /-- The rules, by number, without references. -/
  rules : List ScanRule
  /-- The declared kinds of tokens. -/
  kinds : List TokenKind

namespace ScanTable

/-- The classes that the patterns of some rules do not tell apart. -/
def classesFor (alphabet : Alphabet) (rules : List ScanRule) : SymbolClasses :=
  .ofSets alphabet.size (rules.flatMap (·.pattern.charSets))

/-- The table of some rules, before minimisation. -/
def ofRules (alphabet : Alphabet) (rules : List ScanRule) (kinds : List TokenKind) : ScanTable :=
  let classes := classesFor alphabet rules
  { automaton := (Automaton.Nfa.ofRules (rules.map (·.pattern))).table classes
    alphabet, classes, rules, kinds }

/-- The number of states. -/
def size (t : ScanTable) : Nat := t.automaton.size

/-- The table with all states merged that no input tells apart. -/
def minimize (t : ScanTable) : ScanTable :=
  { t with automaton := t.automaton.minimize t.classes.count }

/-- The state after a state on a code value. -/
def transition (t : ScanTable) (state : Nat) (code : Int) : Nat :=
  match t.classes.classify code with
  | some cls => t.automaton.next state cls
  | none => t.automaton.dead

/-- The state after the state at a place of the table, on a code value. A value outside the alphabet
leads to the dead state from any place; otherwise the table has to reach that far. -/
def transitionAt (t : ScanTable) (place code : Int) : Except PlaceFault Nat :=
  match t.classes.classify code with
  | some cls => do itemAt (← itemAt t.automaton.rows place) cls
  | none => .ok t.automaton.dead

/-- The rule that a state matches. -/
def accepting (t : ScanTable) (state : Nat) : Option Nat := t.automaton.rule state

/-- The states after each symbol of a word, from a state on. -/
def walk (t : ScanTable) (state : Nat) : List Int → List Nat
  | [] => []
  | code :: rest =>
    let state := t.transition state code
    state :: t.walk state rest

/-- The payload of a kind, if it is declared with one. -/
def payloadOf (t : ScanTable) (kind : String) : Option Payload :=
  (t.kinds.find? (·.name == kind)).bind (·.payload)

/-- What a rule does with a match. -/
def actionOf (t : ScanTable) (rule : Nat) : ScanAction :=
  ((t.rules[rule]?).map (·.action)).getD .skip

/-! ### Printing -/

/-- Cells of width three, each followed by a space. -/
def cells (l : List Nat) : String := String.join (l.map fun n => Text.center 3 (toString n) ++ " ")

/-- The line of a state. -/
def renderRow (t : ScanTable) (state : Nat) (row : Array Nat) : String :=
  Text.center 3 (toString state) ++ " - " ++ cells row.toList ++ "| " ++
    ((t.accepting state).map toString).getD "" ++ "\n"

/-- The table in print. -/
def render (t : ScanTable) : String :=
  "start: " ++ toString t.automaton.start ++ "  dead: " ++ toString t.automaton.dead ++ "\n" ++
  String.join (t.rules.mapIdx fun i r => "rule " ++ toString i ++ ": " ++ r.render ++ "\n") ++
  String.join ((List.range t.classes.count).map fun c =>
    "class " ++ toString c ++ ": " ++ (t.classes.members c).render ++ "\n") ++
  "      " ++ cells (List.range t.classes.count) ++ "| rule\n" ++
  String.join (t.automaton.rows.toList.mapIdx t.renderRow)

end ScanTable

end LexParse
