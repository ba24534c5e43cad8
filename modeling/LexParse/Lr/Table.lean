import LexParse.Lr.Graph
import LexParse.Text.Column

/-!
# Parse tables

A table gives the parser's action for each state and terminal, the successor of each state over each
nonterminal, and the productions that reductions stand for.

A state may call for several actions on one terminal: a shift, or the acceptance at the end of the
input, and reductions. They are compared one after the other, in the order of the productions, with
the action chosen so far. A shift has the precedence of the terminal and a reduction that of its
production; the higher level wins, and between a shift and a reduction of one level the
associativity decides. Any other competition is a *conflict*.
-/

namespace LexParse.Lr

/-- What the parser does in a state on a terminal. States and reductions are given by numbers of
some type. -/
inductive Act (ν : Type) where
  /-- Take the terminal and go to a state. -/
  | shift (state : ν)
  /-- Replace a right side by its left side. -/
  | reduce (reduction : ν)
  /-- The whole input has been recognised. -/
  | accept
  /-- The terminal cannot stand here. -/
  | error
deriving DecidableEq, Repr, Inhabited

/-- An action in print. -/
def Act.render {ν : Type} [ToString ν] : Act ν → String
  | .shift n => "s" ++ toString n
  | .reduce n => "r" ++ toString n
  | .accept => "acc"
  | .error => "."

/-! ### Competing actions -/

/-- The kinds of conflicts. -/
inductive ConflictKind where
  /-- Two reductions, and their levels do not decide. -/
  | reduceReduce
  /-- A shift and a reduction, and one of them has no precedence. -/
  | shiftReduce
  /-- A shift and a reduction of one level that does not group. -/
  | nonassociative
deriving DecidableEq, Repr

/-- The name of a kind of conflict. -/
def ConflictKind.name : ConflictKind → String
  | .reduceReduce => "reduce/reduce"
  | .shiftReduce => "shift/reduce"
  | .nonassociative => "nonassociative"

/-- The outcome of comparing a reduction with the action chosen so far. -/
inductive Verdict where
  /-- The earlier action stays. -/
  | keep
  /-- The reduction replaces it. -/
  | replace
  /-- Nothing decides between them; the earlier action stays. -/
  | conflict (kind : ConflictKind)
deriving DecidableEq, Repr

/-- Compare a reduction with an earlier one. -/
def judgeReductions (old new : Option Precedence) : Verdict :=
  match old, new with
  | some old, some new =>
    if old.level < new.level then .replace
    else if new.level < old.level then .keep
    else .conflict .reduceReduce
  | _, _ => .conflict .reduceReduce

/-- Compare a reduction with a shift over a terminal, or with the acceptance. -/
def judgeShift (terminal reduction : Option Precedence) : Verdict :=
  match terminal, reduction with
  | some terminal, some reduction =>
    if terminal.level < reduction.level then .replace
    else if reduction.level < terminal.level then .keep
    else
      match reduction.assoc with
      | .left => .replace
      | .right => .keep
      | .nonassoc => .conflict .nonassociative
  | _, _ => .conflict .shiftReduce

/-- Two actions that nothing decides between. -/
structure Conflict where
  /-- What competes. -/
  kind : ConflictKind
  /-- The state. -/
  state : Nat
  /-- The name of the terminal. -/
  terminal : String
  /-- The competing actions, each with the name of what it does and an item that calls for it, in
  print. -/
  parties : List (String × String)
deriving DecidableEq, Repr

/-- A conflict in print. -/
def Conflict.render (x : Conflict) : String :=
  "\n".intercalate (
    (x.kind.name ++ " conflict in state " ++ toString x.state ++ " on " ++ x.terminal ++ ":") ::
    x.parties.map fun (action, item) => "  " ++ action ++ ": " ++ item)

/-- The production of a reduction, by the order of the reductions. -/
def productionAt (order : List Nat) (reduction : Nat) : Nat := order.getD reduction 0

namespace Context

/-- The productions in the order of their reductions: by nonterminal, then by declaration. -/
def reductionOrder (c : Context) : List Nat :=
  (List.range c.grammar.nonterminals.size).flatMap c.derivationsOf

/-- The elements with a symbol behind the mark. -/
def itemsBefore (c : Context) (s : State) (symbol : Symbol) : List Item :=
  s.elements.core.filter fun i => c.next? i == some symbol

/-- The precedence of a production. -/
def precedence (c : Context) (p : Nat) : Option Precedence :=
  (c.productions.getD p default).precedence

/-- The parties of a conflict that an action stands for: a reduction is called for by its completed
item, a shift by all items with the terminal behind the mark. -/
def parties (c : Context) (order : List Nat) (s : State) (terminal : Nat) :
    Act Nat → List (String × String)
  | .reduce r =>
    let p := productionAt order r
    [("reduce", c.renderItem ⟨p, (c.productions.getD p default).right.length⟩)]
  | _ => (c.itemsBefore s (.terminal terminal)).map fun i => ("shift", c.renderItem i)

/-- Compare a reduction with the action chosen so far. -/
def judge (c : Context) (order : List Nat) (terminal : Nat) (old : Act Nat) (new : Nat) : Verdict :=
  let reduction := c.precedence (productionAt order new)
  match old with
  | .error => .replace
  | .reduce r => judgeReductions (c.precedence (productionAt order r)) reduction
  | .shift _ | .accept => judgeShift (c.grammar.terminalPrecedence terminal) reduction

/-- The row of a state before its reductions: the shifts, and the acceptance. -/
def shifts (c : Context) (s : State) : Array (Act Nat) :=
  let row := s.transitions.foldl
    (fun (row : Array (Act Nat)) (symbol, n) =>
      match symbol with
      | .terminal t => row.setIfInBounds t (.shift n)
      | .nonterminal _ => row) (Array.replicate c.terminalCount .error)
  if (c.itemsBefore s .endOfInput).isEmpty then row else row.setIfInBounds 0 .accept

/-- The successors of a state over the nonterminals. -/
def successors (c : Context) (s : State) : Array (Option Nat) :=
  s.transitions.foldl
    (fun (row : Array (Option Nat)) (symbol, n) =>
      match symbol with
      | .nonterminal m => row.setIfInBounds m (some n)
      | .terminal _ => row) (Array.replicate c.grammar.nonterminals.size none)

/-- The reductions a state calls for, each with a terminal, in the order in which they are
considered. -/
def reductions (c : Context) (order : List Nat) (s : State) : List (Nat × Nat) :=
  (s.elements.filter fun e => c.isComplete e.1).flatMap fun (i, las) =>
    las.toList.map fun t => (order.idxOf i.production, t)

/-- Consider a reduction on a terminal. -/
def consider (c : Context) (order : List Nat) (number : Nat) (s : State)
    (st : Array (Act Nat) × List Conflict) (candidate : Nat × Nat) :
    Array (Act Nat) × List Conflict :=
  let (reduction, terminal) := candidate
  let old := st.1.getD terminal .error
  match c.judge order terminal old reduction with
  | .keep => st
  | .replace => (st.1.setIfInBounds terminal (.reduce reduction), st.2)
  | .conflict kind =>
    (st.1, st.2 ++ [{ kind, state := number, terminal := c.grammar.symbolName (.terminal terminal)
                      parties := c.parties order s terminal old ++
                        c.parties order s terminal (.reduce reduction) }])

/-- The row of a state, and the conflicts in it. -/
def row (c : Context) (order : List Nat) (number : Nat) (s : State) :
    Array (Act Nat) × List Conflict :=
  (c.reductions order s).foldl (c.consider order number s) (c.shifts s, [])

end Context

/-! ### Tables -/

/-- A reduction. -/
structure Reduction where
  /-- The number of symbols it replaces. -/
  size : Nat
  /-- The nonterminal it replaces them by. -/
  left : Nat
  /-- How the value is computed. -/
  action : Action
  /-- The production in print. -/
  text : String

instance : Inhabited Reduction := ⟨⟨0, 0, .first, ""⟩⟩

/-- A parse table. -/
structure ParseTable where
  /-- The actions, by state and terminal. -/
  actions : Array (Array (Act Nat))
  /-- The successors, by state and nonterminal. -/
  gotos : Array (Array (Option Nat))
  /-- The state to start in. -/
  start : Nat
  /-- The reductions, by number. -/
  reductions : Array Reduction
  /-- The names of the terminals, by number. -/
  terminals : Array String
  /-- The names of the nonterminals, by number. -/
  nonterminals : Array String

namespace ParseTable

/-- The table of a graph, and the conflicts in it. The table is good only if there are none. -/
def ofGraph (c : Context) (g : Graph) : ParseTable × List Conflict :=
  let order := c.reductionOrder
  let rows := g.states.toList.mapIdx (c.row order)
  let table :=
    { actions := (rows.map (·.1)).toArray
      gotos := g.states.map c.successors
      start := 0
      reductions := (order.map fun p =>
        let production := c.productions.getD p default
        { size := production.right.length, left := production.left, action := production.action
          text := c.grammar.renderProduction production }).toArray
      terminals := c.grammar.terminals.map (·.name)
      nonterminals := c.grammar.nonterminals }
  (table, rows.flatMap (·.2))

/-- The number of states. -/
def size (t : ParseTable) : Nat := t.actions.size

/-- The column of a terminal. -/
def terminalNumber? (t : ParseTable) (name : String) : Option Nat := t.terminals.idxOf? name

/-- The action of a state on the terminal of a number. -/
def actionAt (t : ParseTable) (state terminal : Nat) : Act Nat :=
  ((t.actions[state]?).bind fun row => row[terminal]?).getD .error

/-- The action of a state on the terminal of a name. -/
def action (t : ParseTable) (state : Nat) (name : String) : Act Nat :=
  match t.terminalNumber? name with
  | some n => t.actionAt state n
  | none => .error

/-- The successor of a state over the nonterminal of a number. -/
def gotoAt? (t : ParseTable) (state nonterminal : Nat) : Option Nat :=
  ((t.gotos[state]?).bind fun row => row[nonterminal]?).join

/-- The successor of a state over the nonterminal of a name. -/
def goto? (t : ParseTable) (state : Nat) (name : String) : Option Nat :=
  (t.nonterminals.idxOf? name).bind (t.gotoAt? state)

/-- The names of the terminals that can stand in a state. -/
def expected (t : ParseTable) (state : Nat) : List String :=
  ((t.terminals.toList.zip ((t.actions.getD state #[]).toList)).filter (·.2 != .error)).map (·.1)

/-- Cells of width five, each followed by a space. -/
def cells (l : List String) : String := String.join (l.map fun s => Text.center 5 s ++ " ")

/-- The line of a state. -/
def renderRow (number : Nat) (row : Array (Act Nat) × Array (Option Nat)) : String :=
  cells [toString number] ++ cells (row.1.toList.map Act.render) ++
    cells (row.2.toList.map fun n => (n.map toString).getD ".") ++ "\n"

/-- The table in print. -/
def render (t : ParseTable) : String :=
  String.join (t.reductions.toList.mapIdx fun i r => "(" ++ toString i ++ ") " ++ r.text ++ "\n") ++
  "      " ++ cells ((t.terminals.toList ++ t.nonterminals.toList).map (Text.clip 5)) ++ "\n" ++
  String.join ((t.actions.toList.zip t.gotos.toList).mapIdx renderRow)

end ParseTable

end LexParse.Lr
