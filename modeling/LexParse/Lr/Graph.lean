import LexParse.Lr.Closure

/-!
# The state graph

A state of the parser is an item set: the *kernel* says how far the productions in progress have
been recognised, and the *elements*, its closure, what may come next. A transition over a symbol
moves the mark over it.

In the canonical construction states are told apart by their kernels with all lookaheads. In the
merged one they are told apart by the items alone, and the lookaheads of kernels with the same items
are joined as they are found; a state that gains lookaheads is expanded again. States are expanded
last found first, and numbered in the order in which they are found.
-/

namespace LexParse.Lr

/-- How states are told apart. -/
inductive Method where
  /-- By their items and lookaheads. -/
  | canonical
  /-- By their items alone. -/
  | merged
deriving DecidableEq, Repr

/-- A state. -/
structure State where
  /-- The items that have been advanced to. -/
  kernel : ItemSet
  /-- The closure of the kernel. -/
  elements : ItemSet := []
  /-- The successors, in the order in which their symbols show up in the elements. -/
  transitions : List (Symbol × Nat) := []
deriving DecidableEq, Repr, Inhabited

/-- The states found so far, and those to be expanded, last found first. -/
structure Graph where
  /-- The states, by number. -/
  states : Array State := #[]
  /-- The numbers of the states to be expanded. -/
  todo : List Nat := []

namespace Graph

/-- The two kernels belong to one state. -/
def sameState (method : Method) (a b : ItemSet) : Bool :=
  match method with
  | .canonical => a == b
  | .merged => a.core == b.core

/-- The state of a kernel, found or made. A state that is new or has changed is to be expanded. -/
def require (method : Method) (g : Graph) (kernel : ItemSet) : Nat × Graph :=
  match g.states.findIdx? fun s => sameState method s.kernel kernel with
  | none => (g.states.size, ⟨g.states.push { kernel }, g.states.size :: g.todo⟩)
  | some n =>
    let old := (g.states.getD n default).kernel
    if old.growsBy kernel then
      (n, ⟨g.states.modify n fun s => { s with kernel := old.merge kernel }, n :: g.todo⟩)
    else (n, g)

end Graph

/-- Add an item to the kernel that a symbol leads to. -/
def addGoto (symbol : Symbol) (i : Item) (las : NatSet) :
    List (Symbol × ItemSet) → List (Symbol × ItemSet)
  | [] => [(symbol, ItemSet.add i las [])]
  | (other, kernel) :: rest =>
    if other = symbol then (other, kernel.add i las) :: rest
    else (other, kernel) :: addGoto symbol i las rest

/-- The kernels that each symbol leads to, in the order in which the symbols show up. The end of the
input leads nowhere: there the input is accepted. -/
def Context.gotos (c : Context) (elements : ItemSet) : List (Symbol × ItemSet) :=
  elements.foldl
    (fun acc (i, las) =>
      match c.next? i with
      | some symbol => if symbol = .endOfInput then acc else addGoto symbol i.advance las acc
      | none => acc) []

namespace Graph

/-- Require the states of some kernels, one after the other. -/
def requireAll (method : Method) (g : Graph) :
    List (Symbol × ItemSet) → List (Symbol × Nat) × Graph
  | [] => ([], g)
  | (symbol, kernel) :: rest =>
    let (n, g) := g.require method kernel
    let (transitions, g) := requireAll method g rest
    ((symbol, n) :: transitions, g)

/-- Expand a state: compute its elements and its successors. -/
def expand (c : Context) (method : Method) (g : Graph) (n : Nat) : Graph :=
  let elements := c.closure (g.states.getD n default).kernel
  let (transitions, g) := g.requireAll method (c.gotos elements)
  { g with states := g.states.modify n fun s => { s with elements, transitions } }

/-- Expand states until none is left. Each step expands one. -/
def expandAll (c : Context) (method : Method) : Nat → Graph → Graph
  | 0, g => g
  | steps + 1, g =>
    match g.todo with
    | [] => g
    | n :: todo => expandAll c method steps (expand c method { g with todo } n)

/-- The graph with only the first state: the whole input is still to come. The lookaheads of that
item do not matter, as it is accepted and never reduced. -/
def initial (method : Method) : Graph := (require method {} [(⟨0, 0⟩, ∅)]).2

/-- The state graph of a grammar. Kernels are sets of items with sets of terminals, so there are no
more than `2 ^ (items * (terminals + 1))` states to expand. -/
def build (c : Context) (method : Method) : Graph :=
  expandAll c method (Nat.pow 2 (c.itemCount * (c.terminalCount + 1))) (initial method)

/-- The number of states. -/
def size (g : Graph) : Nat := g.states.size

end Graph

namespace Context

/-- A state in print. -/
def renderState (c : Context) (number : Nat) (s : State) : String :=
  "\n".intercalate (
    ("state: " ++ toString number) :: "elements:" ::
      s.elements.map (fun e => "  " ++ c.renderElement e) ++
    "transitions:" :: s.transitions.map fun (symbol, n) =>
      "  " ++ c.grammar.symbolName symbol ++ " -> " ++ toString n)

/-- The states of a graph in print, one by one. -/
def renderGraph (c : Context) (g : Graph) : List String := g.states.toList.mapIdx c.renderState

end Context

end LexParse.Lr
