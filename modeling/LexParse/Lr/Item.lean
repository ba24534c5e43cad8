import LexParse.Grammar.First

/-!
# Items

An item is a production of the augmented grammar with a mark in its right side: what stands before
the mark has been recognised. A set of items gives each of them a set of *lookaheads*, terminals
that may follow the production where it is used. Item sets are kept sorted, so equal sets are equal
lists.
-/

namespace LexParse.Lr

/-- A production, by its number in the augmented grammar, with a mark. -/
structure Item where
  /-- The number of the production. -/
  production : Nat
  /-- The number of symbols before the mark. -/
  mark : Nat
deriving DecidableEq, Repr, Inhabited

namespace Item

/-- Items are ordered by production, then by mark. -/
def before (i j : Item) : Bool :=
  i.production < j.production || (i.production == j.production && i.mark < j.mark)

/-- The item with the mark moved over the next symbol. -/
def advance (i : Item) : Item := { i with mark := i.mark + 1 }

end Item

/-- Items with their lookaheads, sorted. -/
abbrev ItemSet := List (Item × NatSet)

namespace ItemSet

/-- The lookaheads of an item, if it belongs to the set. -/
def find? (s : ItemSet) (i : Item) : Option NatSet := s.lookup i

/-- The lookaheads of an item; none if it does not belong to the set. -/
def lookaheads (s : ItemSet) (i : Item) : NatSet := (s.find? i).getD ∅

/-- The items without their lookaheads. -/
def core (s : ItemSet) : List Item := s.map (·.1)

/-- Add lookaheads to an item, and the item if it does not belong to the set. -/
def add (i : Item) (las : NatSet) : ItemSet → ItemSet
  | [] => [(i, las)]
  | (j, other) :: rest =>
    if i = j then (j, other ∪ las) :: rest
    else if i.before j then (i, las) :: (j, other) :: rest
    else (j, other) :: add i las rest

/-- Whether adding lookaheads to an item would change the set. -/
def grows (s : ItemSet) (i : Item) (las : NatSet) : Bool :=
  match s.find? i with
  | none => true
  | some old => !las.subset old

/-- Whether adding a set would change another one. -/
def growsBy (s t : ItemSet) : Bool := t.any fun (i, las) => s.grows i las

/-- Both sets together. -/
def merge (s t : ItemSet) : ItemSet := t.foldl (fun s (i, las) => s.add i las) s

end ItemSet

/-- A grammar prepared for the construction of its automaton. -/
structure Context where
  /-- The grammar. -/
  grammar : Grammar
  /-- The productions of the augmented grammar. -/
  productions : Array Production
  /-- The numbers of the productions of each nonterminal. -/
  derivations : Array (List Nat)
  /-- The first terminals of the augmented grammar. -/
  first : FirstTable

namespace Context

/-- Prepare a grammar. -/
def ofGrammar (g : Grammar) : Context :=
  let productions := g.augmented.toArray
  { grammar := g
    productions
    derivations := ((List.range g.nonterminals.size).map fun n =>
      (List.range productions.size).filter fun p => (productions.getD p default).left == n).toArray
    first := g.augmentedFirstTable }

/-- The production of an item. -/
def production (c : Context) (i : Item) : Production := c.productions.getD i.production default

/-- The symbols behind the mark. -/
def behind (c : Context) (i : Item) : List Symbol := (c.production i).right.drop i.mark

/-- The symbol behind the mark. -/
def next? (c : Context) (i : Item) : Option Symbol := (c.behind i).head?

/-- The whole right side stands before the mark. -/
def isComplete (c : Context) (i : Item) : Bool := (c.behind i).isEmpty

/-- The productions of a nonterminal. -/
def derivationsOf (c : Context) (n : Nat) : List Nat := c.derivations.getD n []

/-- The number of items of the grammar. -/
def itemCount (c : Context) : Nat := c.productions.foldl (fun n p => n + p.right.length + 1) 0

/-- The number of terminals. -/
def terminalCount (c : Context) : Nat := c.grammar.terminals.size

/-- An item in print. -/
def renderItem (c : Context) (i : Item) : String :=
  let p := c.production i
  let parts := p.right.map c.grammar.symbolName
  c.grammar.nonterminals.getD p.left "" ++ " <-" ++
    String.join (((parts.take i.mark) ++ "." :: parts.drop i.mark).map (" " ++ ·))

/-- An item with its lookaheads in print, sorted by name. -/
def renderElement (c : Context) (e : Item × NatSet) : String :=
  let names := (e.2.toList.map fun n => c.grammar.symbolName (.terminal n)).mergeSort (· ≤ ·)
  c.renderItem e.1 ++ " \x7b " ++ " ".intercalate names ++ " \x7d"

end Context

end LexParse.Lr
