import LexParse.Automaton.Machine
import LexParse.Automaton.Nfa
import LexParse.NatSet
import LexParse.SymbolClasses

/-!
# The subset machine

A nondeterministic automaton is made deterministic by following all its paths at once: a state is
the set of the states those paths may have come to, closed under edges that read nothing. It matches
the first rule that one of them matches, but nothing before a symbol has been read: a match of no
symbols would not advance. The empty set is the dead state.
-/

namespace LexParse.Automaton

/-- The targets of each state's edges. -/
def adjacency (size : Nat) (edges : List (Nat × Nat)) : Array (List Nat) :=
  edges.foldl (fun table e => table.modify e.1 (e.2 :: ·)) (Array.replicate size [])

/-- Follow edges from the states of `todo`; `seen` are the states reached. Each step takes one state
off `todo`. -/
def reach (edges : Array (List Nat)) : Nat → List Nat → NatSet → NatSet
  | 0, _, seen => seen
  | _ + 1, [], seen => seen
  | steps + 1, s :: todo, seen =>
    if s ∈ seen then reach edges steps todo seen
    else reach edges steps ((edges.getD s []) ++ todo) (seen.insert s)

/-- The states that can be reached from one without reading anything. An edge is followed once, so
there are no more steps than edges, and one for the state itself. -/
def Nfa.closure (nfa : Nfa) (edges : Array (List Nat)) (s : Nat) : NatSet :=
  reach edges (nfa.silent.length + 1) [s] ∅

/-- For each class and each state, the closure of what the state's edges lead to on reading the
class. -/
def Nfa.readers (nfa : Nfa) (edges : Array (List Nat)) (k : SymbolClasses) :
    Array (Array NatSet) :=
  nfa.moves.foldl (fun table (s, set, t) =>
    let targets := nfa.closure edges t
    (k.classesOf set).foldl (fun table cls => table.modify cls (·.modify s (· ∪ targets))) table)
    (Array.replicate k.count (Array.replicate nfa.size ∅))

/-- All that can be reached from a set by reading a class, given what its members lead to. -/
def advance (readers : Array NatSet) (s : NatSet) : NatSet :=
  s.toList.foldl (fun acc i => acc ∪ readers.getD i ∅) ∅

/-- The deterministic machine of an automaton. -/
def Nfa.subsets (nfa : Nfa) (k : SymbolClasses) : Machine NatSet :=
  let edges := adjacency nfa.size nfa.silent
  let readers := nfa.readers edges k
  let start := nfa.closure edges 0
  { classes := k.count
    start := start
    dead := ∅
    next := fun s cls => advance (readers.getD cls #[]) s
    rule := fun s => if s = start then none else (nfa.accepting.find? (·.1 ∈ s)).map (·.2) }

/-- The table of the subset machine. There are no more subsets than `2 ^ size`. -/
def Nfa.table (nfa : Nfa) (k : SymbolClasses) : Table :=
  (nfa.subsets k).tabulate (Nat.pow 2 nfa.size)

end LexParse.Automaton
