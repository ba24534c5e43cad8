import LexParse.Numbering

/-!
# Deterministic machines and their tables

A *machine* is a deterministic automaton over the symbol classes `0`, `1`, … given by functions on
states of any type. Its *table* numbers the states that can be reached, breadth first from the start
with the classes in order, so the start is number zero; the dead state comes last when nothing leads
to it.
-/

namespace LexParse.Automaton

/-- A deterministic automaton with a dead state, from where nothing matches. -/
structure Machine (σ : Type) where
  /-- The number of symbol classes. -/
  classes : Nat
  /-- The state to start in. -/
  start : σ
  /-- The dead state. -/
  dead : σ
  /-- The state after reading a class. -/
  next : σ → Nat → σ
  /-- The rule matched by what has been read. -/
  rule : σ → Option Nat

/-- The table of a machine: one row of successors for each state, and the rule each state
matches. -/
structure Table where
  /-- The successors of each state, by class. -/
  rows : Array (Array Nat)
  /-- The rule each state matches. -/
  accepting : Array (Option Nat)
  /-- The number of the state to start in. -/
  start : Nat
  /-- The number of the dead state. -/
  dead : Nat
deriving DecidableEq, Repr

namespace Table

/-- The number of states. -/
def size (t : Table) : Nat := t.rows.size

/-- The successor of a state on a class, if the table has one. -/
def next? (t : Table) (state cls : Nat) : Option Nat :=
  (t.rows[state]?).bind fun row => row[cls]?

/-- The successor of a state on a class; the dead state where the table has none. -/
def next (t : Table) (state cls : Nat) : Nat := (t.next? state cls).getD t.dead

/-- The rule a state matches. -/
def rule (t : Table) (state : Nat) : Option Nat := (t.accepting[state]?).join

end Table

/-- The states found on the way from the start, numbered in the order in which they were found, and
the rows of the first of them. -/
structure Exploration (σ : Type) [BEq σ] [Hashable σ] where
  /-- The states. -/
  found : Numbering σ
  /-- The rows of the states that have been visited. -/
  rows : Array (Array Nat)

namespace Machine

variable {σ : Type} [BEq σ] [LawfulBEq σ] [Hashable σ]

/-- The successors of a state, by class. -/
def successors (m : Machine σ) (s : σ) : List σ := (List.range m.classes).map (m.next s)

/-- Visit a state: find its successors, and put the row of their numbers behind the others. -/
def visit (m : Machine σ) (e : Exploration σ) (s : σ) : Exploration σ :=
  let (row, found) := e.found.addAll (m.successors s)
  { found, rows := e.rows.push row }

/-- Visit the states in the order of their numbers, one in each step, until all have their rows. -/
def explore (m : Machine σ) : Nat → Exploration σ → Exploration σ
  | 0, e => e
  | steps + 1, e =>
    match e.found.values[e.rows.size]? with
    | none => e
    | some s => explore m steps (m.visit e s)

/-- The states that can be reached, and the dead state. No machine with at most `limit` states is
cut short. -/
def visited (m : Machine σ) (limit : Nat) : Exploration σ :=
  let e := m.explore limit { found := ((∅ : Numbering σ).add m.start).2, rows := #[] }
  match e.found.number? m.dead with
  | some _ => e
  | none => m.visit { e with found := (e.found.add m.dead).2 } m.dead

/-- The table of a machine with at most `limit` states. -/
def tabulate (m : Machine σ) (limit : Nat) : Table :=
  let e := m.visited limit
  { rows := e.rows
    accepting := e.found.values.map m.rule
    start := (e.found.number? m.start).getD 0
    dead := (e.found.number? m.dead).getD 0 }

end Machine

end LexParse.Automaton
