import LexParse.Automaton.Machine

/-!
# Minimisation

States that no input tells apart are merged. A *partition* gives each state the number of its group.
The first one puts the start into a group of its own and otherwise groups states by the rule they
match; it is refined, by the groups that a state's successors are in, until the number of groups
stays the same. The start is kept apart because it must never be merged with a state that matches.
-/

namespace LexParse.Automaton

/-- The group of each state, and the number of groups. -/
structure Partition where
  /-- The group of each state. -/
  groups : Array Nat
  /-- The number of groups. -/
  count : Nat
deriving DecidableEq, Repr

namespace Partition

/-- The partition of states by a key. -/
def ofKeys {κ : Type} [BEq κ] [LawfulBEq κ] [Hashable κ] (keys : List κ) : Partition :=
  let (groups, found) := (∅ : Numbering κ).addAll keys
  { groups, count := found.size }

/-- The group of a state. -/
def group (p : Partition) (state : Nat) : Nat := p.groups.getD state 0

/-- The first state of each group. Groups are numbered in the order of their first states, so a
state is the first of its group when the group is the next to be found. -/
def representatives (p : Partition) : Array Nat :=
  (p.groups.mapIdx fun state g => (state, g)).foldl
    (fun firsts (state, g) => if g = firsts.size then firsts.push state else firsts) #[]

/-- What the first partition tells states apart by: being the start, and the rule they match. -/
def initialKey (t : Table) (state : Nat) : Bool × Option Nat :=
  if state = t.start then (true, none) else (false, t.rule state)

/-- The first partition. -/
def initial (t : Table) : Partition := ofKeys ((List.range t.size).map (initialKey t))

/-- What a refinement tells states apart by: their group and those of their successors. -/
def refinedKey (t : Table) (p : Partition) (state : Nat) : List Nat :=
  p.group state :: ((t.rows.getD state #[]).map p.group).toList

/-- Tell states apart that lead to different groups. -/
def refine (t : Table) (p : Partition) : Partition :=
  ofKeys ((List.range t.size).map (refinedKey t p))

/-- Refine until no group splits. Every round but the last adds a group, so there are no more rounds
than states. -/
def stabilize (t : Table) : Nat → Partition → Partition
  | 0, p => p
  | rounds + 1, p =>
    let q := refine t p
    if q.count = p.count then p else stabilize t rounds q

end Partition

/-- The coarsest partition that the table respects. -/
def Table.partition (t : Table) : Partition := Partition.stabilize t t.size (Partition.initial t)

/-- The machine whose states are the groups of a partition. -/
def Table.quotient (t : Table) (classes : Nat) (p : Partition) : Machine Nat :=
  let firsts := p.representatives
  { classes := classes
    start := p.group t.start
    dead := p.group t.dead
    next := fun g cls => p.group (t.next (firsts.getD g 0) cls)
    rule := fun g => t.rule (firsts.getD g 0) }

/-- The table with all states merged that no input tells apart. -/
def Table.minimize (t : Table) (classes : Nat) : Table :=
  let p := t.partition
  (t.quotient classes p).tabulate p.count

end LexParse.Automaton
