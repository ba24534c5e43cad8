import LexParse.Value

/-!
# Semantic actions

A production computes the value of its left side from the values of its right side by an *action*.
The ones here build sequences and nodes, or select and combine values by their place.
-/

namespace LexParse

/-- A function from the values of a right side to the value of the left side. -/
abbrev Action := List Value → Except ValueFault Value

namespace Action

/-- The first value; no value for an empty right side. -/
def first : Action
  | [] => .ok .none
  | v :: _ => .ok v

/-- The tuple of a given first component and the values. -/
def tupleWith (head : Value) : Action := fun values => .ok (.tuple (head :: values))

/-- The list of the values. -/
def list : Action := fun values => .ok (.list values)

/-- The value at a place of a right side. -/
def valueAt (values : List Value) (place : Int) : Except ValueFault Value :=
  (itemAt values.toArray place).mapError .place

/-- The value at a place. -/
def pick (i : Int) : Action := fun values => valueAt values i

/-- Always the same value. -/
def const (v : Value) : Action := fun _ => .ok v

/-- The list at one place, with the value at another one behind it. -/
def append (i j : Int) : Action := fun values => do
  (← valueAt values i).plus (.list [← valueAt values j])

/-- The sum of the values at two places. -/
def add (i j : Int) : Action := fun values => do
  (← valueAt values i).plus (← valueAt values j)

/-- Give up. -/
def fail (text : String) : Action := fun _ => .error (.failed text)

/-- The values at some places. -/
def select (places : List Nat) (values : List Value) : List Value :=
  places.filterMap fun i => values[i]?

/-- The tuple of a given first component and the values at some places. -/
def tupleOf (head : Value) (places : List Nat) : Action := fun values =>
  .ok (.tuple (head :: select places values))

/-- A node whose fields are some given values and then the values at some places. -/
def node (kind : NodeKind) (given : List Value) (places : List Nat) : Action := fun values =>
  .ok (.node kind (given ++ select places values))

end Action

end LexParse
