import LexParse.CharSet

/-!
# Regular expressions

The tree of a regular expression over character sets, with references to named patterns as leaves.
Long chains, whether sequences, alternatives or repetitions, are joined by `balanced` into trees of
logarithmic depth, so that no operation has to recurse as deep as a pattern is long.
-/

namespace LexParse

/-- A regular expression. -/
inductive Regex where
  /-- The empty word. -/
  | empty
  /-- One symbol of a set. -/
  | chars (set : CharSet)
  /-- Whatever the pattern of a name matches. -/
  | named (name : String)
  /-- A word of the first followed by a word of the second. -/
  | seq (first second : Regex)
  /-- A word of either. -/
  | alt (first second : Regex)
  /-- A word of the expression, or the empty word. -/
  | opt (body : Regex)
  /-- Any number of words of the expression, one after the other. -/
  | star (body : Regex)
deriving DecidableEq, Inhabited

namespace Regex

/-! ### Balanced joining -/

/-- Join neighbours two by two; an odd last item stays alone. -/
def pairUp {α : Type} (join : α → α → α) : List α → List α
  | a :: b :: rest => join a b :: pairUp join rest
  | short => short

theorem length_pairUp_le {α : Type} (join : α → α → α) (l : List α) :
    (pairUp join l).length ≤ l.length := by
  fun_induction pairUp join l with
  | case1 a b rest ih => simp; omega
  | case2 => simp

/-- Join a list of items, given by its head and tail, round by round: each round halves the number
of items and keeps their order. -/
def balanced {α : Type} (join : α → α → α) (first : α) : List α → α
  | [] => first
  | second :: rest => balanced join (join first second) (pairUp join rest)
termination_by rest => rest.length
decreasing_by
  have := length_pairUp_le join rest
  simp only [List.length_cons]
  omega

/-- Join a list of items; in an empty one there is nothing to join. -/
def joinAll? {α : Type} (join : α → α → α) : List α → Option α
  | [] => none
  | first :: rest => some (balanced join first rest)

/-- The sequence of a list of expressions. -/
def sequence : List Regex → Regex
  | [] => .empty
  | first :: rest => balanced .seq first rest

/-- The expression that matches exactly one text. -/
def literal (text : List Char) : Regex := sequence (text.map fun c => .chars (.ofChar c))

/-- At least `least` words of an expression in sequence, and at most `most` if it is given. -/
def repeated (body : Regex) (least : Nat) : Option Nat → Regex
  | none => sequence (List.replicate least body ++ [.star body])
  | some most =>
    sequence (List.replicate least body ++ List.replicate (most - least) (.opt body))

/-! ### Views -/

/-- The names an expression refers to, from left to right, with repetitions. -/
def references : Regex → List String
  | .empty | .chars _ => []
  | .named name => [name]
  | .seq a b | .alt a b => a.references ++ b.references
  | .opt a | .star a => a.references

/-- The character sets of an expression, from left to right, with repetitions. -/
def charSets : Regex → List CharSet
  | .empty | .named _ => []
  | .chars set => [set]
  | .seq a b | .alt a b => a.charSets ++ b.charSets
  | .opt a | .star a => a.charSets

/-- Whether an expression matches the empty word. The answer is undetermined when a reference has to
be asked, parts being asked from left to right and only as far as needed. -/
def matchesEmpty? : Regex → Option Bool
  | .empty | .opt _ | .star _ => some true
  | .chars _ => some false
  | .named _ => none
  | .seq a b => a.matchesEmpty?.bind fun h => if h then b.matchesEmpty? else some false
  | .alt a b => a.matchesEmpty?.bind fun h => if h then some true else b.matchesEmpty?

/-- Put expressions in place of references. The first reference without one is the error. -/
def substitute (binding : String → Option Regex) : Regex → Except String Regex
  | .empty => .ok .empty
  | .chars set => .ok (.chars set)
  | .named name =>
    match binding name with
    | some r => .ok r
    | none => .error name
  | .seq a b => return .seq (← a.substitute binding) (← b.substitute binding)
  | .alt a b => return .alt (← a.substitute binding) (← b.substitute binding)
  | .opt a => return .opt (← a.substitute binding)
  | .star a => return .star (← a.substitute binding)

/-- The tree in print. -/
def render : Regex → String
  | .empty => "EmptyRegex()"
  | .chars set => "CharacterRegex(" ++ set.render ++ ")"
  | .named name => "ReferenceRegex(" ++ name ++ ")"
  | .seq a b => "SequenceRegex(" ++ a.render ++ ", " ++ b.render ++ ")"
  | .alt a b => "OrRegex(" ++ a.render ++ ", " ++ b.render ++ ")"
  | .opt a => "OptionRegex(" ++ a.render ++ ")"
  | .star a => "RepeatorRegex(" ++ a.render ++ ")"

end Regex

end LexParse
