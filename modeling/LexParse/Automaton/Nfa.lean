import LexParse.Regex.Basic

/-!
# Nondeterministic automata

Every expression has an automaton with one state to start in and one to stop in, built from those of
its parts and a few edges that read nothing. States are numbers, given out in order, so the states
of two parts never meet. The automaton of a list of rules has a state of its own to start in and
reads nothing on the way to the automaton of each rule.
-/

namespace LexParse.Automaton

/-- The automaton of an expression, with the numbers from where it was built up to `next`. -/
structure Fragment where
  /-- The state to start in. -/
  start : Nat
  /-- The state to stop in. -/
  stop : Nat
  /-- The first number that is not used. -/
  next : Nat
  /-- The edges that read nothing. -/
  silent : List (Nat × Nat)
  /-- The edges that read a symbol of a set. -/
  moves : List (Nat × CharSet × Nat)

/-- Build the automaton of an expression, numbering its states from `n` on. A reference that has not
been resolved matches nothing. -/
def Fragment.ofRegex (n : Nat) : Regex → Fragment
  | .empty => { start := n, stop := n + 1, next := n + 2, silent := [(n, n + 1)], moves := [] }
  | .chars set =>
    { start := n, stop := n + 1, next := n + 2, silent := [], moves := [(n, set, n + 1)] }
  | .named _ => { start := n, stop := n + 1, next := n + 2, silent := [], moves := [] }
  | .seq a b =>
    let a := ofRegex n a
    let b := ofRegex a.next b
    { start := a.start, stop := b.stop, next := b.next
      silent := (a.stop, b.start) :: (a.silent ++ b.silent), moves := a.moves ++ b.moves }
  | .alt a b =>
    let a := ofRegex (n + 2) a
    let b := ofRegex a.next b
    { start := n, stop := n + 1, next := b.next
      silent := (n, a.start) :: (n, b.start) :: (a.stop, n + 1) :: (b.stop, n + 1) ::
        (a.silent ++ b.silent)
      moves := a.moves ++ b.moves }
  | .opt a =>
    let a := ofRegex (n + 2) a
    { start := n, stop := n + 1, next := a.next
      silent := (n, a.start) :: (n, n + 1) :: (a.stop, n + 1) :: a.silent, moves := a.moves }
  | .star a =>
    let a := ofRegex (n + 2) a
    { start := n, stop := n + 1, next := a.next
      silent := (n, n + 1) :: (n, a.start) :: (a.stop, a.start) :: (a.stop, n + 1) :: a.silent
      moves := a.moves }

/-- The automaton of a list of rules. It starts in state zero. -/
structure Nfa where
  /-- The number of states. -/
  size : Nat
  /-- The edges that read nothing. -/
  silent : List (Nat × Nat)
  /-- The edges that read a symbol of a set. -/
  moves : List (Nat × CharSet × Nat)
  /-- The states that end a match, with the number of the rule they match, in the order of the
  rules. -/
  accepting : List (Nat × Nat)

/-- Build the automata of the rules after the first `rule` ones, numbering states from `n` on. -/
def Nfa.ofRulesFrom (n rule : Nat) : List Regex → Nfa
  | [] => { size := n, silent := [], moves := [], accepting := [] }
  | r :: rest =>
    let a := Fragment.ofRegex n r
    let b := ofRulesFrom a.next (rule + 1) rest
    { size := b.size
      silent := (0, a.start) :: (a.silent ++ b.silent)
      moves := a.moves ++ b.moves
      accepting := (a.stop, rule) :: b.accepting }

/-- The automaton of a list of rules. -/
def Nfa.ofRules (rules : List Regex) : Nfa := Nfa.ofRulesFrom 1 0 rules

end LexParse.Automaton
