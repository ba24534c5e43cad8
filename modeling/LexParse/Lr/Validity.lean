import LexParse.Grammar.Derivation
import LexParse.Lr.Graph

/-!
# Valid items

What the states of the canonical construction are to hold, said without a graph. A *situation* of a
nonterminal is a place where the whole input may need it: the symbols before that place, and those
that are to come behind it. An item is valid after some symbols if its production is needed in a
situation and the symbols end with what stands before the mark.
-/

namespace LexParse.Lr

/-- The nonterminal is needed after the symbols `before`, with the symbols `after` still to come. -/
inductive Situation (productions : List Production) : List Symbol → Nat → List Symbol → Prop where
  /-- The whole input is needed at the start. -/
  | whole : Situation productions [] 0 []
  /-- A nonterminal of a right side is needed where the production is. -/
  | inside {before after u v : List Symbol} {left n : Nat} {p : Production} :
      Situation productions before left after → p ∈ productions → p.left = left →
      p.right = u ++ .nonterminal n :: v → Situation productions (before ++ u) n (v ++ after)

/-- An item is valid after some symbols, with a lookahead that starts what is to come. -/
def ValidAfter (c : Context) (symbols : List Symbol) (i : Item) (after : List Symbol) : Prop :=
  ∃ before, Situation c.grammar.augmented before (c.production i).left after ∧
    i.production < c.productions.size ∧ i.mark ≤ (c.production i).right.length ∧
    symbols = before ++ (c.production i).right.take i.mark

/-- A path of the graph spells some symbols. -/
inductive Path (g : Graph) : Nat → List Symbol → Nat → Prop where
  /-- The empty path. -/
  | nil (n : Nat) : Path g n [] n
  /-- A transition before a path. -/
  | cons {n m k : Nat} {s : Symbol} {symbols : List Symbol} :
      (s, m) ∈ (g.states.getD n default).transitions → Path g m symbols k →
        Path g n (s :: symbols) k

end LexParse.Lr
