import LexParse.Lr.Item

/-!
# Closure

When a nonterminal stands behind the mark of an item, its productions are items too, with the mark
at their start; what follows the nonterminal in the item gives them their lookaheads. The *closure*
of an item set is the least set above it that holds them all.

It is found with a list of items to look at. An item is looked at again whenever its lookaheads have
grown.
-/

namespace LexParse.Lr.Context

/-- The lookaheads that an item passes on to the productions of the nonterminal behind its mark. -/
def passedOn (c : Context) (s : ItemSet) (i : Item) : NatSet :=
  let e := c.first.ofString (c.behind i).tail
  if e.nullable then e.terminals ∪ s.lookaheads i else e.terminals

/-- Add the start of a production, to be looked at if that changes the set. -/
def addStart (las : NatSet) (st : List Item × ItemSet) (p : Nat) : List Item × ItemSet :=
  let i : Item := ⟨p, 0⟩
  if st.2.grows i las then (i :: st.1, st.2.add i las) else st

/-- Look at items until none is left. Each step looks at one. -/
def closeFrom (c : Context) : Nat → List Item → ItemSet → ItemSet
  | 0, _, s => s
  | _ + 1, [], s => s
  | steps + 1, i :: todo, s =>
    match c.next? i with
    | some (.nonterminal n) =>
      let (todo, s) := (c.derivationsOf n).foldl (addStart (c.passedOn s i)) (todo, s)
      closeFrom c steps todo s
    | _ => closeFrom c steps todo s

/-- The closure of an item set. An item is looked at once for itself, and once for each lookahead it
gains. -/
def closure (c : Context) (kernel : ItemSet) : ItemSet :=
  closeFrom c (kernel.length + c.productions.size * (c.terminalCount + 1) + 1)
    kernel.core.reverse kernel

end LexParse.Lr.Context
