import LexParse.Grammar.Basic
import LexParse.NatSet

/-!
# First terminals

Which terminals can stand first in what a string of symbols derives, and whether it derives the
empty string. The table of all nonterminals is the least one that agrees with the productions. It is
found by starting from nothing and adding what the productions demand until they demand no more.
-/

namespace LexParse

/-- What is known of a string of symbols. -/
structure FirstEntry where
  /-- The terminals that can stand first. -/
  terminals : NatSet := ∅
  /-- The empty string can be derived. -/
  nullable : Bool := false
deriving DecidableEq, Repr, Inhabited

/-- The entries of the nonterminals, by number. -/
abbrev FirstTable := Array FirstEntry

namespace FirstEntry

/-- What holds of one or the other. -/
def join (a b : FirstEntry) : FirstEntry :=
  ⟨a.terminals ∪ b.terminals, a.nullable || b.nullable⟩

end FirstEntry

namespace FirstTable

/-- The entry of a nonterminal. -/
def entry (t : FirstTable) (n : Nat) : FirstEntry := t.getD n {}

/-- The entry of a string of symbols, by the entries of its nonterminals. -/
def ofString (t : FirstTable) : List Symbol → FirstEntry
  | [] => ⟨∅, true⟩
  | .terminal n :: _ => ⟨.single n, false⟩
  | .nonterminal n :: rest =>
    let e := t.entry n
    if e.nullable then
      let r := t.ofString rest
      ⟨e.terminals ∪ r.terminals, r.nullable⟩
    else ⟨e.terminals, false⟩

/-- The entry of a nonterminal, with what its productions demand added to it. -/
def improve (productions : List Production) (t : FirstTable) (n : Nat) : FirstEntry :=
  (productions.filter (·.left == n)).foldl (fun e p => e.join (t.ofString p.right)) (t.entry n)

/-- Add what the productions demand to all entries. -/
def round (productions : List Production) (t : FirstTable) : FirstTable :=
  ((List.range t.size).map (t.improve productions)).toArray

/-- Add what the productions demand until nothing changes. -/
def iterate (productions : List Production) : Nat → FirstTable → FirstTable
  | 0, t => t
  | rounds + 1, t =>
    let u := t.round productions
    if u = t then t else iterate productions rounds u

/-- The least table that agrees with the productions. Each round but the last adds something, so
there are no more rounds than things to add, and one. -/
def compute (productions : List Production) (nonterminals terminals : Nat) : FirstTable :=
  iterate productions (nonterminals * (terminals + 1) + 1) (Array.replicate nonterminals {})

end FirstTable

/-- The table of a grammar without its augmentation. -/
def Grammar.firstTable (g : Grammar) : FirstTable :=
  FirstTable.compute g.productions g.nonterminals.size g.terminals.size

/-- The table of the augmented grammar. -/
def Grammar.augmentedFirstTable (g : Grammar) : FirstTable :=
  FirstTable.compute g.augmented g.nonterminals.size g.terminals.size

end LexParse
