import LexParse.Grammar.Basic

/-!
# Derivations

What a grammar derives, in two forms. `Derives` replaces nonterminals by right sides of productions,
one at a time, and a *sentence* is a string of terminals derived from the start symbol. A *tree*
shows all replacements at once: its leaves carry the values of terminals, and evaluating it applies
the actions of its productions from the leaves up, children from left to right.
-/

namespace LexParse

/-- One string of symbols is derived from another by replacing left sides of productions by their
right sides. -/
inductive Derives (productions : List Production) : List Symbol → List Symbol → Prop where
  /-- A string is derived from itself. -/
  | refl (s : List Symbol) : Derives productions s s
  /-- A nonterminal is replaced by a right side, and what that gives is derived on. -/
  | step {p : Production} {u v w : List Symbol} : p ∈ productions →
      Derives productions (u ++ p.right ++ v) w →
      Derives productions (u ++ .nonterminal p.left :: v) w

namespace Derives

variable {productions : List Production}

theorem trans {s t w : List Symbol} (h : Derives productions s t) (k : Derives productions t w) :
    Derives productions s w := by
  induction h with
  | refl => exact k
  | step hp _ ih => exact .step hp (ih k)

/-- A derivation can take place within a longer string. -/
theorem within {s t : List Symbol} (h : Derives productions s t) (u v : List Symbol) :
    Derives productions (u ++ s ++ v) (u ++ t ++ v) := by
  induction h with
  | refl => exact .refl _
  | @step p u' v' w hp _ ih =>
    have ih' : Derives productions ((u ++ u') ++ p.right ++ (v' ++ v)) (u ++ w ++ v) := by
      simpa [List.append_assoc] using ih
    simpa [List.append_assoc] using Derives.step hp ih'

/-- Two strings derive side by side. -/
theorem append {s t s' t' : List Symbol} (h : Derives productions s t)
    (h' : Derives productions s' t') : Derives productions (s ++ s') (t ++ t') := by
  have h1 := h.within [] s'
  have h2 := h'.within t []
  simp only [List.nil_append, List.append_nil] at h1 h2
  exact h1.trans h2

end Derives

/-- A string of terminals, by number, is a sentence of the grammar. -/
def Grammar.Sentence (g : Grammar) (w : List Nat) : Prop :=
  Derives g.productions [.nonterminal g.start] (w.map .terminal)

/-! ### Trees -/

/-- A derivation tree. -/
inductive Tree where
  /-- A terminal with its value. -/
  | leaf (terminal : Nat) (value : Value)
  /-- A production, by its number in the grammar, with a tree for each symbol of its right side. -/
  | node (production : Nat) (children : List Tree)

namespace Tree

/-- The symbol a tree derives from. -/
def symbol (g : Grammar) : Tree → Symbol
  | .leaf terminal _ => .terminal terminal
  | .node n _ => .nonterminal (g.productions.getD n default).left

/-- The tree follows the productions of the grammar. -/
inductive Valid (g : Grammar) : Tree → Prop where
  /-- Leaves are terminals of the grammar. -/
  | leaf {terminal : Nat} {value : Value} : terminal < g.terminals.size →
      Valid g (.leaf terminal value)
  /-- The children of a node spell the right side of its production. -/
  | node {n : Nat} {p : Production} {children : List Tree} : g.productions[n]? = some p →
      children.map (symbol g) = p.right → (∀ t ∈ children, Valid g t) → Valid g (.node n children)

mutual

/-- The leaves of a tree, from left to right. -/
def leaves : Tree → List (Nat × Value)
  | .leaf terminal value => [(terminal, value)]
  | .node _ children => leavesOf children

/-- The leaves of some trees, from left to right. -/
def leavesOf : List Tree → List (Nat × Value)
  | [] => []
  | t :: rest => t.leaves ++ leavesOf rest

end

mutual

/-- The value of a tree. -/
def evaluate (g : Grammar) : Tree → Except ValueFault Value
  | .leaf _ value => .ok value
  | .node n children =>
    match evaluateAll g children with
    | .ok values => (g.productions.getD n default).action values
    | .error fault => .error fault

/-- The values of some trees, from left to right. -/
def evaluateAll (g : Grammar) : List Tree → Except ValueFault (List Value)
  | [] => .ok []
  | t :: rest =>
    match t.evaluate g with
    | .error fault => .error fault
    | .ok value =>
      match evaluateAll g rest with
      | .error fault => .error fault
      | .ok values => .ok (value :: values)

end

theorem leavesOf_eq_flatMap (ts : List Tree) : leavesOf ts = ts.flatMap leaves := by
  induction ts with
  | nil => rfl
  | cons t rest ih => rw [leavesOf, ih, List.flatMap_cons]

/-- The symbols of some trees derive the terminals at their leaves, if each tree's symbol does. -/
theorem derives_leavesOf {g : Grammar} {ts : List Tree}
    (h : ∀ t ∈ ts, Derives g.productions [t.symbol g] (t.leaves.map (.terminal ·.1))) :
    Derives g.productions (ts.map (symbol g)) ((ts.flatMap leaves).map (.terminal ·.1)) := by
  induction ts with
  | nil => exact .refl _
  | cons t rest ih =>
    have ht := h t (by simp)
    have hrest := ih fun u hu => h u (by simp [hu])
    simpa using ht.append hrest

/-- The symbol of a valid tree derives the terminals at its leaves. -/
theorem Valid.derives {g : Grammar} {t : Tree} (h : t.Valid g) :
    Derives g.productions [t.symbol g] (t.leaves.map (.terminal ·.1)) := by
  induction h with
  | leaf => exact .refl _
  | @node n p children hp hsyms _ ih =>
    have hd : g.productions.getD n default = p := by simp [List.getD, hp]
    have hchildren := derives_leavesOf ih
    rw [hsyms] at hchildren
    rw [leaves, leavesOf_eq_flatMap, symbol, hd]
    have hmem : p ∈ g.productions := List.mem_of_getElem? hp
    exact @Derives.step g.productions p [] [] _ hmem (by simpa using hchildren)

end Tree

end LexParse
