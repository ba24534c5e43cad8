import LexParse.Proofs.Grammar.Operators
import LexParse.Proofs.Lr.Operands
import LexParse.Proofs.Parser.Soundness

/-!
# Precedences shape trees

What a declaration of precedences says is about trees: an operator that binds looser does not stand
under one that binds tighter, and operators of one level stand under each other on the side that
their group says. Generated parsers keep to it, by either construction, although all that
precedences do is to choose between actions in single cells of the table.

## What is proved

* `groupsOperators_of_parse`: the operators in the tree of an accepted input are grouped as their
  precedences say.
-/

namespace LexParse

/-- The operators in a tree are grouped as the precedences of a description say. A group is declared
with a level of its own, so operators of one level have one associativity. -/
structure Description.GroupsOperators (d : Description) (tree : Tree) : Prop where
  /-- The right operand binds tighter, or as tight in a group to the right. -/
  right : ∀ {n m : Nat} {left kind kind' : String} {x y : Precedence} {t u : Tree}
    {children : List Tree}, d.grammar.IsOperator d.kinds n left kind x →
    d.grammar.IsOperator d.kinds m left kind' y →
    Tree.Part (.node n [t, u, .node m children]) tree →
    x.level < y.level ∨ x.level = y.level ∧ x.assoc = .right
  /-- The left operand binds tighter, or as tight in a group to the left. -/
  left : ∀ {n m : Nat} {left kind kind' : String} {x y : Precedence} {t u : Tree}
    {children : List Tree}, d.grammar.IsOperator d.kinds n left kind x →
    d.grammar.IsOperator d.kinds m left kind' y →
    Tree.Part (.node n [.node m children, t, u]) tree →
    x.level < y.level ∨ x.level = y.level ∧ y.assoc = .left

namespace Lr

open Context

/-- A tree is the one that a generated parser builds over its leaves. -/
def IsParsed (g : Grammar) (method : Method) (tree : Tree) : Prop :=
  let G := Graph.build (ofGrammar g) method
  Accepts g G (policyOf g G) [] tree.leaves tree

/-- There is one such tree. -/
theorem IsParsed.unique {g : Grammar} {method : Method} {tree tree' : Tree} (hg : g.WellFormed)
    (h : IsParsed g method tree) (h' : IsParsed g method tree')
    (hleaves : tree.leaves = tree'.leaves) : tree = tree' := by
  rw [IsParsed, ← hleaves] at h'
  exact Accepts.unique h h' (Graph.isAutomaton_build hg method)

/-- The tree that a machine without conflicts accepts groups its operators. -/
theorem Accepts.groupsOperators {d : Description} {g : Grammar} {G : Graph}
    {leaves : List (Nat × Value)} {tree : Tree}
    (h : Accepts g G (policyOf g G) [] leaves tree) (hresolve : d.resolveGrammar = .ok g)
    (hG : IsAutomaton g G) (hnil : (ParseTable.ofGraph (ofGrammar g) G).2 = []) :
    d.GroupsOperators tree := by
  have hg := GrammarDecl.wellFormed_of_resolve hresolve
  have hlic := licensed_ofGraph hG hg
  have hweighed := weighed_ofGraph hG hg hnil
  constructor
  · intro n m left kind kind' x y t u children hop hop' hpart
    obtain ⟨q, a, hq, hleft, ha, hx, -⟩ := GrammarDecl.exists_production_of_isOperator hresolve hop
    obtain ⟨q', b, hq', hleft', hb, -, hy⟩ :=
      GrammarDecl.exists_production_of_isOperator hresolve hop'
    have hsame := Symbol.nonterminal.inj (Option.some.inj (hleft.symm.trans hleft'))
    have hkeep := h.judge_right_operand hG hg hlic hweighed hpart hq hq' hsame ha hb
    rw [hx, hy] at hkeep
    exact judgeShift_eq_keep_iff.1 hkeep
  · intro n m left kind kind' x y t u children hop hop' hpart
    obtain ⟨q, a, hq, hleft, ha, -, hx⟩ := GrammarDecl.exists_production_of_isOperator hresolve hop
    obtain ⟨q', b, hq', hleft', hb, hy, -⟩ :=
      GrammarDecl.exists_production_of_isOperator hresolve hop'
    have hsame := Symbol.nonterminal.inj (Option.some.inj (hleft.symm.trans hleft'))
    have hreplace := h.judge_left_operand hG hg hlic hweighed hpart hq hq' hsame ha hb
    rw [hx, hy] at hreplace
    exact judgeShift_eq_replace_iff.1 hreplace

variable {σ : Type} {source : TokenSource σ} {v : Value}

/-- **Precedences shape every tree.** Whatever a generated parser returns is the value of the tree
that the machine of its table accepts for the tokens, and in this tree a node of one operator has a
node of another one of the same nonterminal as its right operand only if the other binds tighter, or
as tight in a group to the right; and as its left operand only if the other binds tighter, or as
tight in a group to the left. -/
theorem groupsOperators_of_parse {d : Description} {options : Options} {compiled : Compiled}
    (hcompile : (d.compile options).1 = .ok compiled) {limit : Nat} {tokens : σ}
    (hparse : (compiled.parseFrom source limit tokens).1 = .ok v) :
    ∃ (g : Grammar) (ts : List Token) (tree : Tree), d.resolveGrammar = .ok g ∧
      Reads source tokens ts ∧ StandsFor g tree.leaves ts ∧
      tree.Valid g ∧ tree.symbol g = .nonterminal g.start ∧ IsParsed g options.method tree ∧
      tree.evaluate g = .ok v ∧ d.GroupsOperators tree := by
  obtain ⟨table, htable, hresult⟩ := parseFrom_eq_ok_iff.1 hparse
  obtain ⟨g, hresolve, hfound⟩ := (d.parserOutcome_eq_ok_iff options).1
    ((d.tables_of_compile options hcompile).1 table htable)
  have hg := GrammarDecl.wellFormed_of_resolve hresolve
  have hG := Graph.isAutomaton_build hg options.method
  obtain rfl : tableOf g (Graph.build (ofGrammar g) options.method) = table :=
    congrArg Prod.fst hfound
  unfold parse at hresult
  split at hresult
  · cases hresult
  · rename_i token rest hpull
    obtain ⟨ts, l, tree, hts, hfor, -, hacc, hv⟩ :=
      exists_accepts_of_runFrom hG hg .nil .bottom hresult
    obtain ⟨hvalid, hsymbol, hleaves⟩ :=
      Stacked.nil.of_accepts hG hg (licensed_ofGraph hG hg) hacc
    obtain rfl : tree.leaves = l := by simpa [Tree.leavesOf] using hleaves
    exact ⟨g, ts, tree, hresolve, reads_of_pull hpull hts, hfor, hvalid, hsymbol, hacc, hv,
      hacc.groupsOperators hresolve hG (congrArg Prod.snd hfound)⟩

/-- Sums, products and powers, told apart by precedences only. -/
def arithmetic : Description where
  kinds := [⟨"INT", none⟩, ⟨"PLUS", none⟩, ⟨"TIMES", none⟩, ⟨"POWER", none⟩]
  grammar := {
    productions := [⟨"term", ["term", "PLUS", "term"], .list, none⟩,
      ⟨"term", ["term", "TIMES", "term"], .list, none⟩,
      ⟨"term", ["term", "POWER", "term"], .list, none⟩, ⟨"term", ["INT"], .first, none⟩]
    precedences := [("PLUS", ⟨.left, 1⟩), ("TIMES", ⟨.left, 2⟩), ("POWER", ⟨.right, 3⟩)]
    levels := 3
    start := some "term" }

/-- A product with a power, in a sum. -/
def sumOfProducts : List Token :=
  [⟨"INT", .int 1, "1", .origin⟩, ⟨"PLUS", .str "+", "+", .origin⟩, ⟨"INT", .int 2, "2", .origin⟩,
    ⟨"TIMES", .str "*", "*", .origin⟩, ⟨"INT", .int 3, "3", .origin⟩,
    ⟨"POWER", .str "^", "^", .origin⟩, ⟨"INT", .int 4, "4", .origin⟩,
    ⟨"POWER", .str "^", "^", .origin⟩, ⟨"INT", .int 5, "5", .origin⟩,
    ⟨"PLUS", .str "+", "+", .origin⟩, ⟨"INT", .int 6, "6", .origin⟩]

theorem groupsOperators_of_arithmetic : ∃ v compiled,
    (arithmetic.compile { method := .merged }).1 = .ok compiled ∧
    (compiled.parseFrom .list 40 sumOfProducts).1 = .ok v ∧
    v.render = "[[1, '+', [2, '*', [3, '^', [4, '^', 5]]]], '+', 6]" ∧
    ∃ (g : Grammar) (ts : List Token) (tree : Tree), arithmetic.resolveGrammar = .ok g ∧
      Reads .list sumOfProducts ts ∧ StandsFor g tree.leaves ts ∧
      tree.Valid g ∧ tree.symbol g = .nonterminal g.start ∧ IsParsed g .merged tree ∧
      tree.evaluate g = .ok v ∧ arithmetic.GroupsOperators tree ∧
      -- no sum stands on the right of a sum or under a product, and no power on the left of a power
      ∀ t u children, ¬ Tree.Part (.node 0 [t, u, .node 0 children]) tree ∧
        ¬ Tree.Part (.node 1 [t, u, .node 0 children]) tree ∧
        ¬ Tree.Part (.node 1 [.node 0 children, t, u]) tree ∧
        ¬ Tree.Part (.node 2 [.node 2 children, t, u]) tree := by
  have hrun : ((arithmetic.compile { method := .merged }).1.toOption.bind fun compiled =>
      (compiled.parseFrom .list 40 sumOfProducts).1.toOption.map Value.render) =
        some "[[1, '+', [2, '*', [3, '^', [4, '^', 5]]]], '+', 6]" := by
    decide +kernel
  obtain ⟨compiled, hcompile, hrun⟩ := Option.bind_eq_some_iff.1 hrun
  obtain ⟨v, hparse, hv⟩ := Option.map_eq_some_iff.1 hrun
  have hcompile := toOption_eq_some_iff.1 hcompile
  have hparse := toOption_eq_some_iff.1 hparse
  obtain ⟨g, ts, tree, hresolve, hts, hfor, hvalid, hsymbol, hparsed, heval, hgroups⟩ :=
    groupsOperators_of_parse hcompile hparse
  have hplus : arithmetic.grammar.IsOperator arithmetic.kinds 0 "term" "PLUS" ⟨.left, 1⟩ :=
    ⟨⟨_, rfl⟩, by decide, rfl⟩
  have htimes : arithmetic.grammar.IsOperator arithmetic.kinds 1 "term" "TIMES" ⟨.left, 2⟩ :=
    ⟨⟨_, rfl⟩, by decide, rfl⟩
  have hpower : arithmetic.grammar.IsOperator arithmetic.kinds 2 "term" "POWER" ⟨.right, 3⟩ :=
    ⟨⟨_, rfl⟩, by decide, rfl⟩
  refine ⟨v, compiled, hcompile, hparse, hv, g, ts, tree, hresolve, hts, hfor, hvalid, hsymbol,
    hparsed, heval, hgroups, fun t u children => ⟨?_, ?_, ?_, ?_⟩⟩
  · exact fun h => absurd (hgroups.right hplus hplus h) (by decide)
  · exact fun h => absurd (hgroups.right htimes hplus h) (by decide)
  · exact fun h => absurd (hgroups.left htimes hplus h) (by decide)
  · exact fun h => absurd (hgroups.left hpower hpower h) (by decide)

end Lr

end LexParse
