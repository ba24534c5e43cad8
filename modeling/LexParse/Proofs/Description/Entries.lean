import LexParse.Proofs.Description.Calls
import LexParse.Proofs.Generation
import LexParse.Proofs.Grammar.Operators
import LexParse.Proofs.Lr.Dominance

/-!
# The entries of a description's table

Precedences come from the groups that a description declares. A group has a level of its own, so
whatever calls have built the description, no level has two associativities. This is what makes the
entries of its table the candidates that beat all others.

## What is proved

* `Description.graded_after`: precedences of one level in a grammar have one associativity.
* `Description.isDominant_actionAt`: every entry of a table that is returned beats all other
  candidates for its cell.
-/

namespace LexParse

/-! ### Where precedences come from -/

namespace GrammarDecl

variable {d : GrammarDecl} {t : SymbolTable} {kinds : List TokenKind} {g : Grammar} {x : Precedence}

theorem mem_precedences {name : String} (h : d.precedence? name = some x) :
    (name, x) ∈ d.precedences := by
  obtain ⟨before, after, heq, -⟩ := List.lookup_eq_some_iff.1 h
  rw [heq]
  simp

/-- The precedence of a terminal is that of its name. -/
theorem exists_mem_of_terminals {a : Nat}
    (h : ((d.terminals t)[a]?).bind (·.precedence) = some x) : ∃ e ∈ d.precedences, e.2 = x := by
  rw [terminals, List.getElem?_mapIdx] at h
  cases hname : t.terminals[a]? with
  | none =>
    rw [hname] at h
    cases h
  | some name =>
    rw [hname] at h
    have h : (if a = 0 then none else d.precedence? name) = some x := h
    split at h
    · cases h
    · exact ⟨_, mem_precedences h, rfl⟩

theorem exists_mem_of_terminalPrecedence (h : d.resolve kinds = .ok g) {a : Nat}
    (hx : g.terminalPrecedence a = some x) : ∃ e ∈ d.precedences, e.2 = x := by
  obtain ⟨-, -, -, hterminals, -⟩ := resolve_eq_ok h
  rw [Grammar.terminalPrecedence, hterminals] at hx
  refine exists_mem_of_terminals (t := g.symbols) (a := a) ?_
  rw [← hx]
  cases hterminal : (d.terminals g.symbols)[a]? with
  | none =>
    simp [hterminal]
    rfl
  | some terminal => simp [hterminal]

/-- The precedence of a production is that of its tag or of a terminal. -/
theorem exists_mem_of_production (h : d.resolve kinds = .ok g) {q : Production}
    (hq : q ∈ g.productions) (hx : q.precedence = some x) : ∃ e ∈ d.precedences, e.2 = x := by
  obtain ⟨-, -, hproductions, -⟩ := resolve_eq_ok h
  obtain ⟨p, -, hresolved⟩ :=
    exists_mem_of_forall₂ (forall₂_of_mapM_eq_ok hproductions).flip hq
  have hresolved : d.resolveProduction g.symbols p = .ok q := hresolved
  cases htag : p.tag with
  | none =>
    rw [precedence_of_resolveProduction hresolved htag, lastPrecedence] at hx
    split at hx
    · exact exists_mem_of_terminals hx
    · cases hx
  | some tag =>
    unfold resolveProduction at hresolved
    rw [htag] at hresolved
    dsimp only at hresolved
    split at hresolved
    · rename_i y hy
      cases hresolved
      cases hx
      exact ⟨_, mem_precedences hy, rfl⟩
    · cases hresolved

end GrammarDecl

namespace Description

open Lr

/-- **Precedences of one level have one associativity**, in the grammar of whatever description can
be built. -/
theorem graded_after (room : Nat) (calls : List Call) {g : Grammar}
    (h : (after room {} calls).resolveGrammar = .ok g) : Graded g := by
  intro t p a b ha hb hlevel
  obtain ⟨e, he, rfl⟩ := GrammarDecl.exists_mem_of_terminalPrecedence h ha
  obtain ⟨_, q, -, hq, hqb⟩ := exists_production_of_precedence hb
  obtain ⟨f, hf, rfl⟩ := GrammarDecl.exists_mem_of_production h (List.mem_of_getElem? hq) hqb
  exact (builtBy_after room calls).assoc_eq e he f hf hlevel

/-- **Every entry of a table is the candidate that beats all others.** Where a table is returned for
a description that some calls have built, those that failed included, the entry of each state and
terminal is the error if the state calls for nothing there. Else it is one of the candidates, and
beats every other one: a reduction the shift or the acceptance if its level is higher, or the same
with an associativity to the left; a shift a reduction if its level is higher, or the same with an
associativity to the right; and a reduction another one if its level is higher. -/
theorem isDominant_actionAt (room : Nat) (calls : List Call) {options : Options}
    {journal : Journal} {table : ParseTable}
    (h : (((after room {} calls).parseTable options).run journal).1 = .ok table) :
    ∃ g, (after room {} calls).resolveGrammar = .ok g ∧
      ∀ n < table.size, ∀ t < table.terminals.size,
        IsDominant g (Graph.build (Context.ofGrammar g) options.method) n t
          (named g (table.actionAt n t)) := by
  have houtcome := ((after room {} calls).yields_parseTable options journal).symm.trans h
  obtain ⟨g, hresolve, hfound⟩ := (parserOutcome_eq_ok_iff _ options).1 houtcome
  have hg := GrammarDecl.wellFormed_of_resolve hresolve
  have hG := Graph.isAutomaton_build hg options.method
  obtain rfl : tableOf g (Graph.build (Context.ofGrammar g) options.method) = table :=
    congrArg Prod.fst hfound
  refine ⟨g, hresolve, fun n hn t ht => ?_⟩
  have hn : n < (Graph.build (Context.ofGrammar g) options.method).size := by
    simpa [tableOf, ParseTable.size, ParseTable.ofGraph, Graph.size] using hn
  have ht : t < g.terminals.size := by
    simpa [tableOf, ParseTable.ofGraph, Context.ofGrammar] using ht
  rw [← policyOf_eq_named]
  have hgraded := graded_after room calls hresolve
  exact isDominant_policyOf hG hg hgraded (congrArg Prod.snd hfound) hn ht

/-- Calls that describe sums. One of them fails, as its name has a precedence already. -/
def sums : List Call :=
  [.token "PLUS" none, .token "INT" none, .group "left" ["PLUS"], .group "right" ["PLUS"],
    .production "sum" ["sum", "PLUS", "sum"] .list none, .production "sum" ["INT"] .first none]

/-- Behind a sum a state calls for the shift of another plus and for the reduction of the sum, which
beats the shift. -/
theorem isDominant_sums : ∃ table g, (((after 0 {} sums).parseTable {}).run []).1 = .ok table ∧
    (after 0 {} sums).resolveGrammar = .ok g ∧
    let G := Graph.build (Context.ofGrammar g) .canonical
    ∃ n < table.size, ∃ t < table.terminals.size,
      Candidate g G n t (.shift 3) ∧ Candidate g G n t (.reduce 1) ∧
      named g (table.actionAt n t) = .reduce 1 ∧ Beats g t (.reduce 1) (.shift 3) ∧
      IsDominant g G n t (.reduce 1) := by
  have hrun : ∃ g ∈ (after 0 {} sums).resolveGrammar.toOption,
      let G := Graph.build (Context.ofGrammar g) .canonical
      (ParseTable.ofGraph (Context.ofGrammar g) G).2 = [] ∧ 4 < (tableOf g G).size ∧
        1 < (tableOf g G).terminals.size ∧ (.terminal 1, 3) ∈ G.transitions 4 ∧
        ⟨1, 3⟩ ∈ (G.elements 4).core ∧ (Context.ofGrammar g).isComplete ⟨1, 3⟩ = true ∧
        1 ∈ (G.elements 4).lookaheads ⟨1, 3⟩ ∧
        named g ((tableOf g G).actionAt 4 1) = .reduce 1 := by
    decide +kernel
  obtain ⟨g, hg, hnil, hn, ht, hshift, hi, hc, hla, hentry⟩ := hrun
  have hresolve := toOption_eq_some_iff.1 hg
  have htable : (((after 0 {} sums).parseTable {}).run []).1 =
      .ok (tableOf g (Graph.build (Context.ofGrammar g) .canonical)) :=
    ((after 0 {} sums).yields_parseTable {} []).trans
      ((parserOutcome_eq_ok_iff _ {}).2 ⟨g, hresolve, Prod.ext rfl hnil⟩)
  obtain ⟨g', hresolve', hall⟩ := isDominant_actionAt 0 sums htable
  obtain rfl : g = g' := Except.ok.inj (hresolve.symm.trans hresolve')
  have hdominant := hall 4 hn 1 ht
  rw [hentry] at hdominant
  exact ⟨_, g, htable, hresolve, 4, hn, 1, ht, .shift hshift, .reduce hi hc hla, hentry,
    hdominant.beats _ (.shift hshift) nofun, hdominant⟩

end Description

end LexParse
