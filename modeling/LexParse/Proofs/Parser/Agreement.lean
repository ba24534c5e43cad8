import LexParse.Proofs.Lr.Agreement
import LexParse.Proofs.Parser.Completeness

/-!
# Merged and canonical parsers agree

Where the merged table has no cell with two candidates, the parsers of both tables do the same as
far as a user can see: on every list of tokens both end, with the same value or with the rejection
of the same token. They differ only in what they say could have stood in its place.

Between two tokens that are taken, both make the same reductions. On the token that is rejected the
merged parser may make more of them, with values that are thrown away; they come to an end, and then
the token is rejected at last.

## What is proved

* `agree_or_shift`: on one token both parsers end alike, or both take it.
* `agree_of_conflictFree`: from a description to the results of both parsers.
-/

namespace LexParse.Lr

open Context Relation

/-- Two results are the same value, or the rejection of the same token in the same words. -/
def Agree (r r' : Except Failure Value) : Prop :=
  (∃ v, r = .ok v ∧ r' = .ok v) ∨
    ∃ x x' : Rejection, r = .error (.rejected x) ∧ r' = .error (.rejected x') ∧
      x.token = x'.token ∧ x.message = x'.message

variable {g : Grammar} {A B G : Graph} {a : Nat}

/-- The parser makes all reductions of the machine. -/
theorem ends_of_reduceSteps {σ : Type} (source : TokenSource σ) {c : Config σ} {st y : List Entry}
    (hG : IsAutomaton g G) (hg : g.WellFormed) (htotal : g.Total) (hst : Stacked g G st)
    (hrep : Represents g c.stack st) (ha : (tableOf g G).terminalNumber? c.token.kind = some a)
    (hsteps : ReflTransGen (ReduceStep g G (policyOf g G) a 0) st y) :
    ∃ stack, Represents g stack y ∧ ∀ r, Ends (tableOf g G) source { c with stack } r →
      Ends (tableOf g G) source c r := by
  induction hsteps using ReflTransGen.head_induction_on generalizing c with
  | refl => exact ⟨c.stack, hrep, fun _ h => h⟩
  | head hstep _ ih =>
    obtain ⟨stack, hrep', hnext⟩ := exists_next_of_reduceStep hG hg htotal hst hrep ha hstep
    have hst' := (hst.reduceStep hG hg (licensed_ofGraph hG hg) hstep).1
    obtain ⟨stack', hrep'', hends⟩ := ih (c := { c with stack }) hst' hrep' ha
    exact ⟨stack', hrep'', fun r hr => (hends r hr).of_next hnext⟩

/-- The stacks of two parsers represent stacks of the same trees, one alongside the other. -/
structure Joint (g : Grammar) (A B : Graph) (st st' : List Entry) (frames frames' : List Frame) :
    Prop where
  stacked : Stacked g A st
  stacked' : Stacked g B st'
  alongside : Alongside A B st st'
  represents : Represents g frames st
  represents' : Represents g frames' st'

/-- Both parsers end, with results that agree. -/
def EndsAlike (g : Grammar) (A B : Graph) (c c' : Config (List Token)) : Prop :=
  ∃ r r', Ends (tableOf g A) .list c r ∧ Ends (tableOf g B) .list c' r' ∧ Agree r r'

section
variable (hA : Graph.Complete g .canonical A) (hB : IsAutomaton g B) (hg : g.WellFormed)
  (hfree : ConflictFree (ofGrammar g) A) (hfree' : ConflictFree (ofGrammar g) B)
  (htotal : g.Total) {st st' : List Entry} {frames frames' : List Frame} (token : Token)
  (tokens : List Token)
include hA hB hg hfree hfree'

/-- Where the canonical parser accepts, the merged one returns the same value. -/
theorem agree_of_accept (h : Joint g A B st st' frames frames')
    (ha : (tableOf g A).terminalNumber? token.kind = some a)
    (hact : policyOf g A (topState st) a = .accept) :
    EndsAlike g A B ⟨frames, token, tokens⟩ ⟨frames', token, tokens⟩ := by
  have hlic := licensed_ofGraph hA.automaton hg
  have hact' := ((h.alongside.top hA.automaton hB).accept_iff hA.automaton hB hg hlic
    (obeyed_ofGraph hA.automaton hg hfree) (licensed_ofGraph hB hg)
    (obeyed_ofGraph hB hg hfree')).1 hact
  obtain ⟨hst, hst', halong, hrep, hrep'⟩ := h
  obtain ⟨-, n, t, rfl, -⟩ := hst.accept hA.automaton hg hlic hact
  cases halong with
  | @cons _ e' _ rest' he hrest =>
    obtain ⟨event, v, hv, hstep⟩ :=
      @step_accept g A _ .list ⟨frames, token, tokens⟩ [] a _ hrep ha hact
    obtain ⟨event', v', hv', hstep'⟩ :=
      @step_accept g B _ .list ⟨frames', token, tokens⟩ rest' a _ hrep' ha hact'
    rw [← he.1, hv] at hv'
    cases hv'
    exact ⟨_, _, .of_stop hstep, .of_stop hstep', .inl ⟨v, rfl, rfl⟩⟩

include htotal

/-- Where the canonical parser rejects, the merged one rejects too, after some more reductions. -/
theorem agree_of_error (h : Joint g A B st st' frames frames')
    (ha : (tableOf g A).terminalNumber? token.kind = some a)
    (hact : policyOf g A (topState st) a = .error) :
    EndsAlike g A B ⟨frames, token, tokens⟩ ⟨frames', token, tokens⟩ := by
  have hlic' := licensed_ofGraph hB hg
  have hob' := obeyed_ofGraph hB hg hfree'
  obtain ⟨hst, hst', halong, hrep, hrep'⟩ := h
  obtain ⟨y, hsteps, hstop⟩ := halts (a := a) hB hg hlic' hob' hst'
  have herr : policyOf g B (topState y) a = .error := by
    by_contra hne
    exact halong.act_ne_error hA hB hg (licensed_ofGraph hA.automaton hg)
      (obeyed_ofGraph hA.automaton hg hfree) hlic' hob' hst hst' hsteps hne hstop hact
  obtain ⟨stack, hrep'', hends⟩ := ends_of_reduceSteps .list (c := ⟨frames', token, tokens⟩)
    hB hg htotal hst' hrep' ha hsteps
  exact ⟨_, _, .of_stop (step_unexpected (c := ⟨frames, token, tokens⟩) hrep ha hact),
    hends _ (.of_stop (step_unexpected (c := ⟨stack, token, tokens⟩) hrep'' ha herr)),
    .inr ⟨_, _, rfl, rfl, rfl, rfl⟩⟩

/-- Both parsers make the reductions of the canonical one. -/
theorem exists_reduced (h : Joint g A B st st' frames frames')
    (ha : (tableOf g A).terminalNumber? token.kind = some a) :
    ∃ y y' stack stack', Joint g A B y y' stack stack' ∧
      (∀ p, policyOf g A (topState y) a ≠ .reduce p) ∧
      (EndsAlike g A B ⟨stack, token, tokens⟩ ⟨stack', token, tokens⟩ →
        EndsAlike g A B ⟨frames, token, tokens⟩ ⟨frames', token, tokens⟩) := by
  have hlic := licensed_ofGraph hA.automaton hg
  have hlic' := licensed_ofGraph hB hg
  obtain ⟨hst, hst', halong, hrep, hrep'⟩ := h
  obtain ⟨y, hsteps, hstop⟩ :=
    halts (a := a) hA.automaton hg hlic (obeyed_ofGraph hA.automaton hg hfree) hst
  obtain ⟨y', hsteps', halong'⟩ :=
    halong.reduceSteps hA hB hg hlic (obeyed_ofGraph hB hg hfree') hsteps
  obtain ⟨stack, hrep₁, hends⟩ := ends_of_reduceSteps .list (c := ⟨frames, token, tokens⟩)
    hA.automaton hg htotal hst hrep ha hsteps
  obtain ⟨stack', hrep₁', hends'⟩ := ends_of_reduceSteps .list (c := ⟨frames', token, tokens⟩)
    hB hg htotal hst' hrep' ha hsteps'
  refine ⟨y, y', stack, stack', ⟨(hst.reduceSteps hA.automaton hg hlic hsteps).1,
    (hst'.reduceSteps hB hg hlic' hsteps').1, halong', hrep₁, hrep₁'⟩, hstop, ?_⟩
  rintro ⟨r, r', hr, hr', hagree⟩
  exact ⟨r, r', hends r hr, hends' r' hr', hagree⟩

omit hfree htotal in
/-- What the canonical parser takes, both take, and it is not the end of the input. -/
theorem agree_of_shift (h : Joint g A B st st' frames frames')
    (ha : (tableOf g A).terminalNumber? token.kind = some a) {n : Nat}
    (hact : policyOf g A (topState st) a = .shift n) :
    token.isEnd = false ∧ ∃ y y' stack stack', Joint g A B y y' stack stack' ∧
      ∀ token₁ tokens₁, TokenSource.list.pull token.position tokens = (.ok token₁, tokens₁) →
        EndsAlike g A B ⟨stack, token₁, tokens₁⟩ ⟨stack', token₁, tokens₁⟩ →
        EndsAlike g A B ⟨frames, token, tokens⟩ ⟨frames', token, tokens⟩ := by
  have hG := hA.automaton
  have hlic := licensed_ofGraph hG hg
  obtain ⟨hst, hst', halong, hrep, hrep'⟩ := h
  obtain ⟨n', hact', habove⟩ := (halong.top hG hB).shift hA hB hg hlic
    (obeyed_ofGraph hB hg hfree') hact
  have hend := isEnd_of_shift hG hg hst ha hact
  obtain ⟨stack, hrep₁, hstep⟩ :=
    @step_shift g A _ .list ⟨frames, token, tokens⟩ st a n hrep ha hact
  obtain ⟨stack', hrep₁', hstep'⟩ :=
    @step_shift g B _ .list ⟨frames', token, tokens⟩ st' a n' hrep' ha hact'
  refine ⟨hend, _, _, stack, stack', ⟨hst.shift hG hg hlic token.value hact,
    hst'.shift hB hg (licensed_ofGraph hB hg) token.value hact', .cons ⟨rfl, habove⟩ halong, hrep₁,
    hrep₁'⟩, ?_⟩
  rintro token₁ tokens₁ hpull ⟨r, r', hr, hr', hagree⟩
  rw [hpull] at hstep hstep'
  exact ⟨r, r', hr.of_next hstep, hr'.of_next hstep', hagree⟩

/-- **On one token both parsers end alike, or both take it.** -/
theorem agree_or_shift (h : Joint g A B st st' frames frames') :
    EndsAlike g A B ⟨frames, token, tokens⟩ ⟨frames', token, tokens⟩ ∨
      token.isEnd = false ∧ ∃ y y' stack stack', Joint g A B y y' stack stack' ∧
        ∀ token₁ tokens₁, TokenSource.list.pull token.position tokens = (.ok token₁, tokens₁) →
          EndsAlike g A B ⟨stack, token₁, tokens₁⟩ ⟨stack', token₁, tokens₁⟩ →
          EndsAlike g A B ⟨frames, token, tokens⟩ ⟨frames', token, tokens⟩ := by
  cases ha : (tableOf g A).terminalNumber? token.kind with
  | none =>
    left
    exact ⟨_, _, .of_stop (step_unknown (c := ⟨frames, token, tokens⟩) h.represents ha),
      .of_stop (step_unknown (c := ⟨frames', token, tokens⟩) h.represents' ha),
      .inr ⟨_, _, rfl, rfl, rfl, rfl⟩⟩
  | some a =>
    obtain ⟨y, y', stack, stack', hjoint, hstop, hback⟩ :=
      exists_reduced hA hB hg hfree hfree' htotal token tokens h ha
    cases hact : policyOf g A (topState y) a with
    | reduce p => exact absurd hact (hstop p)
    | error =>
      exact .inl (hback (agree_of_error hA hB hg hfree hfree' htotal token tokens hjoint ha hact))
    | accept =>
      exact .inl (hback (agree_of_accept hA hB hg hfree hfree' token tokens hjoint ha hact))
    | shift n =>
      obtain ⟨hend, z, z', stack₁, stack₁', hjoint', hshift⟩ :=
        agree_of_shift hA hB hg hfree' token tokens hjoint ha hact
      exact .inr ⟨hend, z, z', stack₁, stack₁', hjoint', fun token₁ tokens₁ hpull hends =>
        hback (hshift token₁ tokens₁ hpull hends)⟩

/-- **Both parsers end alike** on every list of tokens. -/
theorem endsAlike (h : Joint g A B st st' frames frames') :
    EndsAlike g A B ⟨frames, token, tokens⟩ ⟨frames', token, tokens⟩ := by
  induction tokens generalizing st st' frames frames' token with
  | nil =>
    rcases agree_or_shift hA hB hg hfree hfree' htotal token [] h with
      hends | ⟨-, y, y', stack, stack', hjoint, hback⟩
    · exact hends
    · -- the end of the input is not taken
      have hend : (Token.endOfInput token.position).isEnd = true := beq_self_eq_true _
      refine hback _ _ rfl ?_
      rcases agree_or_shift hA hB hg hfree hfree' htotal (.endOfInput token.position) []
        hjoint with hends | ⟨hnot, -⟩
      · exact hends
      · rw [hend] at hnot
        cases hnot
  | cons token₁ tokens₁ ih =>
    rcases agree_or_shift hA hB hg hfree hfree' htotal token (token₁ :: tokens₁) h with
      hends | ⟨-, y, y', stack, stack', hjoint, hback⟩
    · exact hends
    · exact hback _ _ rfl (ih token₁ hjoint)

end

/-- **Merged and canonical parsers agree.** Where the merged table of a description has no cell with
two candidates, neither has the canonical one. When the actions have values, the parsers of both
tables end on every list of tokens, and either both return the same value or both reject the same
token, and so the same position, with the same message. -/
theorem agree_of_conflictFree {d : Description} (options : Options)
    (hresolve : d.resolveGrammar = .ok g)
    (hfree : ConflictFree (ofGrammar g) (Graph.build (ofGrammar g) .merged)) (htotal : g.Total) :
    ConflictFree (ofGrammar g) (Graph.build (ofGrammar g) .canonical) ∧
      ∃ canonical merged,
        Generate.Yields (d.parseTable { options with method := .canonical }) (.ok canonical) ∧
        Generate.Yields (d.parseTable { options with method := .merged }) (.ok merged) ∧
        ∀ tokens, ∃ r r', (∃ steps, ∀ limit ≥ steps,
            (parse canonical .list limit tokens).result = some r ∧
            (parse merged .list limit tokens).result = some r') ∧ Agree r r' := by
  have hg := GrammarDecl.wellFormed_of_resolve hresolve
  have hA := Graph.complete_build hg .canonical
  have hB := Graph.isAutomaton_build hg .merged
  have hfree' : ConflictFree (ofGrammar g) (Graph.build (ofGrammar g) .canonical) := by
    refine .of_above hA hB hg (fun n hn => ?_) hfree
    obtain ⟨m, hm, hcovers⟩ := exists_covers hg hn
    exact ⟨m, hn, hm, hcovers⟩
  refine ⟨hfree', _, _, yields_tableOf _ hresolve hfree', yields_tableOf _ hresolve hfree,
    fun tokens => ?_⟩
  have hjoint : Joint g (Graph.build (ofGrammar g) .canonical) (Graph.build (ofGrammar g) .merged)
      [] [] [⟨0, .none, .origin⟩] [⟨0, .none, .origin⟩] := ⟨.nil, .nil, .nil, .bottom, .bottom⟩
  obtain ⟨token, rest, hpull⟩ := exists_pull_list .origin tokens
  obtain ⟨r, r', ⟨steps, hsteps⟩, ⟨steps', hsteps'⟩, hagree⟩ :=
    endsAlike hA hB hg hfree' hfree htotal token rest hjoint
  refine ⟨r, r', ⟨max steps steps', fun limit hlimit => ?_⟩, hagree⟩
  rw [parse, parse, hpull]
  exact ⟨hsteps limit (Nat.le_trans (Nat.le_max_left ..) hlimit) [],
    hsteps' limit (Nat.le_trans (Nat.le_max_right ..) hlimit) []⟩

/-- Two items, each a row of one kind of tokens before another one. When the input ends after the
first item the canonical parser rejects at once, and the merged one only after two reductions. -/
def rows : Description where
  kinds := [⟨"C", none⟩, ⟨"D", none⟩]
  grammar := {
    productions := [⟨"pair", ["item", "item"], .list, none⟩,
      ⟨"item", ["C", "item"], .list, none⟩, ⟨"item", ["D"], .list, none⟩] }

theorem agree_of_rows : ∃ g, rows.resolveGrammar = .ok g ∧
    ConflictFree (ofGrammar g) (Graph.build (ofGrammar g) .merged) ∧ g.Total ∧
    ConflictFree (ofGrammar g) (Graph.build (ofGrammar g) .canonical) ∧
    ∃ canonical merged,
      Generate.Yields (rows.parseTable { method := .canonical }) (.ok canonical) ∧
      Generate.Yields (rows.parseTable { method := .merged }) (.ok merged) ∧
      ∀ tokens, ∃ r r', (∃ steps, ∀ limit ≥ steps,
          (parse canonical .list limit tokens).result = some r ∧
          (parse merged .list limit tokens).result = some r') ∧ Agree r r' := by
  have hrun : ∃ g ∈ rows.resolveGrammar.toOption,
      ConflictFree (ofGrammar g) (Graph.build (ofGrammar g) .merged) := by
    decide +kernel
  have hactions : ∀ p ∈ rows.grammar.productions, ∀ values, ∃ v, p.action values = .ok v := by
    intro p hp values
    simp only [rows, List.mem_cons, List.not_mem_nil, or_false] at hp
    rcases hp with rfl | rfl | rfl <;> exact ⟨_, rfl⟩
  obtain ⟨g, hg, hfree⟩ := hrun
  have hresolve := toOption_eq_some_iff.1 hg
  have htotal := GrammarDecl.total_of_resolve hresolve hactions
  exact ⟨g, hresolve, hfree, htotal, agree_of_conflictFree {} hresolve hfree htotal⟩

end LexParse.Lr
