import LexParse.Proofs.Generation
import LexParse.Proofs.Lr.Halting
import LexParse.Proofs.Parser.Simulation
import Mathlib.Data.List.TakeWhile

/-!
# Completeness of generated parsers

Where no cell of the table has two candidates, a generated parser decides the grammar: on every list
of tokens of known kinds it ends, with the value of the only tree there is if the tokens are a
sentence, and with a rejection if they are not.

The tokens before the first `$EOF` are the leaves of the machine of states and trees, and the parser
makes every step that the machine makes (`exists_next_of_go`): when all actions have values nothing
else can stop it. So it inherits from the machine that every run ends, that the run over a sentence
ends in acceptance, and that it is the only one.

## What is proved

* `exists_value_of_valid`: when all actions have values so have all trees.
* `reaches_of_go`: the parser follows every run of the machine.
* `exists_outcome_of_halts`: if reductions end, what the parser says is what the machine does.
* `exists_result_of_conflictFree`: from a description to the result of a parse.
-/

namespace LexParse

variable {g : Grammar}

/-! ### Actions that always have a value -/

/-- The action of every production has a value for as many values as its right side is long. -/
def Grammar.Total (g : Grammar) : Prop :=
  ∀ p ∈ g.productions, ∀ values : List Value, values.length = p.right.length →
    ∃ v, p.action values = .ok v

/-- Declared actions that always have a value stay so in the grammar. -/
theorem GrammarDecl.total_of_resolve {d : GrammarDecl} {kinds : List TokenKind}
    (h : d.resolve kinds = .ok g)
    (hactions : ∀ p ∈ d.productions, ∀ values, ∃ v, p.action values = .ok v) : g.Total := by
  intro q hq values _
  obtain ⟨p, hp, hresolved⟩ :=
    exists_mem_of_forall₂ (forall₂_of_mapM_eq_ok (resolve_eq_ok h).2.2.1).flip hq
  rw [(resolveProduction_eq_ok hresolved).2.2]
  exact hactions p hp values

theorem Tree.exists_values {ts : List Tree} (h : ∀ t ∈ ts, ∃ v, t.evaluate g = .ok v) :
    ∃ vs, vs.length = ts.length ∧ evaluateAll g ts = .ok vs := by
  induction ts with
  | nil => exact ⟨[], rfl, rfl⟩
  | cons t ts ih =>
    obtain ⟨v, hv⟩ := h t (List.mem_cons_self ..)
    obtain ⟨vs, hlen, hvs⟩ := ih fun u hu => h u (List.mem_cons_of_mem _ hu)
    exact ⟨v :: vs, by simp [hlen], by simp [evaluateAll, hv, hvs]⟩

/-- **When all actions have values so have all trees.** -/
theorem exists_value_of_valid (htotal : g.Total) {t : Tree} (h : t.Valid g) :
    ∃ v, t.evaluate g = .ok v := by
  induction h with
  | leaf => exact ⟨_, rfl⟩
  | @node n p children hp hsyms _ ih =>
    obtain ⟨vs, hlen, hvs⟩ := Tree.exists_values ih
    have hright : vs.length = p.right.length := by rw [hlen, ← hsyms, List.length_map]
    obtain ⟨v, hv⟩ := htotal p (List.mem_of_getElem? hp) vs hright
    exact ⟨v, by simp [Tree.evaluate, hvs, hp, hv]⟩

/-- A tree of the start symbol with the given leaves. -/
structure Tree.Parses (g : Grammar) (t : Tree) (l : List (Nat × Value)) : Prop where
  valid : t.Valid g
  symbol : t.symbol g = .nonterminal g.start
  leaves : t.leaves = l

/-! ### Tokens as leaves -/

/-- The leaf that a token stands for: the terminal with the name of its kind, and its value. -/
def Grammar.leafOf (g : Grammar) (token : Token) : Nat × Value :=
  ((g.terminals.map (·.name)).toList.idxOf token.kind, token.value)

/-- The leaves that the tokens before the first `$EOF` stand for. -/
def Grammar.input (g : Grammar) (tokens : List Token) : List (Nat × Value) :=
  (tokens.takeWhile fun token => !token.isEnd).map g.leafOf

/-- The kinds of the tokens before the first `$EOF` are terminals of the grammar. -/
def Grammar.Knows (g : Grammar) (tokens : List Token) : Prop :=
  ∀ token ∈ tokens.takeWhile (fun token => !token.isEnd),
    token.kind ∈ (g.terminals.map (·.name)).toList

instance (g : Grammar) (tokens : List Token) : Decidable (g.Knows tokens) :=
  inferInstanceAs (Decidable (∀ token ∈ tokens.takeWhile (fun token => !token.isEnd),
    token.kind ∈ (g.terminals.map (·.name)).toList))

section
variable {token : Token} {tokens : List Token}

theorem Grammar.input_of_isEnd (h : token.isEnd = true) : g.input (token :: tokens) = [] := by
  simp [input, h]

theorem Grammar.input_cons (h : token.isEnd = false) :
    g.input (token :: tokens) = g.leafOf token :: g.input tokens := by
  simp [input, h]

theorem Grammar.Knows.of_cons (h : g.Knows (token :: tokens)) (hend : token.isEnd = false) :
    token.kind ∈ (g.terminals.map (·.name)).toList ∧ g.Knows tokens := by
  simp only [Knows, List.takeWhile_cons, hend, Bool.not_false, if_true, List.mem_cons,
    forall_eq_or_imp] at h
  exact h

/-- A token that does not end the stream is not the end of the input. -/
theorem Grammar.WellFormed.idxOf_kind_ne_zero (hg : g.WellFormed) (h : token.isEnd = false) :
    (g.terminals.map (·.name)).toList.idxOf token.kind ≠ 0 := by
  have hhead : (g.terminals.map (·.name)).toList.head? = some Token.endKind := by
    rw [List.head?_eq_getElem?]
    exact Array.getElem?_toList.trans hg.end_first
  obtain ⟨rest, hnames⟩ := List.head?_eq_some_iff.1 hhead
  rw [hnames, ne_eq, List.idxOf_eq_zero_iff_head_eq (List.cons_ne_nil _ _), List.head_cons]
  intro heq
  rw [Token.isEnd, ← heq, beq_self_eq_true] at h
  cases h

/-- The leaves are terminals of the grammar, and none is the end of the input. -/
theorem Grammar.Knows.of_mem_input (h : g.Knows tokens) (hg : g.WellFormed) {e : Nat × Value}
    (he : e ∈ g.input tokens) : e.1 < g.terminals.size ∧ e.1 ≠ 0 := by
  obtain ⟨token, hmem, rfl⟩ := List.mem_map.1 he
  refine ⟨?_, hg.idxOf_kind_ne_zero ?_⟩
  · have := List.idxOf_lt_length_of_mem (h token hmem)
    simpa [Grammar.leafOf] using this
  · simpa using List.mem_takeWhile_imp hmem

end

end LexParse

namespace LexParse.Lr

open Context Relation

variable {g : Grammar} {G : Graph}

/-! ### Runs -/

section
variable {σ : Type} {table : ParseTable} {source : TokenSource σ} {c c' : Config σ}
  {event : Event} {r : Except Failure Value}

/-- The parser ends with a result, given enough steps. -/
def Ends (table : ParseTable) (source : TokenSource σ) (c : Config σ) (r : Except Failure Value) :
    Prop :=
  ∃ steps, ∀ limit ≥ steps, ∀ events, (runFrom table source events limit c).result = some r

theorem Ends.of_stop {event : Option Event} {rest : σ}
    (h : step table source c = .stop event r rest) : Ends table source c r := by
  refine ⟨1, fun limit hlimit events => ?_⟩
  obtain ⟨k, rfl⟩ : ∃ k, limit = k + 1 := ⟨_, (Nat.succ_pred_eq_of_pos hlimit).symm⟩
  rw [runFrom, h]

theorem Ends.of_next (h : step table source c = .next event c') (h' : Ends table source c' r) :
    Ends table source c r := by
  obtain ⟨steps, hsteps⟩ := h'
  refine ⟨steps + 1, fun limit hlimit events => ?_⟩
  obtain ⟨k, rfl⟩ : ∃ k, limit = k + 1 := ⟨limit - 1, by omega⟩
  rw [runFrom, h]
  exact hsteps k (by omega) _

end

/-- The column of a kind that the grammar knows is the terminal of the leaf. -/
theorem terminalNumber?_of_mem {token : Token}
    (h : token.kind ∈ (g.terminals.map (·.name)).toList) :
    (tableOf g G).terminalNumber? token.kind = some (g.leafOf token).1 := by
  have hlist : ∀ names : Array String, token.kind ∈ names.toList →
      names.idxOf? token.kind = some (names.toList.idxOf token.kind) := by
    rintro ⟨names⟩ hmem
    obtain ⟨i, hi⟩ := Option.isSome_iff_exists.1 (List.isSome_idxOf?.2 hmem)
    simp [List.idxOf_eq_getD_idxOf?, hi]
  exact hlist _ h

/-- When all actions have values nothing stops the parser in a reduction. -/
theorem exists_next_of_reduceStep {σ : Type} {source : TokenSource σ} {c : Config σ}
    {st st' : List Entry} {a : Nat} (hG : IsAutomaton g G) (hg : g.WellFormed) (htotal : g.Total)
    (hst : Stacked g G st) (hrep : Represents g c.stack st)
    (ha : (tableOf g G).terminalNumber? c.token.kind = some a)
    (hred : ReduceStep g G (policyOf g G) a 0 st st') : ∃ stack, Represents g stack st' ∧
      step (tableOf g G) source c = .next ⟨stack, .reduce, c.token⟩ { c with stack } := by
  have hact : ∃ p, policyOf g G (topState st) a = .reduce p := by
    obtain ⟨hact, -⟩ := hred
    exact ⟨_, hact⟩
  obtain ⟨p, hact⟩ := hact
  obtain ⟨st'', hred', hnext | ⟨e, fault, he, hfault, -⟩⟩ := step_reduce hG hg hst hrep ha hact
  · obtain rfl := hred.unique hG hred'
    exact hnext
  · -- the tree of the reduction is valid, so it has a value
    have hvalid := (hst.reduceStep hG hg (licensed_ofGraph hG hg) hred').1.valid e.tree
      (List.mem_map_of_mem (List.mem_reverse.2 he))
    obtain ⟨v, hv⟩ := exists_value_of_valid htotal hvalid
    rw [hfault] at hv
    cases hv

/-- The parser is where the machine is: it has its stack, and the tokens to come are its leaves. -/
structure Mirrors (g : Grammar) (c : Config (List Token)) (x : List Entry × List (Nat × Value)) :
    Prop where
  stack : Represents g c.stack x.1
  input : g.input (c.token :: c.source) = x.2
  knows : g.Knows (c.token :: c.source)

section
variable {c : Config (List Token)} {x y : List Entry × List (Nat × Value)}

/-- The terminal of the token is that of the leaf in front. -/
theorem Mirrors.terminalNumber? (h : Mirrors g c x) (hg : g.WellFormed) :
    (tableOf g G).terminalNumber? c.token.kind = some (front x.2) := by
  rw [← h.input]
  cases hend : c.token.isEnd with
  | true =>
    rw [Grammar.input_of_isEnd hend, beq_iff_eq.1 hend]
    exact terminalNumber?_eq_some_iff.2 ⟨hg.end_first, fun b hb => absurd hb (Nat.not_lt_zero b)⟩
  | false =>
    rw [Grammar.input_cons hend]
    exact terminalNumber?_of_mem (h.knows.of_cons hend).1

/-- Looking at the next token changes nothing about the leaves to come. -/
theorem exists_pull (position : Position) {tokens : List Token} (h : g.Knows tokens) :
    ∃ token rest, TokenSource.list.pull position tokens = (.ok token, rest) ∧
      g.input (token :: rest) = g.input tokens ∧ g.Knows (token :: rest) := by
  cases tokens with
  | nil =>
    have hend : (Token.endOfInput position).isEnd = true := beq_self_eq_true _
    exact ⟨_, [], rfl, Grammar.input_of_isEnd hend, by simp [Grammar.Knows, hend]⟩
  | cons token rest => exact ⟨token, rest, rfl, rfl, h⟩

/-- **The parser makes every step that the machine makes.** -/
theorem exists_next_of_go (hG : IsAutomaton g G) (hg : g.WellFormed) (htotal : g.Total)
    (h : Mirrors g c x) (hst : Stacked g G x.1) (hgo : Go g G (policyOf g G) 0 x y) :
    ∃ event c', step (tableOf g G) .list c = .next event c' ∧ Mirrors g c' y := by
  have ha := h.terminalNumber? (G := G) hg
  cases hgo with
  | @shift st a n v rest hact =>
    obtain ⟨stack, hrep, hstep⟩ := step_shift h.stack ha hact
    have hend : c.token.isEnd = false := by
      rw [Bool.eq_false_iff]
      intro hend
      cases (Grammar.input_of_isEnd hend).symm.trans h.input
    obtain ⟨hleaf, hrest⟩ := List.cons.inj ((Grammar.input_cons hend).symm.trans h.input)
    obtain ⟨token, source, hpull, hinput, hknows⟩ :=
      exists_pull c.token.position (h.knows.of_cons hend).2
    obtain rfl : c.token.value = v := congrArg Prod.snd hleaf
    rw [hpull] at hstep
    exact ⟨_, _, hstep, hrep, hinput.trans hrest, hknows⟩
  | @reduce st st' input hred =>
    obtain ⟨stack, hrep, hstep⟩ := exists_next_of_reduceStep hG hg htotal hst h.stack ha hred
    exact ⟨_, _, hstep, hrep, h.input, h.knows⟩

/-- **The parser follows every run of the machine.** -/
theorem reaches_of_go (hG : IsAutomaton g G) (hg : g.WellFormed) (htotal : g.Total)
    (h : Mirrors g c x) (hst : Stacked g G x.1)
    (hgo : ReflTransGen (Go g G (policyOf g G) 0) x y) :
    ∃ c', Mirrors g c' y ∧ ∀ r, Ends (tableOf g G) .list c' r → Ends (tableOf g G) .list c r := by
  induction hgo using ReflTransGen.head_induction_on generalizing c with
  | refl => exact ⟨c, h, fun _ hr => hr⟩
  | head hstep _ ih =>
    obtain ⟨event, c', hnext, h'⟩ := exists_next_of_go hG hg htotal h hst hstep
    have hst' := (Stacked.go hG hg (licensed_ofGraph hG hg) hst (.single hstep)).1
    obtain ⟨c'', h'', hends⟩ := ih h' hst'
    exact ⟨c'', h'', fun r hr => (hends r hr).of_next hnext⟩

/-- **What a parser says is what the machine does**, if reductions end: it returns the value of the
tree that the machine accepts, or it rejects a token and the machine accepts none. -/
theorem exists_outcome_of_halts (hG : IsAutomaton g G) (hg : g.WellFormed) (htotal : g.Total)
    (hhalts : ∀ {a st}, Stacked g G st → Halts g G (policyOf g G) a st) {l : List (Nat × Value)}
    (h : Mirrors g c ([], l)) : ∃ r, Ends (tableOf g G) .list c r ∧
      ((∃ tree v, Accepts g G (policyOf g G) [] l tree ∧ tree.evaluate g = .ok v ∧ r = .ok v) ∨
        (∀ tree, ¬ Accepts g G (policyOf g G) [] l tree) ∧
          ∃ rejection, r = .error (.rejected rejection)) := by
  have hlic := licensed_ofGraph hG hg
  obtain ⟨st, l', hgo, hst, hend⟩ := exists_go_end_of_halts hG hg hlic hhalts .nil
    fun e he => (h.knows.of_mem_input hg (h.input.symm ▸ he)).2
  obtain ⟨c', h', hends⟩ := reaches_of_go hG hg htotal h .nil hgo
  rcases hend with herr | ⟨hacc, rfl⟩
  · obtain ⟨rejection, hstep⟩ := step_error h'.stack (h'.terminalNumber? hg) herr
    refine ⟨_, hends _ (.of_stop hstep), .inr ⟨?_, rejection, rfl⟩⟩
    -- a run to acceptance would be this run
    rintro tree ⟨n, hgo', hacc⟩
    cases eq_of_ends hG hgo hgo' (.inl herr) (.inr hacc)
    cases hacc.symm.trans herr
  · obtain ⟨-, n, tree, rfl, -⟩ := hst.accept hG hg hlic hacc
    obtain ⟨_, v, hv, hstep⟩ := step_accept h'.stack (h'.terminalNumber? hg) hacc
    exact ⟨_, hends _ (.of_stop hstep), .inl ⟨tree, v, ⟨n, hgo, hacc⟩, hv, rfl⟩⟩

/-- **A parser without conflicts decides the grammar.** -/
theorem exists_ends (hG : IsAutomaton g G) (hg : g.WellFormed)
    (hfree : ConflictFree (ofGrammar g) G) (htotal : g.Total) {l : List (Nat × Value)}
    (h : Mirrors g c ([], l)) : ∃ r, Ends (tableOf g G) .list c r ∧
      ((∃ tree v, tree.Parses g l ∧ (∀ other : Tree, other.Parses g l → other = tree) ∧
          tree.evaluate g = .ok v ∧ r = .ok v) ∨
        ¬ g.Sentence (l.map (·.1)) ∧ ∃ rejection, r = .error (.rejected rejection)) := by
  have hlic := licensed_ofGraph hG hg
  have hob := obeyed_ofGraph hG hg hfree
  -- the machine accepts the trees over the leaves, and no others
  have haccepts : ∀ tree, Accepts g G (policyOf g G) [] l tree ↔ tree.Parses g l := by
    intro tree
    constructor
    · intro hacc
      obtain ⟨hvalid, hsymbol, hleaves⟩ := Stacked.nil.of_accepts hG hg hlic hacc
      exact ⟨hvalid, hsymbol, by simpa [Tree.leavesOf] using hleaves⟩
    · rintro ⟨hvalid, hsymbol, rfl⟩
      exact accepts_of_sentence hG hg hob hvalid hsymbol
  obtain ⟨r, hr, ⟨tree, v, hacc, hv, rfl⟩ | ⟨hnot, hrejected⟩⟩ :=
    exists_outcome_of_halts hG hg htotal (fun hst => halts hG hg hlic hob hst) h
  · refine ⟨_, hr, .inl ⟨tree, v, (haccepts tree).1 hacc, fun other hother => ?_, hv, rfl⟩⟩
    exact ((haccepts other).2 hother).unique hacc hG
  · refine ⟨r, hr, .inr ⟨fun hsentence => ?_, hrejected⟩⟩
    rw [Grammar.Sentence, List.map_map] at hsentence
    obtain ⟨ts, hts⟩ := exists_forest_of_derives hsentence fun e he =>
      (h.knows.of_mem_input hg (h.input.symm ▸ he)).1
    obtain ⟨tree, rfl, hsymbol, hvalid, hleaves⟩ := hts.exists_tree
    exact hnot tree ((haccepts tree).2 ⟨hvalid, hsymbol, hleaves⟩)

/-- Where no cell has two candidates the table is generated. -/
theorem yields_tableOf {d : Description} (options : Options) (hresolve : d.resolveGrammar = .ok g)
    (hfree : ConflictFree (ofGrammar g) (Graph.build (ofGrammar g) options.method)) :
    Generate.Yields (d.parseTable options)
      (.ok (tableOf g (Graph.build (ofGrammar g) options.method))) := by
  have htable := (d.parserOutcome_eq_ok_iff options).2
    ⟨g, hresolve, Prod.ext rfl hfree.snd_ofGraph⟩
  exact htable ▸ d.yields_parseTable options

/-- **A parser generated without conflicts decides its grammar.** When the actions have values, and
the kinds of the tokens before the first `$EOF` are terminals, the parse ends. It returns a value
just when these tokens are a sentence, and this is the value of the only tree over them; else it
rejects a token. -/
theorem exists_result_of_conflictFree {d : Description} {options : Options}
    (hresolve : d.resolveGrammar = .ok g)
    (hfree : ConflictFree (ofGrammar g) (Graph.build (ofGrammar g) options.method))
    (htotal : g.Total) {tokens : List Token} (hknows : g.Knows tokens) :
    ∃ table r, Generate.Yields (d.parseTable options) (.ok table) ∧
      (∃ steps, ∀ limit ≥ steps, (parse table .list limit tokens).result = some r) ∧
      ((∃ v, r = .ok v) ↔ g.Sentence ((g.input tokens).map (·.1))) ∧
      (∀ v, r = .ok v → ∃ tree : Tree, tree.Parses g (g.input tokens) ∧
        (∀ other : Tree, other.Parses g (g.input tokens) → other = tree) ∧
        tree.evaluate g = .ok v) ∧
      ((∀ v, r ≠ .ok v) → ∃ rejection, r = .error (.rejected rejection)) := by
  have hg := GrammarDecl.wellFormed_of_resolve hresolve
  have hG := Graph.isAutomaton_build hg options.method
  have htable : d.parserOutcome options =
      .ok (tableOf g (Graph.build (ofGrammar g) options.method)) :=
    (d.parserOutcome_eq_ok_iff options).2 ⟨g, hresolve, Prod.ext rfl hfree.snd_ofGraph⟩
  obtain ⟨token, rest, hpull, hinput, hknows'⟩ := exists_pull .origin hknows
  obtain ⟨r, ⟨steps, hsteps⟩, hr⟩ := exists_ends hG hg hfree htotal
    (c := ⟨[⟨0, .none, .origin⟩], token, rest⟩) (l := g.input tokens) ⟨.bottom, hinput, hknows'⟩
  refine ⟨_, r, htable ▸ d.yields_parseTable options, ⟨steps, fun limit hlimit => ?_⟩, ?_⟩
  · rw [parse, hpull]
    exact hsteps limit hlimit []
  · rcases hr with ⟨tree, v, hparses, hunique, hv, rfl⟩ | ⟨hnot, rejection, rfl⟩
    · have hsentence := hparses.valid.sentence hparses.symbol
      rw [hparses.leaves] at hsentence
      refine ⟨iff_of_true ⟨v, rfl⟩ hsentence, ?_, fun hne => absurd rfl (hne v)⟩
      rintro w ⟨⟩
      exact ⟨tree, hparses, hunique, hv⟩
    · exact ⟨iff_of_false (by simp) hnot, nofun, fun _ => ⟨rejection, rfl⟩⟩

/-- Balanced parentheses. -/
def balanced : Description where
  kinds := [⟨"OPEN", none⟩, ⟨"CLOSE", none⟩]
  grammar := {
    productions := [⟨"s", ["OPEN", "s", "CLOSE", "s"], .list, none⟩, ⟨"s", [], .list, none⟩] }

/-- One pair of parentheses. -/
def onePair : List Token := [⟨"OPEN", .str "(", "(", .origin⟩, ⟨"CLOSE", .str ")", ")", .origin⟩]

theorem exists_result_of_balanced : ∃ g, balanced.resolveGrammar = .ok g ∧
    ConflictFree (ofGrammar g) (Graph.build (ofGrammar g) .merged) ∧ g.Total ∧ g.Knows onePair ∧
    ∃ table r, Generate.Yields (balanced.parseTable { method := .merged }) (.ok table) ∧
      (∃ steps, ∀ limit ≥ steps, (parse table .list limit onePair).result = some r) ∧
      ((∃ v, r = .ok v) ↔ g.Sentence ((g.input onePair).map (·.1))) ∧
      (∀ v, r = .ok v → ∃ tree : Tree, tree.Parses g (g.input onePair) ∧
        (∀ other : Tree, other.Parses g (g.input onePair) → other = tree) ∧
        tree.evaluate g = .ok v) ∧
      ((∀ v, r ≠ .ok v) → ∃ rejection, r = .error (.rejected rejection)) := by
  have hrun : ∃ g ∈ balanced.resolveGrammar.toOption,
      ConflictFree (ofGrammar g) (Graph.build (ofGrammar g) .merged) ∧ g.Knows onePair := by
    decide +kernel
  have hactions : ∀ p ∈ balanced.grammar.productions, ∀ values, ∃ v, p.action values = .ok v := by
    intro p hp values
    simp only [balanced, List.mem_cons, List.not_mem_nil, or_false] at hp
    rcases hp with rfl | rfl <;> exact ⟨_, rfl⟩
  obtain ⟨g, hg, hfree, hknows⟩ := hrun
  have hresolve := toOption_eq_some_iff.1 hg
  have htotal := GrammarDecl.total_of_resolve hresolve hactions
  exact ⟨g, hresolve, hfree, htotal, hknows,
    exists_result_of_conflictFree hresolve hfree htotal hknows⟩

end

end LexParse.Lr
