import LexParse.Proofs.Lr.Termination
import LexParse.Proofs.Parser.Soundness
import LexParse.Proofs.Parser.Completeness

/-!
# When parses end

Nothing bounds the number of reductions between two tokens in general. A precedence may prefer to
reduce a nonterminal to itself, or to reduce nothing to one more nonterminal, and where the same
choice comes up again the parser goes on for ever: `runsOn_of_precedence` gives a description of
each kind.

It takes both, a recursion of the grammar and a preference for it. Where no cell has two candidates
nothing is preferred, and a recursion without a choice does no harm (`halts`). Where the grammar is
neither cyclic nor hidden left recursive there is nothing to go round in (`halts_of_not_cyclic`).
Then every list of tokens is accepted or rejected after finitely many steps, whatever their kinds.

## What is proved

* `result_eq_none_of_reduceSteps`: a run that comes from one stack to another of some set by
  reductions does not end.
* `runsOn_of_precedence`: two descriptions whose parsers do not end, by either construction.
* `exists_finished_of_halts`: a parser ends if the reductions of the machine do.
* `exists_result_of_not_cyclic`: from a description to the end of its parses.
-/

namespace LexParse

/-- The actions of a description have values for any values, and still its parser does not end on
some tokens. -/
def Description.RunsOn (d : Description) (method : Lr.Method) (tokens : List Token) : Prop :=
  (∀ p ∈ d.grammar.productions, ∀ values, ∃ v, p.action values = .ok v) ∧
    ∃ compiled, (d.compile { method }).1 = .ok compiled ∧
      ∀ limit, (compiled.parseFrom .list limit tokens).1 = .error .unfinished

namespace Lr

open Context Relation

variable {g : Grammar} {G : Graph} {a : Nat}

/-! ### Runs that do not end -/

section
variable {σ : Type} {source : TokenSource σ} {c : Config σ} {st : List Entry}

/-- A parser goes on for ever if from each stack of some set it comes to another one by a
reduction. -/
theorem result_eq_none_of_reduceSteps (hG : IsAutomaton g G) (hg : g.WellFormed)
    (htotal : g.Total) {P : List Entry → Prop}
    (hP : ∀ st, P st → ∃ st', ReduceStep g G (policyOf g G) a 0 st st' ∧ P st')
    (hst : Stacked g G st) (hrep : Represents g c.stack st)
    (ha : (tableOf g G).terminalNumber? c.token.kind = some a) (h : P st) (events : List Event)
    (limit : Nat) :
    (runFrom (tableOf g G) source events limit c).result = none := by
  induction limit generalizing c st events with
  | zero => rfl
  | succ limit ih =>
    obtain ⟨st', hred, h'⟩ := hP st h
    obtain ⟨stack, hrep', hstep⟩ :=
      exists_next_of_reduceStep hG hg htotal hst hrep ha hred
    rw [runFrom, hstep]
    exact ih (c := { c with stack }) (hst.reduceStep hG hg (licensed_ofGraph hG hg) hred).1 hrep' ha
      h' _

end

/-- A state calls for a reduction of some entries, and over its left side another one leads on. -/
def Redoes (g : Grammar) (G : Graph) (a top p size below next : Nat) : Prop :=
  policyOf g G top a = .reduce p ∧
    ∃ q ∈ g.augmented[p]?, q.right.length = size ∧ (.nonterminal q.left, next) ∈ G.transitions below

instance (g : Grammar) (G : Graph) (a top p size below next : Nat) :
    Decidable (Redoes g G a top p size below next) :=
  inferInstanceAs (Decidable (_ ∧ ∃ q ∈ g.augmented[p]?, _ ∧ _))

theorem Redoes.reduceStep {top p size below next : Nat} (h : Redoes g G a top p size below next)
    (popped rest : List Entry) (htop : topState (popped ++ rest) = top)
    (hsize : popped.length = size) (hbelow : topState rest = below) : ∃ tree,
      ReduceStep g G (policyOf g G) a 0 (popped ++ rest) (⟨next, tree⟩ :: rest) := by
  subst htop hsize hbelow
  obtain ⟨hact, q, hq, hlen, ht⟩ := h
  exact ⟨_, .intro hact hq hlen.symm (Nat.zero_le _) ht⟩

/-- A description runs on if its table is generated, and the parser comes from the empty stack to
others of some set by reductions on the first token. -/
theorem runsOn_of_reduceSteps {d : Description} {method : Method}
    (hactions : ∀ p ∈ d.grammar.productions, ∀ values, ∃ v, p.action values = .ok v)
    (hresolve : d.resolveGrammar = .ok g)
    (hcompile : ((d.compile { method }).1.toOption.bind (·.parseTable)).isSome = true)
    {token : Token} {tokens : List Token}
    (ha : (tableOf g (Graph.build (ofGrammar g) method)).terminalNumber? token.kind = some a)
    {P : List Entry → Prop}
    (hP : ∀ st, P st → ∃ st', ReduceStep g (Graph.build (ofGrammar g) method)
      (policyOf g (Graph.build (ofGrammar g) method)) a 0 st st' ∧ P st') (h : P []) :
    d.RunsOn method (token :: tokens) := by
  obtain ⟨table, htable⟩ := Option.isSome_iff_exists.1 hcompile
  obtain ⟨compiled, hcompiled, htable⟩ := Option.bind_eq_some_iff.1 htable
  have hcompiled := toOption_eq_some_iff.1 hcompiled
  obtain ⟨g', hresolve', hfound⟩ := (d.parserOutcome_eq_ok_iff { method }).1
    ((d.tables_of_compile { method } hcompiled).1 table htable)
  obtain rfl : g = g' := Except.ok.inj (hresolve.symm.trans hresolve')
  obtain rfl : tableOf g (Graph.build (ofGrammar g) method) = table := congrArg Prod.fst hfound
  have hg := GrammarDecl.wellFormed_of_resolve hresolve
  refine ⟨hactions, compiled, hcompiled, fun limit => ?_⟩
  have hparse : (parse (tableOf g (Graph.build (ofGrammar g) method)) .list limit
      (token :: tokens)).result = none :=
    result_eq_none_of_reduceSteps (c := ⟨[⟨0, .none, .origin⟩], token, tokens⟩)
      (Graph.isAutomaton_build hg method) hg (GrammarDecl.total_of_resolve hresolve hactions) hP
      .nil .bottom ha h [] limit
  simp only [Compiled.parseFrom, htable, hparse]

/-- A nonterminal that is reduced to itself rather than completed. -/
def circular : Description where
  kinds := [⟨"b", none⟩]
  grammar := {
    productions := [⟨"s", ["a", "b"], .list, none⟩, ⟨"a", ["a"], .list, some "TIGHT"⟩,
      ⟨"a", [], .list, none⟩]
    precedences := [("b", ⟨.left, 1⟩), ("TIGHT", ⟨.left, 2⟩)]
    levels := 2
    start := some "s" }

/-- A nonterminal that recurs behind nothing rather than being begun. -/
def concealed : Description where
  kinds := [⟨"c", none⟩, ⟨"d", none⟩]
  grammar := {
    productions := [⟨"a", ["b", "a", "c"], .list, none⟩, ⟨"a", ["d"], .list, none⟩,
      ⟨"b", [], .list, some "TIGHT"⟩]
    precedences := [("d", ⟨.left, 1⟩), ("TIGHT", ⟨.left, 2⟩)]
    levels := 2
    start := some "a" }

theorem circular_runsOn (method : Method) (tokens : List Token) :
    circular.RunsOn method (⟨"b", .str "b", "b", .origin⟩ :: tokens) := by
  have hrun : ∀ method : Method, ∃ g ∈ circular.resolveGrammar.toOption,
      ((circular.compile { method }).1.toOption.bind (·.parseTable)).isSome = true ∧
        let G := Graph.build (ofGrammar g) method
        (tableOf g G).terminalNumber? "b" = some 1 ∧ Redoes g G 1 0 3 0 0 2 ∧
          Redoes g G 1 2 2 1 0 2 := by
    intro method
    cases method <;> decide +kernel
  obtain ⟨g, hg, hcompile, ha, hfirst, hagain⟩ := hrun method
  refine runsOn_of_reduceSteps (P := fun st => st = [] ∨ ∃ tree, st = [⟨2, tree⟩]) ?_
    (toOption_eq_some_iff.1 hg) hcompile ha ?_ (.inl rfl)
  · intro p hp values
    simp only [circular, List.mem_cons, List.not_mem_nil, or_false] at hp
    rcases hp with rfl | rfl | rfl <;> exact ⟨_, rfl⟩
  · rintro st (rfl | ⟨tree, rfl⟩)
    · obtain ⟨tree, hstep⟩ := hfirst.reduceStep [] [] rfl rfl rfl
      exact ⟨_, hstep, .inr ⟨tree, rfl⟩⟩
    · obtain ⟨tree', hstep⟩ := hagain.reduceStep [⟨2, tree⟩] [] rfl rfl rfl
      exact ⟨_, hstep, .inr ⟨tree', rfl⟩⟩

theorem concealed_runsOn (method : Method) (tokens : List Token) :
    concealed.RunsOn method (⟨"d", .str "d", "d", .origin⟩ :: tokens) := by
  have hrun : ∀ method : Method, ∃ g ∈ concealed.resolveGrammar.toOption,
      ((concealed.compile { method }).1.toOption.bind (·.parseTable)).isSome = true ∧
        let G := Graph.build (ofGrammar g) method
        (tableOf g G).terminalNumber? "d" = some 2 ∧
          ∃ n < G.size, Redoes g G 2 0 3 0 0 2 ∧ Redoes g G 2 2 3 0 2 n ∧
            Redoes g G 2 n 3 0 n n := by
    intro method
    cases method <;> decide +kernel
  obtain ⟨g, hg, hcompile, ha, n, -, hfirst, hsecond, hagain⟩ := hrun method
  refine runsOn_of_reduceSteps (P := fun st => topState st = 0 ∨ topState st = 2 ∨ topState st = n)
    ?_ (toOption_eq_some_iff.1 hg) hcompile ha ?_ (.inl rfl)
  · intro p hp values
    simp only [concealed, List.mem_cons, List.not_mem_nil, or_false] at hp
    rcases hp with rfl | rfl | rfl <;> exact ⟨_, rfl⟩
  · rintro st (htop | htop | htop)
    · obtain ⟨tree, hstep⟩ := hfirst.reduceStep [] st htop rfl htop
      exact ⟨_, hstep, .inr (.inl rfl)⟩
    · obtain ⟨tree, hstep⟩ := hsecond.reduceStep [] st htop rfl htop
      exact ⟨_, hstep, .inr (.inr rfl)⟩
    · obtain ⟨tree, hstep⟩ := hagain.reduceStep [] st htop rfl htop
      exact ⟨_, hstep, .inr (.inr rfl)⟩

/-- **Precedences can make a parser run on**, by a cycle and by hidden left recursion. -/
theorem runsOn_of_precedence :
    (∀ method, circular.RunsOn method [⟨"b", .str "b", "b", .origin⟩]) ∧
      ∀ method, concealed.RunsOn method [⟨"d", .str "d", "d", .origin⟩] :=
  ⟨fun method => circular_runsOn method [], fun method => concealed_runsOn method []⟩

/-! ### Runs that end -/

/-- A result is a value or the rejection of a token. -/
def Finished (r : Except Failure Value) : Prop :=
  (∃ v, r = .ok v) ∨ ∃ rejection, r = .error (.rejected rejection)

/-- When all actions have values the parser makes every run of reductions that the machine makes. -/
theorem exists_stack_of_reduceSteps {σ : Type} {source : TokenSource σ} {c : Config σ}
    {st st' : List Entry} (hG : IsAutomaton g G) (hg : g.WellFormed) (htotal : g.Total)
    (hst : Stacked g G st) (hrep : Represents g c.stack st)
    (ha : (tableOf g G).terminalNumber? c.token.kind = some a)
    (hsteps : ReflTransGen (ReduceStep g G (policyOf g G) a 0) st st') :
    ∃ stack, Represents g stack st' ∧
      ∀ r, Ends (tableOf g G) source { c with stack } r → Ends (tableOf g G) source c r := by
  induction hsteps using ReflTransGen.head_induction_on generalizing c with
  | refl => exact ⟨c.stack, hrep, fun _ hr => hr⟩
  | head hred _ ih =>
    obtain ⟨stack, hrep', hnext⟩ :=
      exists_next_of_reduceStep hG hg htotal hst hrep ha hred
    obtain ⟨stack', hrep'', hends⟩ := ih (c := { c with stack })
      (hst.reduceStep hG hg (licensed_ofGraph hG hg) hred).1 hrep' ha
    exact ⟨stack', hrep'', fun r hr => (hends r hr).of_next hnext⟩

/-- Where reductions end the parser finishes, or it takes a token that does not end the input. -/
theorem finished_or_shifts {c : Config (List Token)} {st : List Entry} (hG : IsAutomaton g G)
    (hg : g.WellFormed) (htotal : g.Total)
    (hhalts : ∀ {a st}, Stacked g G st → Halts g G (policyOf g G) a st) (hst : Stacked g G st)
    (hrep : Represents g c.stack st) :
    (∃ r, Ends (tableOf g G) .list c r ∧ Finished r) ∨ c.token.isEnd = false ∧
      ∃ st' stack token rest, Stacked g G st' ∧ Represents g stack st' ∧
        TokenSource.list.pull c.token.position c.source = (.ok token, rest) ∧
        ∀ r, Ends (tableOf g G) .list ⟨stack, token, rest⟩ r → Ends (tableOf g G) .list c r := by
  have hlic := licensed_ofGraph hG hg
  cases ha : (tableOf g G).terminalNumber? c.token.kind with
  | none => exact .inl ⟨_, .of_stop (step_unknown hrep ha), .inr ⟨_, rfl⟩⟩
  | some a =>
    obtain ⟨st', hsteps, hact'⟩ := hhalts (a := a) hst
    obtain ⟨hst', -⟩ := hst.reduceSteps hG hg hlic hsteps
    obtain ⟨stack, hrep', hends⟩ :=
      exists_stack_of_reduceSteps hG hg htotal hst hrep ha hsteps
    cases hact : policyOf g G (topState st') a with
    | reduce p => exact absurd hact (hact' p)
    | error =>
      exact .inl ⟨_, hends _ (.of_stop (step_unexpected hrep' ha hact)), .inr ⟨_, rfl⟩⟩
    | accept =>
      obtain ⟨-, n, t, rfl, -⟩ := hst'.accept hG hg hlic hact
      obtain ⟨_, v, -, hstop⟩ := step_accept (c := { c with stack }) hrep' ha hact
      exact .inl ⟨_, hends _ (.of_stop hstop), .inl ⟨v, rfl⟩⟩
    | shift n =>
      obtain ⟨stack', hrep'', hnext⟩ :=
        step_shift (c := { c with stack }) hrep' ha hact
      obtain ⟨token, rest, hpull⟩ := exists_pull_list c.token.position c.source
      rw [hpull] at hnext
      exact .inr ⟨isEnd_of_shift hG hg hst' ha hact, _, stack', token, rest,
        hst'.shift hG hg hlic c.token.value hact, hrep'', hpull,
        fun r hr => hends r (hr.of_next hnext)⟩

/-- **A parser finishes on every list of tokens** if reductions end. -/
theorem exists_finished_of_halts {c : Config (List Token)} {st : List Entry}
    (hG : IsAutomaton g G) (hg : g.WellFormed) (htotal : g.Total)
    (hhalts : ∀ {a st}, Stacked g G st → Halts g G (policyOf g G) a st) (hst : Stacked g G st)
    (hrep : Represents g c.stack st) : ∃ r, Ends (tableOf g G) .list c r ∧ Finished r := by
  obtain ⟨frames, token, tokens⟩ := c
  induction tokens generalizing frames token st with
  | nil =>
    rcases finished_or_shifts hG hg htotal hhalts hst hrep with
      h | ⟨-, st', stack, token', rest, hst', hrep', hpull, hends⟩
    · exact h
    · -- the next token is the end of the input, and that is not taken
      cases hpull
      rcases finished_or_shifts hG hg htotal hhalts hst' (c := ⟨stack, _, []⟩) hrep' with
        ⟨r, hr, hfinished⟩ | ⟨hend, -⟩
      · exact ⟨r, hends r hr, hfinished⟩
      · cases hend
  | cons token' tokens ih =>
    rcases finished_or_shifts hG hg htotal hhalts hst hrep with
      h | ⟨-, st', stack, token'', rest, hst', hrep', hpull, hends⟩
    · exact h
    · cases hpull
      obtain ⟨r, hr, hfinished⟩ := ih hst' stack token' hrep'
      exact ⟨r, hends r hr, hfinished⟩

/-- **A generated parser ends where precedences have no recursion to prefer.** If no cell of its
table has two candidates, or the grammar is neither cyclic nor hidden left recursive, and all
actions have values, then every list of tokens, of whatever kinds, is given a value or rejected
after finitely many steps. -/
theorem exists_result_of_not_cyclic {d : Description} {options : Options} {compiled : Compiled}
    (hcompile : (d.compile options).1 = .ok compiled) {table : ParseTable}
    (htable : compiled.parseTable = some table) (hresolve : d.resolveGrammar = .ok g)
    (htotal : g.Total)
    (h : ConflictFree (ofGrammar g) (Graph.build (ofGrammar g) options.method) ∨
      ¬ g.Cyclic ∧ ¬ g.HiddenLeft) (tokens : List Token) :
    ∃ r, (∃ steps, ∀ limit ≥ steps, (parse table .list limit tokens).result = some r) ∧
      ((∃ v, r = .ok v) ∨ ∃ rejection, r = .error (.rejected rejection)) := by
  obtain ⟨g', hresolve', hfound⟩ := (d.parserOutcome_eq_ok_iff options).1
    ((d.tables_of_compile options hcompile).1 table htable)
  obtain rfl : g = g' := Except.ok.inj (hresolve.symm.trans hresolve')
  have hg := GrammarDecl.wellFormed_of_resolve hresolve
  have hG := Graph.isAutomaton_build hg options.method
  obtain rfl : tableOf g (Graph.build (ofGrammar g) options.method) = table :=
    congrArg Prod.fst hfound
  have hlic := licensed_ofGraph hG hg
  have hhalts : ∀ {a st}, Stacked g (Graph.build (ofGrammar g) options.method) st →
      Halts g (Graph.build (ofGrammar g) options.method)
        (policyOf g (Graph.build (ofGrammar g) options.method)) a st := by
    intro a st hst
    rcases h with hfree | ⟨hcyclic, hhidden⟩
    · exact halts hG hg hlic (obeyed_ofGraph hG hg hfree) hst
    · exact halts_of_not_cyclic hG hg hlic hcyclic hhidden hst
  obtain ⟨token, rest, hpull⟩ := exists_pull_list .origin tokens
  obtain ⟨r, ⟨steps, hsteps⟩, hfinished⟩ := exists_finished_of_halts hG hg htotal hhalts .nil
    (c := ⟨[⟨0, .none, .origin⟩], token, rest⟩) .bottom
  refine ⟨r, ⟨steps, fun limit hlimit => ?_⟩, hfinished⟩
  rw [parse, hpull]
  exact hsteps limit hlimit []

/-- A sum that breaks off: its cells have two candidates, but its grammar does not recur without
taking a token. -/
theorem exists_result_of_sums : ∃ g compiled table, sums.resolveGrammar = .ok g ∧
    (sums.compile { method := .merged }).1 = .ok compiled ∧ compiled.parseTable = some table ∧
    ¬ ConflictFree (ofGrammar g) (Graph.build (ofGrammar g) .merged) ∧
    ¬ g.Cyclic ∧ ¬ g.HiddenLeft ∧ g.Total ∧
    ∃ r, (∃ steps, ∀ limit ≥ steps,
        (parse table .list limit (threeSummands.dropLast)).result = some r) ∧
      ((∃ v, r = .ok v) ∨ ∃ rejection, r = .error (.rejected rejection)) := by
  have hrun : ∃ g ∈ sums.resolveGrammar.toOption,
      ((sums.compile { method := .merged }).1.toOption.bind (·.parseTable)).isSome = true ∧
        ¬ ConflictFree (ofGrammar g) (Graph.build (ofGrammar g) .merged) ∧
        (∀ p ∈ g.productions, p.right ≠ []) ∧
        ∀ p ∈ g.productions, ∀ n < g.nonterminals.size, p.right ≠ [.nonterminal n] := by
    decide +kernel
  obtain ⟨g, hg, hsome, hfree, hne, hone⟩ := hrun
  obtain ⟨table, htable⟩ := Option.isSome_iff_exists.1 hsome
  obtain ⟨compiled, hcompile, htable⟩ := Option.bind_eq_some_iff.1 htable
  have hcompile := toOption_eq_some_iff.1 hcompile
  have hresolve := toOption_eq_some_iff.1 hg
  have hactions : ∀ p ∈ sums.grammar.productions, ∀ values, ∃ v, p.action values = .ok v := by
    intro p hp values
    simp only [sums, List.mem_cons, List.not_mem_nil, or_false] at hp
    rcases hp with rfl | rfl
    · exact ⟨_, rfl⟩
    · cases values <;> exact ⟨_, rfl⟩
  have htotal := GrammarDecl.total_of_resolve hresolve hactions
  have hcyclic :=
    not_cyclic_of_ne_singleton (GrammarDecl.wellFormed_of_resolve hresolve) hne hone
  have hhidden := not_hiddenLeft_of_ne_nil hne
  exact ⟨g, compiled, table, hresolve, hcompile, htable, hfree, hcyclic, hhidden, htotal,
    exists_result_of_not_cyclic hcompile htable hresolve htotal (.inr ⟨hcyclic, hhidden⟩) _⟩

end Lr

end LexParse
