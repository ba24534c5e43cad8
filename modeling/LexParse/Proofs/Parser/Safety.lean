import LexParse.Proofs.Parser.Soundness

/-!
# Generated parsers keep within their tables

A parser looks its moves up by numbers: an action by state and terminal, a reduction by what the
action says, a successor by state and nonterminal. The three tables are filled independently, and
precedences replace actions cell by cell. Nevertheless no run finds a number out of range, a stack
too short for a reduction, or no successor after one.

The reason is that the states on the stack spell a path of the automaton. What calls for a reduction
is an item of the state on top, so the right side of its production is what the path ends with, and
the state before it has a transition over the left side. Precedences choose between such actions
only.

## What is proved

* `spells_unique`: a stack spells one row of symbols only, as a state is entered over one symbol.
* `mirrored_of_reachable`: every configuration of a parse has the stack of the machine of states and
  trees.
* `reachable_of_runFrom`: a run ends with a step from such a configuration.
* `exists_spells_of_reachable`: from a description to what its parser finds in the tables.
* `ne_stuck_of_parse`: so no parse ends for want of an entry.
-/

namespace LexParse.Lr

open Context

/-! ### What is to be found -/

/-- The states on a stack spell a path from the first state: each lies on the one that a transition
over its symbol comes from. Symbols, as entries, are listed from the top down. -/
inductive Spells (G : Graph) : List Frame → List Symbol → Prop where
  /-- At the bottom lies the first state. -/
  | bottom {v : Value} {position : Position} : Spells G [⟨0, v, position⟩] []
  /-- A transition leads to the state on top. -/
  | cons {frame below : Frame} {rest : List Frame} {X : Symbol} {symbols : List Symbol} :
      Spells G (below :: rest) symbols → (X, frame.state) ∈ G.transitions below.state →
      Spells G (frame :: below :: rest) (X :: symbols)

/-- What a reduction needs, and what it replaces. -/
structure Reducible (g : Grammar) (table : ParseTable) (stack : List Frame) (symbols : List Symbol)
    (r : Reduction) (q : Production) : Prop where
  /-- It is the reduction of a declared production. -/
  production : q ∈ g.productions
  /-- The reduction in the table is that of the production. -/
  reduction : r = Production.toReduction g q
  /-- There are enough entries above the bottom one. -/
  enough : r.size < stack.length
  /-- Their symbols are the right side. -/
  right : (symbols.take r.size).reverse = q.right
  /-- The state below them has a successor over the left side, and that is a state. -/
  successor : ∃ below rest row n, stack.drop r.size = below :: rest ∧
    table.gotos[below.state]? = some row ∧ row[r.left]? = some (some n) ∧ n < table.size

/-- What the parser needs for an action. -/
def Fits (g : Grammar) (table : ParseTable) (stack : List Frame) (symbols : List Symbol) :
    Act Nat → Prop
  | .shift n => n < table.size
  | .reduce n => ∃ r q, table.reductions[n]? = some r ∧ Reducible g table stack symbols r q
  | .accept => (∃ top bottom, stack = [top, bottom]) ∧ symbols = [.nonterminal g.start]
  | .error => True

section
variable {σ : Type}

/-- The configurations that a parse passes through. -/
inductive Reachable (table : ParseTable) (source : TokenSource σ) (tokens : σ) : Config σ → Prop
    where
  /-- At the start only the first state is on the stack. -/
  | start {token : Token} {rest : σ} : source.pull .origin tokens = (.ok token, rest) →
      Reachable table source tokens ⟨[⟨table.start, .none, .origin⟩], token, rest⟩
  /-- A step leads on. -/
  | next {c c' : Config σ} {event : Event} : Reachable table source tokens c →
      step table source c = .next event c' → Reachable table source tokens c'

/-- The configuration after some steps, if the parse has not ended before. -/
def configAfter (table : ParseTable) (source : TokenSource σ) (tokens : σ) : Nat → Option (Config σ)
  | 0 =>
    match source.pull .origin tokens with
    | (.ok token, rest) => some ⟨[⟨table.start, .none, .origin⟩], token, rest⟩
    | (.error _, _) => none
  | steps + 1 =>
    (configAfter table source tokens steps).bind fun c =>
      match step table source c with
      | .next _ c' => some c'
      | .stop .. => none

/-- What a parse passes through is what it has come to after some steps. -/
theorem reachable_iff {table : ParseTable} {source : TokenSource σ} {tokens : σ} {c : Config σ} :
    Reachable table source tokens c ↔ ∃ steps, configAfter table source tokens steps = some c := by
  constructor
  · intro h
    induction h with
    | start hpull => exact ⟨0, by rw [configAfter, hpull]⟩
    | next _ hstep ih =>
      obtain ⟨steps, hsteps⟩ := ih
      exact ⟨steps + 1, by rw [configAfter, hsteps, Option.bind_some, hstep]⟩
  · rintro ⟨steps, hsteps⟩
    induction steps generalizing c with
    | zero =>
      rw [configAfter] at hsteps
      split at hsteps
      · rename_i hpull
        cases hsteps
        exact .start hpull
      · cases hsteps
    | succ steps ih =>
      obtain ⟨c', hc', hsteps⟩ := Option.bind_eq_some_iff.1 hsteps
      split at hsteps
      · rename_i hstep
        cases hsteps
        exact (ih hc').next hstep
      · cases hsteps

/-- A run that ends does so by a step from a configuration that it reaches. -/
theorem reachable_of_runFrom {table : ParseTable} {source : TokenSource σ} {tokens : σ}
    {events : List Event} {limit : Nat} {c : Config σ} {r : Except Failure Value}
    (hc : Reachable table source tokens c)
    (hrun : (runFrom table source events limit c).result = some r) :
    ∃ c' event rest, Reachable table source tokens c' ∧
      step table source c' = .stop event r rest := by
  induction limit generalizing events c with
  | zero => cases hrun
  | succ limit ih =>
    rw [runFrom] at hrun
    cases hstep : step table source c with
    | next event c' =>
      rw [hstep] at hrun
      exact ih (hc.next hstep) hrun
    | stop event result rest =>
      rw [hstep] at hrun
      cases hrun
      exact ⟨c, event, rest, hc, hstep⟩

end

variable {g : Grammar} {G : Graph} {frames : List Frame} {st : List Entry}

/-! ### Paths -/

/-- A state is entered over one symbol only. -/
theorem IsAutomaton.symbol_unique (hG : IsAutomaton g G) (hg : g.WellFormed) {n n' m : Nat}
    {X Y : Symbol} (hX : (X, m) ∈ G.transitions n) (hY : (Y, m) ∈ G.transitions n') : X = Y := by
  obtain ⟨i, hi, hend, hnext, -⟩ := hG.exists_leads_of_transition hX
  obtain ⟨m', ht, hadv, -⟩ :=
    hG.exists_transition hg (Graph.lt_size_of_mem_transitions hX) hi hnext hend
  obtain rfl : m = m' := hG.transition_unique hX ht
  obtain ⟨j, -, hnext', hadv'⟩ := hG.exists_of_transition hg hY hadv (Nat.succ_pos _)
  obtain rfl : i = j := Item.advance_injective hadv'
  exact Option.some.inj (hnext.symm.trans hnext')

/-- **A stack spells one row of symbols only.** -/
theorem spells_unique (hG : IsAutomaton g G) (hg : g.WellFormed) {symbols other : List Symbol}
    (h : Spells G frames symbols) (h' : Spells G frames other) : other = symbols := by
  induction h generalizing other with
  | bottom =>
    cases h'
    rfl
  | cons _ ht ih =>
    cases h' with
    | cons h' ht' => rw [ih h', hG.symbol_unique hg ht' ht]

/-- A stack that follows the automaton spells the symbols of its trees. -/
theorem spells_of_stacked (hrep : Represents g frames st) (hst : Stacked g G st) :
    Spells G frames (st.map fun e => e.tree.symbol g) := by
  induction hrep with
  | bottom => exact .bottom
  | cons hrep _ ih =>
    cases hst with
    | cons hst _ ht =>
      obtain ⟨top, rest, rfl, htop⟩ := hrep.exists_top
      rw [← htop] at ht
      exact .cons (ih hst) ht

theorem Represents.length_eq (h : Represents g frames st) : frames.length = st.length + 1 := by
  induction h with
  | bottom => rfl
  | cons _ _ ih => rw [List.length_cons, ih, List.length_cons]

/-! ### Entries of the tables -/

section
variable {n a : Nat}

theorem size_tableOf (g : Grammar) (G : Graph) : (tableOf g G).size = G.size := by
  simp [ParseTable.size, tableOf, ParseTable.ofGraph, Graph.size]

/-- The row of a state has an action for each terminal. -/
theorem exists_action (hn : n < G.size) (ha : a < g.terminals.size) : ∃ row,
    (tableOf g G).actions[n]? = some row ∧ row[a]? = some ((tableOf g G).actionAt n a) := by
  have hs : G.states.toList[n]? = some (G.state n) := by
    rw [Array.getElem?_toList, Graph.getElem?_states hn]
  refine ⟨((ofGrammar g).row (ofGrammar g).reductionOrder n (G.state n)).1, ?_, ?_⟩
  · simp [tableOf, ParseTable.ofGraph, hs]
  · have hsize := (row_chosen (ofGrammar g) (ofGrammar g).reductionOrder n (G.state n)).1
    have hlt : a < ((ofGrammar g).row (ofGrammar g).reductionOrder n (G.state n)).1.size :=
      hsize ▸ ha
    rw [actionAt_ofGraph (ofGrammar g) hn, Array.getElem?_eq_getElem hlt]
    simp [hlt]

/-- A successor is an entry of the row of its state. -/
theorem exists_goto {m k : Nat} (h : (tableOf g G).gotoAt? n m = some k) :
    ∃ row, (tableOf g G).gotos[n]? = some row ∧ row[m]? = some (some k) := by
  rw [ParseTable.gotoAt?] at h
  obtain ⟨row, hrow, hk⟩ := Option.bind_eq_some_iff.1 (Option.join_eq_some_iff.1 h)
  exact ⟨row, hrow, hk⟩

/-- What an action calls a reduction is one, and that of the production it stands for. -/
theorem exists_reduction_of_actionAt (hG : IsAutomaton g G) (hg : g.WellFormed) (hn : n < G.size)
    {r : Nat} (hr : (tableOf g G).actionAt n a = .reduce r) : ∃ q,
    g.augmented[productionAt (ofGrammar g).reductionOrder r]? = some q ∧
      (tableOf g G).reductions[r]? = some (Production.toReduction g q) := by
  have hmem := actionAt_mem_candidates (ofGrammar g) hn (t := a) (by rw [hr]; nofun)
  rw [hr] at hmem
  rcases mem_candidatesFrom.1 hmem with ⟨_, -, heq⟩ | ⟨-, -, heq⟩ | ⟨r', hr', heq⟩
  · cases heq
  · cases heq
  · cases heq
    have hground := hG.grounded_elements hg hn
    obtain ⟨i, hi, -, -, rfl⟩ := (mem_reductions _ hground.proper.sorted).1 hr'
    obtain ⟨q, hq, -⟩ := hground.item i hi
    have horder := mem_reductionOrder hg hq
    have hlt : (ofGrammar g).reductionOrder.idxOf i.production < (tableOf g G).reductions.size := by
      simpa [tableOf, ParseTable.ofGraph] using List.idxOf_lt_length_of_mem horder
    refine ⟨q, (productionAt_idxOf horder).symm ▸ hq, ?_⟩
    rw [← reductions_ofGraph (G := G) hg hq, Array.getElem?_eq_getElem hlt]
    simp [hlt]

end

/-! ### Configurations -/

section
variable {σ : Type} {source : TokenSource σ} {tokens : σ} {c c' : Config σ} {event : Event}

/-- The stack of a parser is that of the machine of states and trees. -/
def Mirrored (g : Grammar) (G : Graph) (stack : List Frame) : Prop :=
  ∃ st, Represents g stack st ∧ Stacked g G st

/-- A step keeps to the machine, whatever the token and however the action was chosen; or it ends
the parse, but not for want of an entry. -/
theorem Mirrored.step_cases (hG : IsAutomaton g G) (hg : g.WellFormed)
    (h : Mirrored g G c.stack) :
    (∃ event c', step (tableOf g G) source c = .next event c' ∧ Mirrored g G c'.stack) ∨
      ∃ event r rest, step (tableOf g G) source c = .stop event r rest ∧ r ≠ .error .stuck := by
  obtain ⟨st, hrep, hst⟩ := h
  have hlic := licensed_ofGraph hG hg
  cases ha : (tableOf g G).terminalNumber? c.token.kind with
  | none => exact .inr ⟨_, _, _, step_unknown hrep ha, nofun⟩
  | some a =>
    cases hact : policyOf g G (topState st) a with
    | error => exact .inr ⟨_, _, _, step_unexpected hrep ha hact, nofun⟩
    | accept =>
      obtain ⟨rfl, n, t, rfl, -⟩ := hst.accept hG hg hlic hact
      obtain ⟨_, _, -, hstop⟩ := step_accept hrep ha hact
      exact .inr ⟨_, _, _, hstop, nofun⟩
    | reduce p =>
      obtain ⟨st', hred, ⟨stack, hrep', hnext⟩ | ⟨e, fault, -, -, hstop⟩⟩ :=
        step_reduce hG hg hst hrep ha hact
      · exact .inl ⟨_, _, hnext, st', hrep', (hst.reduceStep hG hg hlic hred).1⟩
      · exact .inr ⟨_, _, _, hstop, nofun⟩
    | shift n =>
      obtain ⟨stack, hrep', hnext⟩ := step_shift hrep ha hact
      rcases hpull : source.pull c.token.position c.source with ⟨fault | token, rest⟩
      · rw [hpull] at hnext
        exact .inr ⟨_, _, _, hnext, nofun⟩
      · rw [hpull] at hnext
        exact .inl ⟨_, _, hnext, _, hrep', hst.shift hG hg hlic c.token.value hact⟩

/-- **Every configuration of a parse has the stack of the machine.** -/
theorem mirrored_of_reachable (hG : IsAutomaton g G) (hg : g.WellFormed)
    (h : Reachable (tableOf g G) source tokens c) : Mirrored g G c.stack := by
  induction h with
  | start _ => exact ⟨[], .bottom, .nil⟩
  | next _ hstep ih =>
    rcases ih.step_cases hG hg with ⟨_, _, hnext, h⟩ | ⟨_, _, _, hstop, -⟩
    · rw [hnext] at hstep
      cases hstep
      exact h
    · rw [hstop] at hstep
      cases hstep

/-- A stack of the machine has what any action in the state on top needs. -/
theorem fits_of_stacked (hG : IsAutomaton g G) (hg : g.WellFormed) (hrep : Represents g frames st)
    (hst : Stacked g G st) (a : Nat) :
    Fits g (tableOf g G) frames (st.map fun e => e.tree.symbol g)
      ((tableOf g G).actionAt (topState st) a) := by
  have hlic := licensed_ofGraph hG hg
  have htop := hst.topState_lt hG hg
  cases hact : (tableOf g G).actionAt (topState st) a with
  | error => exact trivial
  | shift n =>
    have hpolicy := (policyOf_eq_iff (x := .shift n) nofun).2 hact
    rw [Fits, size_tableOf]
    exact (hG.lt_of_transition hg (hlic.shift htop hpolicy)).2
  | accept =>
    have hpolicy := (policyOf_eq_iff (x := .accept) nofun).2 hact
    obtain ⟨-, n, t, rfl, hsymbol, -⟩ := hst.accept hG hg hlic hpolicy
    refine ⟨List.length_eq_two.1 hrep.length_eq, ?_⟩
    rw [List.map_cons, List.map_nil, hsymbol]
  | reduce r =>
    obtain ⟨q, hq, hr⟩ := exists_reduction_of_actionAt hG hg htop hact
    have hpolicy := policyOf_eq_reduce_iff.2 ⟨r, hact, rfl⟩
    obtain ⟨q', popped, rest, rfl, hq', hprod, hlen, hsyms, hrest, n, ht⟩ :=
      hst.exists_popped hG hg hlic hpolicy
    obtain rfl : q = q' := Option.some.inj (hq.symm.trans hq')
    have hsize : (Production.toReduction g q).size = popped.length := hlen.symm
    obtain ⟨-, hbelow, -⟩ := hrep.split
    obtain ⟨below, bottom, hdrop, hstate⟩ := hbelow.exists_top
    have hgoto := (gotoAt?_ofGraph hG hg (hrest.topState_lt hG hg)).2 ht
    rw [← hstate] at hgoto
    obtain ⟨row, hrow, hn⟩ := exists_goto hgoto
    refine ⟨_, q, hr, List.mem_of_getElem? hprod, rfl, ?_, ?_, below, bottom, row, n, ?_, hrow, hn,
      ?_⟩
    · rw [hsize, hrep.length_eq, List.length_append]
      omega
    · rw [hsize, List.map_append, List.take_left' (List.length_map ..), ← hsyms, treesOf,
        List.map_map, List.map_reverse]
      rfl
    · rw [hsize, hdrop]
    · rw [size_tableOf]
      exact (hG.lt_of_transition hg ht).2

/-- **No run of a generated parser leaves its tables.** In every configuration that a parse reaches,
from any source of tokens, the states on the stack spell a path of the automaton from the first
state, over one row of symbols only; the state on top has a row with an action for the terminal of
the token, if that has one; and what this action needs is there. A shift goes to a state. A
reduction is in the table; it is that of a production with no more symbols than there are entries
above the bottom one, it replaces entries whose symbols are the right side, and the state below them
has a successor over the left side. Acceptance finds one entry above the bottom one, for the start
symbol. -/
theorem exists_spells_of_reachable {d : Description} {options : Options} {compiled : Compiled}
    (hcompile : (d.compile options).1 = .ok compiled) {table : ParseTable}
    (htable : compiled.parseTable = some table) (h : Reachable table source tokens c) :
    ∃ (g : Grammar) (symbols : List Symbol), d.resolveGrammar = .ok g ∧
      Spells (Graph.build (ofGrammar g) options.method) c.stack symbols ∧
      (∀ other, Spells (Graph.build (ofGrammar g) options.method) c.stack other →
        other = symbols) ∧
      ∃ top rest, c.stack = top :: rest ∧ ∀ a, table.terminalNumber? c.token.kind = some a →
        ∃ row act, table.actions[top.state]? = some row ∧ row[a]? = some act ∧
          Fits g table c.stack symbols act := by
  obtain ⟨g, hresolve, hfound⟩ := (d.parserOutcome_eq_ok_iff options).1
    ((d.tables_of_compile options hcompile).1 table htable)
  have hg := GrammarDecl.wellFormed_of_resolve hresolve
  have hG := Graph.isAutomaton_build hg options.method
  obtain rfl : tableOf g (Graph.build (ofGrammar g) options.method) = table :=
    congrArg Prod.fst hfound
  obtain ⟨st, hrep, hst⟩ := mirrored_of_reachable hG hg h
  have hspells := spells_of_stacked hrep hst
  obtain ⟨top, rest, hstack, htop⟩ := hrep.exists_top
  refine ⟨g, _, hresolve, hspells, fun other hother => spells_unique hG hg hspells hother, top,
    rest, hstack, fun a ha => ?_⟩
  have hlt : a < g.terminals.size := by
    obtain ⟨hget, -⟩ := terminalNumber?_eq_some_iff.1 ha
    simpa using (Array.getElem?_eq_some_iff.1 hget).1
  obtain ⟨row, hrow, hentry⟩ := exists_action (hst.topState_lt hG hg) hlt
  rw [htop]
  exact ⟨row, _, hrow, hentry, fits_of_stacked hG hg hrep hst a⟩

/-- Between two summands the level of the operator decides the cell: three entries are reduced where
a shift was possible. -/
theorem exists_spells_of_sums : ∃ compiled table c,
    (sums.compile { method := .merged }).1 = .ok compiled ∧ compiled.parseTable = some table ∧
    Reachable table .list threeSummands c ∧
    (c.stack.map (·.state), c.token.kind, (table.action 4 "PLUS").render) =
      ([4, 3, 1, 0], "PLUS", "r1") ∧
    ∃ (g : Grammar) (symbols : List Symbol), sums.resolveGrammar = .ok g ∧
      Spells (Graph.build (ofGrammar g) .merged) c.stack symbols ∧
      (∀ other, Spells (Graph.build (ofGrammar g) .merged) c.stack other → other = symbols) ∧
      ∃ top rest, c.stack = top :: rest ∧ ∀ a, table.terminalNumber? c.token.kind = some a →
        ∃ row act, table.actions[top.state]? = some row ∧ row[a]? = some act ∧
          Fits g table c.stack symbols act := by
  have hrun : ((sums.compile { method := .merged }).1.toOption.bind fun compiled =>
      compiled.parseTable.bind fun table =>
        (configAfter table .list threeSummands 5).map fun c =>
          (c.stack.map (·.state), c.token.kind, (table.action 4 "PLUS").render)) =
        some ([4, 3, 1, 0], "PLUS", "r1") := by
    decide +kernel
  obtain ⟨compiled, hcompile, hrun⟩ := Option.bind_eq_some_iff.1 hrun
  obtain ⟨table, htable, hrun⟩ := Option.bind_eq_some_iff.1 hrun
  obtain ⟨c, hc, hlook⟩ := Option.map_eq_some_iff.1 hrun
  have hcompile := toOption_eq_some_iff.1 hcompile
  have hreach := reachable_iff.2 ⟨5, hc⟩
  exact ⟨compiled, table, c, hcompile, htable, hreach, hlook,
    exists_spells_of_reachable hcompile htable hreach⟩

/-- **A parse does not end for want of an entry**: it is not stuck. -/
theorem ne_stuck_of_parse {d : Description} {options : Options} {compiled : Compiled}
    (hcompile : (d.compile options).1 = .ok compiled) {table : ParseTable}
    (htable : compiled.parseTable = some table) (source : TokenSource σ) (limit : Nat)
    (tokens : σ) : (parse table source limit tokens).result ≠ some (.error .stuck) := by
  obtain ⟨g, hresolve, hfound⟩ := (d.parserOutcome_eq_ok_iff options).1
    ((d.tables_of_compile options hcompile).1 table htable)
  have hg := GrammarDecl.wellFormed_of_resolve hresolve
  have hG := Graph.isAutomaton_build hg options.method
  obtain rfl : tableOf g (Graph.build (ofGrammar g) options.method) = table :=
    congrArg Prod.fst hfound
  intro hrun
  unfold parse at hrun
  split at hrun
  · cases hrun
  · rename_i token rest hpull
    obtain ⟨c, event, rest', hreach, hstop⟩ := reachable_of_runFrom (.start hpull) hrun
    rcases (mirrored_of_reachable hG hg hreach).step_cases hG hg with
      ⟨_, _, hnext, -⟩ | ⟨_, _, _, hstop', hne⟩
    · rw [hnext] at hstop
      cases hstop
    · rw [hstop'] at hstop
      cases hstop
      exact hne rfl

end

end LexParse.Lr
