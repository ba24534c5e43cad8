import LexParse.Proofs.Generation
import LexParse.Proofs.Parser.Simulation

/-!
# Soundness of generated parsers

Whatever value a generated parser returns is the value of a derivation tree over the tokens it has
read, by either construction, and however precedences have chosen between competing actions.

The invariant of a run is that the parser's stack represents a stack of valid trees that follows the
automaton (`Represents`, `Stacked`), and that the leaves of these trees are the tokens read so far.
Precedences do not matter to it: they only choose between candidates, and every candidate keeps it.

## What is proved

* `exists_accepts_of_runFrom`: a run that ends with a value follows the machine until that accepts a
  tree of the value.
* `exists_tree_of_runFrom`: the tree is one over the leaves on the stack at the start of the run and
  the tokens read since.
* `exists_tree_of_parse`: the same from a description to the value of an input.
-/

namespace LexParse.Lr

open Context

section
variable {σ : Type} {source : TokenSource σ} {s s' : σ} {ts : List Token} {token : Token}

/-- The tokens that a source hands out before the first `$EOF`, or before it has no more. -/
inductive Reads (source : TokenSource σ) : σ → List Token → Prop where
  /-- There are no more tokens. -/
  | exhausted {s s' : σ} : source.next s = (.ok none, s') → Reads source s []
  /-- The next token ends the stream. -/
  | ended {s s' : σ} {token : Token} : source.next s = (.ok (some token), s') →
      token.isEnd = true → Reads source s []
  /-- The next token does not end the stream. -/
  | token {s s' : σ} {token : Token} {ts : List Token} : source.next s = (.ok (some token), s') →
      token.isEnd = false → Reads source s' ts → Reads source s (token :: ts)

/-- From a list all tokens are read up to the first `$EOF`. -/
theorem reads_list_iff {l : List Token} :
    Reads .list l ts ↔ ts = l.takeWhile fun token => !token.isEnd := by
  constructor
  · intro h
    induction h with
    | @exhausted l l' hnext =>
      cases l with
      | nil => rfl
      | cons token rest => cases hnext
    | @ended l l' token hnext hend =>
      cases l with
      | nil => cases hnext
      | cons token rest =>
        cases hnext
        simp [hend]
    | @token l l' token ts hnext hend _ ih =>
      cases l with
      | nil => cases hnext
      | cons token rest =>
        cases hnext
        simp [hend, ih]
  · rintro rfl
    induction l with
    | nil => exact .exhausted rfl
    | cons token rest ih =>
      cases hend : token.isEnd with
      | true => simpa [hend] using Reads.ended (s := token :: rest) rfl hend
      | false => simpa [hend] using Reads.token (s := token :: rest) rfl hend ih

/-- The tokens that a parse has still to read when it looks at a token. -/
def ReadsOn (source : TokenSource σ) (token : Token) (s : σ) (ts : List Token) : Prop :=
  token.isEnd = true ∧ ts = [] ∨
    token.isEnd = false ∧ ∃ rest, Reads source s rest ∧ ts = token :: rest

/-- Pulling a token reads it. -/
theorem reads_of_pull {position : Position}
    (hpull : source.pull position s = (.ok token, s')) (h : ReadsOn source token s' ts) :
    Reads source s ts := by
  unfold TokenSource.pull at hpull
  split at hpull
  · rename_i token' s'' hnext
    cases hpull
    rcases h with ⟨hend, rfl⟩ | ⟨hend, rest, hrest, rfl⟩
    · exact .ended hnext hend
    · exact .token hnext hend hrest
  · rename_i s'' hnext
    cases hpull
    rcases h with ⟨-, rfl⟩ | ⟨hend, -⟩
    · exact .exhausted hnext
    · cases hend
  · cases hpull

end

section
variable {g : Grammar} {G : Graph}

/-- Leaves stand for tokens: each has the name of a token's kind and the token's value. -/
def StandsFor (g : Grammar) (l : List (Nat × Value)) (ts : List Token) : Prop :=
  l.map (fun e => (g.symbolName (.terminal e.1), e.2)) = ts.map fun t => (t.kind, t.value)

theorem StandsFor.cons {a : Nat} {token : Token} {l : List (Nat × Value)} {ts : List Token}
    (h : StandsFor g l ts) (ha : (tableOf g G).terminalNumber? token.kind = some a) :
    StandsFor g ((a, token.value) :: l) (token :: ts) := by
  rw [StandsFor, List.map_cons, List.map_cons, symbolName_of_terminalNumber? ha]
  exact congrArg _ h

variable {σ : Type} {source : TokenSource σ} {v : Value}

/-- The tree of a value: its leaves are those on the stack and then the tokens read on. -/
def TreeOver (g : Grammar) (st : List Entry) (ts : List Token) (v : Value) : Prop :=
  ∃ (tree : Tree) (l : List (Nat × Value)), tree.Valid g ∧
    tree.symbol g = .nonterminal g.start ∧ tree.evaluate g = .ok v ∧
    tree.leaves = Tree.leavesOf (treesOf st) ++ l ∧ StandsFor g l ts

/-- **A run that ends with a value follows the machine.** -/
theorem exists_accepts_of_runFrom (hG : IsAutomaton g G) (hg : g.WellFormed) {limit : Nat}
    {events : List Event} {c : Config σ} {st : List Entry} (hst : Stacked g G st)
    (hrep : Represents g c.stack st)
    (hrun : (runFrom (tableOf g G) source events limit c).result = some (.ok v)) :
    ∃ ts l tree, ReadsOn source c.token c.source ts ∧ StandsFor g l ts ∧
      (tableOf g G).terminalNumber? c.token.kind = some (front l) ∧
      Accepts g G (policyOf g G) st l tree ∧ tree.evaluate g = .ok v := by
  have hlic := licensed_ofGraph hG hg
  induction limit generalizing events c st with
  | zero => cases hrun
  | succ limit ih =>
    rw [runFrom] at hrun
    cases ha : (tableOf g G).terminalNumber? c.token.kind with
    | none =>
      rw [step_unknown hrep ha] at hrun
      cases hrun
    | some a =>
      cases hact : policyOf g G (topState st) a with
      | error =>
        obtain ⟨rejection, hstep⟩ := step_error hrep ha hact
        rw [hstep] at hrun
        cases hrun
      | accept =>
        obtain ⟨rfl, n, t, rfl, -⟩ := hst.accept hG hg hlic hact
        obtain ⟨event, w, hw, hstep⟩ := step_accept hrep ha hact
        rw [hstep] at hrun
        cases hrun
        have hend : c.token.isEnd = true :=
          beq_iff_eq.2 ((terminalNumber?_endKind_iff hg ha).2 rfl)
        exact ⟨[], [], t, .inl ⟨hend, rfl⟩, rfl, rfl, ⟨n, .refl, hact⟩, hw⟩
      | reduce p =>
        obtain ⟨st', hred, ⟨stack, hrep', hstep⟩ | ⟨e, fault, -, -, hstep⟩⟩ :=
          step_reduce hG hg hst hrep ha hact
        · rw [hstep] at hrun
          obtain ⟨ts, l, tree, hts, hfor, hfront, ⟨n, hgo, hacc⟩, hv⟩ :=
            ih (hst.reduceStep hG hg hlic hred).1 hrep' hrun
          obtain rfl : a = front l := Option.some.inj (ha.symm.trans hfront)
          exact ⟨ts, l, tree, hts, hfor, rfl, ⟨n, .head (.reduce hred) hgo, hacc⟩, hv⟩
        · rw [hstep] at hrun
          cases hrun
      | shift n =>
        obtain ⟨stack, hrep', hstep⟩ := step_shift hrep ha hact
        rw [hstep] at hrun
        rcases hpull : source.pull c.token.position c.source with ⟨fault | token, rest⟩
        · rw [hpull] at hrun
          cases hrun
        · rw [hpull] at hrun
          obtain ⟨ts, l, tree, hts, hfor, -, ⟨m, hgo, hacc⟩, hv⟩ :=
            ih (hst.shift hG hg hlic c.token.value hact) hrep' hrun
          exact ⟨c.token :: ts, (a, c.token.value) :: l, tree,
            .inr ⟨isEnd_of_shift hG hg hst ha hact, ts, reads_of_pull hpull hts, rfl⟩,
            hfor.cons ha, rfl, ⟨m, .head (.shift hact) hgo, hacc⟩, hv⟩

/-- **A run that ends with a value ends with a tree.** -/
theorem exists_tree_of_runFrom (hG : IsAutomaton g G) (hg : g.WellFormed) {limit : Nat}
    {events : List Event} {c : Config σ} {st : List Entry} (hst : Stacked g G st)
    (hrep : Represents g c.stack st)
    (hrun : (runFrom (tableOf g G) source events limit c).result = some (.ok v)) :
    ∃ ts, ReadsOn source c.token c.source ts ∧ TreeOver g st ts v := by
  obtain ⟨ts, l, tree, hts, hfor, -, hacc, hv⟩ := exists_accepts_of_runFrom hG hg hst hrep hrun
  obtain ⟨hvalid, hsymbol, hleaves⟩ := hst.of_accepts hG hg (licensed_ofGraph hG hg) hacc
  exact ⟨ts, hts, tree, l, hvalid, hsymbol, hv, hleaves, hfor⟩

/-- The value of an input is what the parse of its tokens returns. -/
theorem parseFrom_eq_ok_iff {compiled : Compiled} {limit : Nat} {tokens : σ} :
    (compiled.parseFrom source limit tokens).1 = .ok v ↔
      ∃ table, compiled.parseTable = some table ∧
        (parse table source limit tokens).result = some (.ok v) := by
  unfold Compiled.parseFrom
  cases compiled.parseTable with
  | none => simp
  | some table =>
    simp only [Option.some.injEq, exists_eq_left']
    rcases (parse table source limit tokens).result with _ | _ | w <;> simp

/-- **Whatever a generated parser returns is the value of a derivation tree.** The tokens read
before the first `$EOF`, or before there are no more, have the kinds of a sentence, and the tree
over their values, evaluated from the leaves up, gives what is returned. -/
theorem exists_tree_of_parse {d : Description} {options : Options} {compiled : Compiled}
    (hcompile : (d.compile options).1 = .ok compiled) {limit : Nat} {tokens : σ}
    (hparse : (compiled.parseFrom source limit tokens).1 = .ok v) :
    ∃ (g : Grammar) (ts : List Token) (tree : Tree), d.resolveGrammar = .ok g ∧
      Reads source tokens ts ∧
      tree.leaves.map (fun e => (g.symbolName (.terminal e.1), e.2)) =
        ts.map (fun t => (t.kind, t.value)) ∧
      g.Sentence (tree.leaves.map (·.1)) ∧
      tree.Valid g ∧ tree.symbol g = .nonterminal g.start ∧ tree.evaluate g = .ok v := by
  obtain ⟨table, htable, hresult⟩ := parseFrom_eq_ok_iff.1 hparse
  obtain ⟨g, hresolve, hfound⟩ := (d.parserOutcome_eq_ok_iff options).1
    ((d.tables_of_compile options hcompile).1 table htable)
  have hg := GrammarDecl.wellFormed_of_resolve hresolve
  have hG := Graph.isAutomaton_build hg options.method
  obtain rfl : tableOf g (Graph.build (ofGrammar g) options.method) = table :=
    congrArg Prod.fst hfound
  unfold parse at hresult
  split at hresult
  · cases hresult
  · rename_i token rest hpull
    obtain ⟨ts, hts, tree, l, hvalid, hsymbol, hv, hl, hfor⟩ :=
      exists_tree_of_runFrom hG hg .nil .bottom hresult
    rw [treesOf_nil, Tree.leavesOf, List.nil_append] at hl
    exact ⟨g, ts, tree, hresolve, reads_of_pull hpull hts, hl ▸ hfor,
      hvalid.sentence hsymbol, hvalid, hsymbol, hv⟩

/-- Sums that group to the left, which only a precedence says. -/
def sums : Description where
  kinds := [⟨"INT", none⟩, ⟨"PLUS", none⟩]
  grammar := {
    productions := [⟨"sum", ["sum", "PLUS", "sum"], .list, none⟩, ⟨"sum", ["INT"], .first, none⟩]
    precedences := [("PLUS", ⟨.left, 1⟩)]
    levels := 1
    start := some "sum" }

/-- A sum of three integers. -/
def threeSummands : List Token :=
  [⟨"INT", .int 1, "1", .origin⟩, ⟨"PLUS", .str "+", "+", .origin⟩, ⟨"INT", .int 2, "2", .origin⟩,
    ⟨"PLUS", .str "+", "+", .origin⟩, ⟨"INT", .int 3, "3", .origin⟩]

theorem exists_tree_of_sums : ∃ v compiled, (sums.compile { method := .merged }).1 = .ok compiled ∧
    (compiled.parseFrom .list 20 threeSummands).1 = .ok v ∧ v.render = "[[1, '+', 2], '+', 3]" ∧
    ∃ (g : Grammar) (ts : List Token) (tree : Tree), sums.resolveGrammar = .ok g ∧
      Reads .list threeSummands ts ∧
      tree.leaves.map (fun e => (g.symbolName (.terminal e.1), e.2)) =
        ts.map (fun t => (t.kind, t.value)) ∧
      g.Sentence (tree.leaves.map (·.1)) ∧
      tree.Valid g ∧ tree.symbol g = .nonterminal g.start ∧ tree.evaluate g = .ok v := by
  have hrun : ((sums.compile { method := .merged }).1.toOption.bind fun compiled =>
      (compiled.parseFrom .list 20 threeSummands).1.toOption.map Value.render) =
        some "[[1, '+', 2], '+', 3]" := by
    decide +kernel
  obtain ⟨compiled, hcompile, hrun⟩ := Option.bind_eq_some_iff.1 hrun
  obtain ⟨v, hparse, hv⟩ := Option.map_eq_some_iff.1 hrun
  have hcompile := toOption_eq_some_iff.1 hcompile
  have hparse := toOption_eq_some_iff.1 hparse
  exact ⟨v, compiled, hcompile, hparse, hv, exists_tree_of_parse hcompile hparse⟩

end

end LexParse.Lr
