import LexParse.Proofs.Lr.Prefixes
import LexParse.Proofs.Parser.Completeness

/-!
# What a canonical parser says of a rejected token

A canonical parser without conflicts reports an error as early as can be: what it has taken before
still begins a sentence, and with the token that it rejects it does no more. What it says could have
stood there is exact, too.

The parser has made no reduction on the token that it rejects, as the canonical machine reduces only
on terminals that can be taken in the end. So it is still in the state that it had come to by taking
the token before, and there an action is called for on just the terminals that keep the input
viable.

## What is proved

* `mem_expected_iff`: the kinds that are expected in a state are those with an action.
* `exists_reading_of_runFrom`: a token is rejected in the state after the last token taken.
* `expected_iff_viable`: from a description to the error of a parse.
-/

namespace LexParse

/-- The terminals that the kinds of some tokens are. -/
def Grammar.terminalsOf (g : Grammar) (tokens : List Token) : List Nat :=
  tokens.map fun token => (g.leafOf token).1

end LexParse

namespace LexParse.Lr

open Context Relation

variable {g : Grammar} {A G : Graph} {a k n : Nat} {tokens : List Token}

/-! ### What is expected -/

/-- The terminals expected in a state are those that it has an action for. -/
theorem mem_expected_iff (hg : g.WellFormed) (hn : n < G.size) (ha : a < g.terminals.size) :
    g.symbolName (.terminal a) ∈ (tableOf g G).expected n ↔ policyOf g G n a ≠ .error := by
  let row := ((ofGrammar g).row (ofGrammar g).reductionOrder n (G.state n)).1
  have hrow : (tableOf g G).actions.getD n #[] = row := by
    have hs : G.states.toList[n]? = some (G.state n) := by
      rw [Array.getElem?_toList, Graph.getElem?_states hn]
    simp only [tableOf, ParseTable.ofGraph, Array.getD_eq_getD_getElem?, List.getElem?_toArray,
      List.getElem?_map, List.getElem?_mapIdx, hs]
    rfl
  have hsize : row.size = g.terminals.size := (row_chosen _ _ n (G.state n)).1
  have hact : policyOf g G n a ≠ .error ↔ row.toList[a]? ≠ some .error := by
    rw [ne_eq, policyOf_eq_iff (x := .error) (by simp), actionAt_ofGraph _ hn,
      Array.getElem?_toList, Array.getD_eq_getD_getElem?,
      Array.getElem?_eq_getElem (hsize ▸ ha)]
    simp
  have hname : (g.terminals.map (·.name)).toList[a]? = some (g.symbolName (.terminal a)) := by
    simp [Grammar.symbolName, ha]
  rw [hact, ParseTable.expected, hrow]
  change _ ∈ (((g.terminals.map (·.name)).toList.zip row.toList).filter _).map _ ↔ _
  constructor
  · intro h
    obtain ⟨⟨_, act⟩, hmem, rfl⟩ := List.mem_map.1 h
    obtain ⟨hzip, hne⟩ := List.mem_filter.1 hmem
    obtain ⟨b, hb⟩ := List.mem_iff_getElem?.1 hzip
    obtain ⟨hb, hb'⟩ := List.getElem?_zip_eq_some.1 hb
    -- no other terminal has the name
    have hlt := (List.getElem?_eq_some_iff.1 hname).1
    obtain rfl : a = b := (List.getElem?_inj hlt hg.nodup_names).1 (hname.trans hb.symm)
    rw [hb']
    simpa using hne
  · intro hne
    obtain ⟨act, hget⟩ : ∃ act, row.toList[a]? = some act :=
      ⟨_, List.getElem?_eq_getElem (by simpa [hsize] using ha)⟩
    refine List.mem_map.2 ⟨(_, act), List.mem_filter.2 ⟨?_, ?_⟩, rfl⟩
    · exact List.mem_of_getElem? (List.getElem?_zip_eq_some.2 ⟨hname, hget⟩)
    · rw [hget] at hne
      simpa using hne

/-! ### Reading tokens -/

/-- Some tokens have been taken, none of them the end of the input, and the stack was this one after
the last of them. -/
structure Reading (g : Grammar) (A : Graph) (tokens : List Token) (k : Nat) (st : List Entry) :
    Prop where
  le : k ≤ tokens.length
  isEnd : ∀ token ∈ tokens.take k, token.isEnd = false
  taken : TakenTo g A (policyOf g A) ((tokens.take k).map g.leafOf) st

/-- The parser looks at a token, with others behind it, when some tokens have been taken. -/
def LooksAt (tokens : List Token) (k : Nat) (token : Token) (rest : List Token) : Prop :=
  ∃ position, TokenSource.list.pull position (tokens.drop k) = (.ok token, rest)

section
variable {token : Token} {rest : List Token} {st st' : List Entry}

/-- A token that does not end the input is the next one of the list. -/
theorem LooksAt.drop_eq (h : LooksAt tokens k token rest) (hend : token.isEnd = false) :
    tokens.drop k = token :: rest := by
  obtain ⟨position, hpull⟩ := h
  cases hdrop : tokens.drop k with
  | nil =>
    rw [hdrop] at hpull
    cases hpull
    cases hend
  | cons first others =>
    rw [hdrop] at hpull
    cases hpull
    rfl

/-- The kind of the token is known. -/
theorem Reading.terminalNumber? (h : Reading g A tokens k st) (hg : g.WellFormed)
    (hknows : g.Knows tokens) (hlooks : LooksAt tokens k token rest) :
    (tableOf g A).terminalNumber? token.kind = some (g.leafOf token).1 := by
  refine terminalNumber?_of_mem ?_
  cases hend : token.isEnd with
  | true =>
    rw [beq_iff_eq.1 hend]
    exact List.mem_of_getElem? (Array.getElem?_toList.trans hg.end_first)
  | false =>
    refine hknows token ?_
    have hsplit := List.take_append_drop k tokens
    rw [hlooks.drop_eq hend] at hsplit
    rw [← hsplit, List.takeWhile_append_of_pos fun t ht => by simp [h.isEnd t ht]]
    simp [hend]

/-- Taking a token. -/
theorem Reading.shift (h : Reading g A tokens k st) (hlooks : LooksAt tokens k token rest)
    (hend : token.isEnd = false)
    (hsteps : ReflTransGen (ReduceStep g A (policyOf g A) (g.leafOf token).1 0) st st')
    (hact : policyOf g A (topState st') (g.leafOf token).1 = .shift n) :
    tokens.drop (k + 1) = rest ∧
      Reading g A tokens (k + 1) (⟨n, .leaf (g.leafOf token).1 token.value⟩ :: st') := by
  have hdrop := hlooks.drop_eq hend
  have hget : tokens[k]? = some token := by
    rw [← List.head?_drop, hdrop]
    rfl
  have htake : tokens.take (k + 1) = tokens.take k ++ [token] := by
    rw [List.take_add_one, hget]
    rfl
  refine ⟨?_, (List.getElem?_eq_some_iff.1 hget).1, fun t ht => ?_, ?_⟩
  · rw [← List.tail_drop, hdrop]
    rfl
  · rw [htake] at ht
    rcases List.mem_append.1 ht with ht | ht
    · exact h.isEnd t ht
    · rw [List.mem_singleton.1 ht]
      exact hend
  · rw [htake, List.map_append]
    exact h.taken.shift hsteps token.value hact

theorem Reading.leaves (h : Reading g A tokens k st) (hG : IsAutomaton g A) (hg : g.WellFormed) :
    Stacked g A st ∧
      (Tree.leavesOf (treesOf st)).map (·.1) = g.terminalsOf (tokens.take k) := by
  obtain ⟨hst, hleaves⟩ := h.taken.leaves hG hg (licensed_ofGraph hG hg)
  refine ⟨hst, ?_⟩
  rw [hleaves, List.map_map]
  rfl

/-- After a token has been taken there is an action for just the terminals that keep the input
viable. -/
theorem Reading.act_iff_viable (h : Reading g A tokens k st)
    (hA : Graph.Complete g .canonical A) (hg : g.WellFormed)
    (hfree : ConflictFree (ofGrammar g) A) (hprod : g.Productive) :
    policyOf g A (topState st) a ≠ .error ↔
      g.Viable (g.terminalsOf (tokens.take k) ++ [a]) := by
  have hG := hA.automaton
  have hob := obeyed_ofGraph hG hg hfree
  obtain ⟨hst, hleaves⟩ := h.leaves hG hg
  constructor
  · rw [← hleaves]
    exact viable_of_act hA hg hprod (licensed_ofGraph hG hg) hob hst
  · intro hviable
    refine act_ne_error_of_viable hG hg hob h.taken ?_
    rwa [List.map_map]

end

/-- **A token is rejected in the state after the last token taken.** -/
theorem exists_reading_of_runFrom (hA : Graph.Complete g .canonical A) (hg : g.WellFormed)
    (hfree : ConflictFree (ofGrammar g) A) (hknows : g.Knows tokens) {limit : Nat}
    {events : List Event} {c : Config (List Token)} {st₀ st : List Entry} {x : Rejection}
    (hreading : Reading g A tokens k st₀) (hlooks : LooksAt tokens k c.token c.source)
    (hrep : Represents g c.stack st)
    (hsteps : ReflTransGen (ReduceStep g A (policyOf g A) (g.leafOf c.token).1 0) st₀ st)
    (hrun : (runFrom (tableOf g A) .list events limit c).result =
      some (.error (.rejected x))) :
    ∃ k st₀, Reading g A tokens k st₀ ∧
      LooksAt tokens k x.token (runFrom (tableOf g A) .list events limit c).source ∧
      policyOf g A (topState st₀) (g.leafOf x.token).1 = .error ∧
      x.expected = (tableOf g A).expected (topState st₀) := by
  have hG := hA.automaton
  have hlic := licensed_ofGraph hG hg
  have hob := obeyed_ofGraph hG hg hfree
  induction limit generalizing events c k st₀ st with
  | zero => cases hrun
  | succ limit ih =>
    have hst₀ := (hreading.taken.leaves hG hg hlic).1
    have hst := (hst₀.reduceSteps hG hg hlic hsteps).1
    have ha := hreading.terminalNumber? (A := A) hg hknows hlooks
    rw [runFrom] at hrun ⊢
    cases hact : policyOf g A (topState st) (g.leafOf c.token).1 with
    | error =>
      -- there has been no reduction on the token
      obtain rfl : st₀ = st := by
        rcases hsteps.cases_tail with heq | ⟨y, hy, hstep⟩
        · exact heq.symm
        · have hne := act_ne_error_of_reduceStep hA hg hlic hob
            (hst₀.reduceSteps hG hg hlic hy).1 hstep
          exact absurd hact hne
      rw [step_unexpected hrep ha hact] at hrun ⊢
      cases hrun
      exact ⟨k, st₀, hreading, hlooks, hact, rfl⟩
    | accept =>
      obtain ⟨-, n, t, rfl, -⟩ := hst.accept hG hg hlic hact
      obtain ⟨event, v, -, hstep⟩ := step_accept hrep ha hact
      rw [hstep] at hrun
      cases hrun
    | reduce p =>
      obtain ⟨st', hred, ⟨stack, hrep', hstep⟩ | ⟨e, fault, -, -, hstep⟩⟩ :=
        step_reduce hG hg hst hrep ha hact
      · rw [hstep] at hrun ⊢
        exact ih hreading hlooks hrep' (hsteps.tail hred) hrun
      · rw [hstep] at hrun
        cases hrun
    | shift n =>
      have hend := isEnd_of_shift hG hg hst ha hact
      obtain ⟨hdrop, hreading'⟩ := hreading.shift hlooks hend hsteps hact
      obtain ⟨stack, hrep', hstep⟩ := step_shift hrep ha hact
      rcases hpull : TokenSource.list.pull c.token.position c.source with ⟨fault | token, rest⟩
      · rw [hpull] at hstep
        rw [hstep] at hrun
        cases hrun
      · rw [hpull] at hstep
        rw [hstep] at hrun ⊢
        exact ih hreading' ⟨c.token.position, by rw [hdrop]; exact hpull⟩ hrep' .refl hrun

/-- **The error of a canonical parser is exact.** Let the canonical table of a description have no
cell with two candidates, and every nonterminal derive some string of terminals. When a parse of
tokens of known kinds rejects one of them, or the end of the input behind them, then the kinds that
are expected in its place are just those that keep the input viable. In particular what stands
before the rejected token is viable, and it is not with that token. -/
theorem expected_iff_viable {d : Description} (options : Options)
    (hmethod : options.method = .canonical) (hresolve : d.resolveGrammar = .ok g)
    (hfree : ConflictFree (ofGrammar g) (Graph.build (ofGrammar g) .canonical))
    (hprod : g.Productive) (hknows : g.Knows tokens) :
    ∃ table, Generate.Yields (d.parseTable options) (.ok table) ∧
      ∀ limit x, (parse table .list limit tokens).result = some (.error (.rejected x)) →
        ∃ k ≤ tokens.length, (∀ token ∈ tokens.take k, token.isEnd = false) ∧
          LooksAt tokens k x.token (parse table .list limit tokens).source ∧
          (∀ a < g.terminals.size, g.symbolName (.terminal a) ∈ x.expected ↔
            g.Viable (g.terminalsOf (tokens.take k) ++ [a])) ∧
          g.Viable (g.terminalsOf (tokens.take k)) ∧
          ¬ g.Viable (g.terminalsOf (tokens.take k ++ [x.token])) := by
  have hg := GrammarDecl.wellFormed_of_resolve hresolve
  have hA := Graph.complete_build hg .canonical
  have htable := yields_tableOf options hresolve (by rwa [hmethod])
  rw [hmethod] at htable
  refine ⟨_, htable, fun limit x hresult => ?_⟩
  obtain ⟨token, rest, hpull⟩ := exists_pull_list .origin tokens
  have hlooks : LooksAt tokens 0 token rest := ⟨.origin, hpull⟩
  rw [parse, hpull] at hresult ⊢
  obtain ⟨k, st, hreading, hlooks, herr, hexpected⟩ := exists_reading_of_runFrom hA hg hfree hknows
    (c := ⟨[⟨0, .none, .origin⟩], token, rest⟩) ⟨Nat.zero_le _, by simp, takenTo_nil⟩ hlooks .bottom
    .refl hresult
  obtain ⟨hst, hleaves⟩ := hreading.leaves hA.automaton hg
  have hact : ∀ {a}, _ := fun {a} => hreading.act_iff_viable (a := a) hA hg hfree hprod
  refine ⟨k, hreading.le, hreading.isEnd, hlooks, fun a ha => ?_, ?_, fun hviable => ?_⟩
  · rw [hexpected, mem_expected_iff hg (hst.topState_lt hA.automaton hg) ha]
    exact hact
  · rw [← hleaves]
    exact hst.viable hA.automaton hg hprod
  · rw [Grammar.terminalsOf, List.map_append] at hviable
    exact hact.2 hviable herr

/-- What is expected where a result rejects a token. -/
def expectedOf : Option (Except Failure Value) → List String
  | some (.error (.rejected x)) => x.expected
  | _ => []

/-- A parenthesis that is not closed. -/
def unclosed : List Token := [⟨"OPEN", .str "(", "(", .origin⟩]

theorem expected_of_unclosed : ∃ g, balanced.resolveGrammar = .ok g ∧
    ConflictFree (ofGrammar g) (Graph.build (ofGrammar g) .canonical) ∧ g.Productive ∧
    g.Knows unclosed ∧
    ∃ table, Generate.Yields (balanced.parseTable { method := .canonical }) (.ok table) ∧
      (∃ x, (parse table .list 5 unclosed).result = some (.error (.rejected x)) ∧
        x.expected = ["OPEN", "CLOSE"]) ∧
      ∀ limit x, (parse table .list limit unclosed).result = some (.error (.rejected x)) →
        ∃ k ≤ unclosed.length, (∀ token ∈ unclosed.take k, token.isEnd = false) ∧
          LooksAt unclosed k x.token (parse table .list limit unclosed).source ∧
          (∀ a < g.terminals.size, g.symbolName (.terminal a) ∈ x.expected ↔
            g.Viable (g.terminalsOf (unclosed.take k) ++ [a])) ∧
          g.Viable (g.terminalsOf (unclosed.take k)) ∧
          ¬ g.Viable (g.terminalsOf (unclosed.take k ++ [x.token])) := by
  have hrun : ∃ g ∈ balanced.resolveGrammar.toOption,
      ConflictFree (ofGrammar g) (Graph.build (ofGrammar g) .canonical) ∧ g.Knows unclosed ∧
      g.nonterminals.size = 2 ∧ g.start = 1 ∧
      (∃ p ∈ g.productions, p.left = 1 ∧ p.right = []) ∧
      expectedOf (parse (tableOf g (Graph.build (ofGrammar g) .canonical)) .list 5
        unclosed).result = ["OPEN", "CLOSE"] := by
    decide +kernel
  obtain ⟨g, hg, hfree, hknows, hsize, hstart, ⟨p, hp, hleft, hright⟩, hrejected⟩ := hrun
  have hresolve := toOption_eq_some_iff.1 hg
  -- nothing is a balanced string
  have hone : Derives g.augmented [.nonterminal 1] [] := by
    have hstep := Derives.step (u := []) (v := []) (List.mem_cons_of_mem g.wholeInput hp) (.refl _)
    rwa [hleft, hright] at hstep
  have hzero : Derives g.augmented [.nonterminal 0] [.terminal 0] := by
    refine .step (p := g.wholeInput) (u := []) (v := []) (List.mem_cons_self ..) ?_
    rw [Grammar.wholeInput, hstart]
    exact hone.append (.refl [.endOfInput])
  have hprod : g.Productive := by
    intro n hn
    rw [hsize] at hn
    obtain rfl | rfl : n = 0 ∨ n = 1 := by omega
    · exact ⟨[0], hzero⟩
    · exact ⟨[], hone⟩
  obtain ⟨table, htable, hexact⟩ := expected_iff_viable { method := .canonical } rfl hresolve
    hfree hprod hknows
  obtain rfl : tableOf g _ = table := Except.ok.inj
    ((yields_tableOf { method := .canonical } hresolve hfree {}).symm.trans (htable {}))
  refine ⟨g, hresolve, hfree, hprod, hknows, _, htable, ?_, hexact⟩
  unfold expectedOf at hrejected
  split at hrejected
  · rename_i x hx
    exact ⟨x, hx, hrejected⟩
  · cases hrejected

end LexParse.Lr
