import LexParse.Proofs.Lr.Machine

/-!
# Trees are found

Where a policy does whatever an item calls for, the machine finds every tree: with the leaves of a
tree in front, and an item before whose symbol the mark stands, it puts the tree on the stack and
touches nothing below. This is an induction over the tree; what makes it go through is that the
lookahead at each moment is one that the closure has provided for.

The statement asks nothing of the states below the top of the stack. It can therefore be used on
stacks that no parse produces, and the proof that parsers halt does so.

## What is proved

* `found_of_valid`: the machine finds every valid tree.
* `accepts_of_sentence`: from the empty stack it finds the tree of a sentence, and accepts.
* `exists_reduceSteps_of_vanishes`, `exists_reduceSteps_of_begins`: without taking a leaf it puts
  on the stack what vanishes, and gets to a state from which the leaf in front can be taken.
-/

namespace LexParse.Lr

open Context Relation

variable {g : Grammar} {G : Graph} {act : Nat → Nat → Act Nat}

/-- The machine finds the tree, wherever an item has the mark before its symbol and the leaf behind
it is one of those that can follow there. -/
def Found (g : Grammar) (G : Graph) (act : Nat → Nat → Act Nat) (t : Tree) : Prop :=
  ∀ (st : List Entry) (input : List (Nat × Value)) (i : Item) (base : Nat), base ≤ st.length →
    topState st < G.size → i ∈ (G.elements (topState st)).core →
    (ofGrammar g).next? i = some (t.symbol g) → t.symbol g ≠ .endOfInput →
    Ahead g.augmented ((ofGrammar g).behind i.advance)
      (· ∈ (G.elements (topState st)).lookaheads i) (front input) →
    ∃ n, (t.symbol g, n) ∈ G.transitions (topState st) ∧
      ReflTransGen (Go g G act base) (st, t.leaves ++ input) (⟨n, t⟩ :: st, input)

/-- **Forests are found**, if their trees are. -/
theorem exists_go_of_forest (hG : IsAutomaton g G) (hg : g.WellFormed) {ts : List Tree}
    {base : Nat} (st : List Entry) (input : List (Nat × Value)) {i : Item} {rest : List Symbol}
    (hfound : ∀ t ∈ ts, t.Valid g ∧ Found g G act t) (hbase : base ≤ st.length)
    (hlt : topState st < G.size) (hi : i ∈ (G.elements (topState st)).core)
    (hbehind : (ofGrammar g).behind i = ts.map (Tree.symbol g) ++ rest)
    (hend : .endOfInput ∉ ts.map (Tree.symbol g))
    (ha : Ahead g.augmented rest (· ∈ (G.elements (topState st)).lookaheads i) (front input)) :
    ∃ es, treesOf es = ts ∧ topState (es ++ st) < G.size ∧
      ReflTransGen (Go g G act base) (st, Tree.leavesOf ts ++ input) (es ++ st, input) ∧
      ⟨i.production, i.mark + ts.length⟩ ∈ (G.elements (topState (es ++ st))).core ∧
      ∀ a, a ∈ (G.elements (topState st)).lookaheads i →
        a ∈ (G.elements (topState (es ++ st))).lookaheads ⟨i.production, i.mark + ts.length⟩ := by
  induction ts generalizing st i with
  | nil => exact ⟨[], rfl, hlt, .refl, hi, fun _ h => h⟩
  | cons t ts ih =>
    obtain ⟨hvalid, ht⟩ := hfound t (List.mem_cons_self ..)
    have hX : (ofGrammar g).next? i = some (t.symbol g) := next?_of_behind hbehind
    obtain ⟨hne, hend⟩ := not_or.1 (mt List.mem_cons.2 hend)
    have hadv : (ofGrammar g).behind i.advance = ts.map (Tree.symbol g) ++ rest := by
      rw [behind_eq_of_next? hX] at hbehind
      exact (List.cons.inj hbehind).2
    -- behind the tree come the leaves of the others, and then the input
    have hnext : Ahead g.augmented ((ofGrammar g).behind i.advance)
        (· ∈ (G.elements (topState st)).lookaheads i) (front (Tree.leavesOf ts ++ input)) := by
      rw [hadv, ahead_append_iff]
      exact ahead_leavesOf ha fun u hu => (hfound u (List.mem_cons_of_mem _ hu)).1.ahead
    obtain ⟨n, htr, hgo⟩ := ht st _ i base hbase hlt hi hX (Ne.symm hne) hnext
    obtain ⟨m, htr', hitem, hlas⟩ := hG.exists_transition hg hlt hi hX (Ne.symm hne)
    obtain rfl : n = m := hG.transition_unique htr htr'
    obtain ⟨es, hes, hlt', hgo', hitem', hlas'⟩ := ih (⟨n, t⟩ :: st)
      (fun u hu => hfound u (List.mem_cons_of_mem _ hu)) (Nat.le_succ_of_le hbase)
      (hG.lt_of_transition hg htr).2 hitem hadv hend (ha.mono hlas)
    have hmark : i.advance.mark + ts.length = i.mark + (t :: ts).length := by
      simp only [Item.advance, List.length_cons]
      omega
    rw [hmark] at hitem' hlas'
    refine ⟨es ++ [⟨n, t⟩], ?_, ?_⟩
    · rw [treesOf_append, hes]
      rfl
    · rw [List.append_assoc, Tree.leavesOf, List.append_assoc]
      exact ⟨hlt', hgo.trans hgo', hitem', fun a ha => hlas' a (hlas a ha)⟩

/-- **The machine finds every valid tree.** -/
theorem found_of_valid (hG : IsAutomaton g G) (hg : g.WellFormed) (hob : Obeyed g G act)
    {t : Tree} (h : t.Valid g) : Found g G act t := by
  induction h with
  | @leaf a v =>
    intro st input i base _ hlt hi hX hne _
    obtain ⟨n, htr, -⟩ := hG.exists_transition hg hlt hi hX hne
    exact ⟨n, htr, .single (.shift (hob.shift hlt htr))⟩
  | @node k q children hq hsyms hvalid ih =>
    intro st input i base hbase hlt hi hX hne ha
    have hq' : g.augmented[k + 1]? = some q := hq
    rw [Tree.symbol_node hq] at hX hne ⊢
    obtain ⟨n, htr, -⟩ := hG.exists_transition hg hlt hi hX hne
    obtain ⟨hstart, hlas⟩ := hG.demands_of_next? hg hlt hi hX ha (k + 1)
      ((mem_derivationsOf_iff hg).2 ⟨q, hq', rfl⟩)
    have hbehind : (ofGrammar g).behind ⟨k + 1, 0⟩ = children.map (Tree.symbol g) ++ [] := by
      rw [hsyms, List.append_nil]
      exact behind_start hq'
    have hend : .endOfInput ∉ children.map (Tree.symbol g) :=
      hsyms ▸ hg.end_notMem q (List.mem_of_getElem? hq)
    obtain ⟨es, hes, hlt', hgo, hitem, hlas'⟩ := exists_go_of_forest hG hg st input
      (fun t ht => ⟨hvalid t ht, ih t ht⟩) hbase hlt hstart hbehind hend (.inr ⟨.nil, hlas⟩)
    have hlen : children.length = q.right.length := by rw [← hsyms, List.length_map]
    -- the item is complete, so its production is reduced
    have hcomplete : (ofGrammar g).isComplete ⟨k + 1, 0 + children.length⟩ = true := by
      have hprod : (ofGrammar g).production ⟨k + 1, 0 + children.length⟩ = q :=
        production_eq_of_getElem? hq'
      rw [isComplete, behind, hprod, List.isEmpty_iff, List.drop_eq_nil_iff]
      show q.right.length ≤ 0 + children.length
      omega
    have hact := hob.reduce hlt' hitem hcomplete (hlas' _ hlas)
    have hes' : es.length = q.right.length := by
      rw [← hlen, ← hes]
      simp [treesOf]
    refine ⟨n, htr, hgo.tail ?_⟩
    have hred := ReduceStep.intro (g := g) hact hq' hes' hbase htr
    rw [hes] at hred
    exact .reduce hred

/-- **The machine accepts the tree of a sentence.** -/
theorem accepts_of_sentence (hG : IsAutomaton g G) (hg : g.WellFormed) (hob : Obeyed g G act)
    {t : Tree} (h : t.Valid g) (hs : t.symbol g = .nonterminal g.start) :
    Accepts g G act [] t.leaves t := by
  have hi := hG.mem_elements_first
  have hX : (ofGrammar g).next? ⟨0, 0⟩ = some (.nonterminal g.start) := rfl
  have hend : (ofGrammar g).next? (Item.advance ⟨0, 0⟩) = some .endOfInput := rfl
  have hne : Symbol.nonterminal g.start ≠ .endOfInput := nofun
  have hahead : Ahead g.augmented ((ofGrammar g).behind (Item.advance ⟨0, 0⟩))
      (· ∈ (G.elements (topState [])).lookaheads ⟨0, 0⟩) (front []) :=
    .inl (behind_eq_of_next? hend ▸ .terminal)
  obtain ⟨n, htr, hgo⟩ := found_of_valid hG hg hob h [] [] ⟨0, 0⟩ 0 (Nat.le_refl _) hG.pos hi
    (hs ▸ hX) (hs ▸ hne) hahead
  obtain ⟨m, htr', hitem, -⟩ := hG.exists_transition hg hG.pos hi hX hne
  rw [hs] at htr
  obtain rfl : n = m := hG.transition_unique htr htr'
  rw [List.append_nil] at hgo
  exact ⟨n, hgo, hob.accept (hG.lt_of_transition hg htr).2 hitem hend⟩

/-! ### Runs of reductions -/

/-- A run that takes no leaf is a run of reductions on the leaf in front. -/
theorem reduceSteps_of_go {base : Nat} {x y : List Entry × List (Nat × Value)}
    (h : ReflTransGen (Go g G act base) x y) : y.2.length ≤ x.2.length ∧
      (y.2.length = x.2.length → y.2 = x.2 ∧
        ReflTransGen (ReduceStep g G act (front x.2) base) x.1 y.1) := by
  induction h with
  | refl => exact ⟨Nat.le_refl _, fun _ => ⟨rfl, .refl⟩⟩
  | @tail y z _ hstep ih =>
    cases hstep with
    | shift _ =>
      have := ih.1
      simp only [List.length_cons] at this
      refine ⟨by simp only; omega, fun heq => ?_⟩
      simp only at heq
      omega
    | reduce hred =>
      refine ⟨ih.1, fun heq => ?_⟩
      obtain ⟨hinput, hsteps⟩ := ih.2 heq
      refine ⟨hinput, hsteps.tail ?_⟩
      rw [← hinput]
      exact hred

variable {st : List Entry} {i : Item} {a base : Nat}

/-- **What vanishes is put on the stack**, and then the item is complete. -/
theorem exists_reduceSteps_of_vanishes (hG : IsAutomaton g G) (hg : g.WellFormed)
    (hob : Obeyed g G act) (hbase : base ≤ st.length) (hlt : topState st < G.size)
    (hi : i ∈ (G.elements (topState st)).core) {u v : List Symbol}
    (hbehind : (ofGrammar g).behind i = u ++ v) (hvan : Vanishes g.augmented u)
    (ha : Ahead g.augmented v (· ∈ (G.elements (topState st)).lookaheads i) a) :
    ∃ es, es.length = u.length ∧ topState (es ++ st) < G.size ∧
      ReflTransGen (ReduceStep g G act a base) st (es ++ st) ∧
      ⟨i.production, i.mark + u.length⟩ ∈ (G.elements (topState (es ++ st))).core ∧
      ∀ a, a ∈ (G.elements (topState st)).lookaheads i →
        a ∈ (G.elements (topState (es ++ st))).lookaheads ⟨i.production, i.mark + u.length⟩ := by
  obtain ⟨ts, hts⟩ := exists_forest_of_vanishes hvan
  have hend : .endOfInput ∉ u := by
    intro hmem
    obtain ⟨u₁, u₂, rfl⟩ := List.append_of_mem hmem
    exact not_vanishes_terminal (vanishes_append_iff.1 hvan).2
  obtain ⟨es, hes, hlt', hgo, hitem, hlas⟩ := exists_go_of_forest hG hg st
    [(a, .none)] (fun t ht => ⟨hts.valid t ht, found_of_valid hG hg hob (hts.valid t ht)⟩)
    hbase hlt hi (hts.symbols.symm ▸ hbehind) (hts.symbols.symm ▸ hend) ha
  have hlen : ts.length = u.length := by rw [← hts.symbols, List.length_map]
  rw [hts.leaves] at hgo
  rw [hlen] at hitem hlas
  refine ⟨es, ?_, hlt', ((reduceSteps_of_go hgo).2 rfl).2, hitem, hlas⟩
  rw [← hlen, ← hes]
  simp [treesOf]

theorem act_ne_error_of_reduceSteps {st' : List Entry}
    (h : ReflTransGen (ReduceStep g G act a base) st st')
    (hact : act (topState st') a ≠ .error) : act (topState st) a ≠ .error := by
  rcases h.cases_head with rfl | ⟨z, ⟨hred, -⟩, -⟩
  · exact hact
  · rw [hred]
    nofun

/-- **What an item begins with can be taken**, after some reductions. -/
theorem exists_reduceSteps_of_begins (hG : IsAutomaton g G) (hg : g.WellFormed)
    (hob : Obeyed g G act) (hbase : base ≤ st.length) (hlt : topState st < G.size)
    (hi : i ∈ (G.elements (topState st)).core)
    (hb : Begins g.augmented ((ofGrammar g).behind i) a) :
    ∃ st', ReflTransGen (ReduceStep g G act a base) st st' ∧
      act (topState st') a ≠ .error ∧ ∀ p, act (topState st') a ≠ .reduce p := by
  generalize hu : (ofGrammar g).behind i = u at hb
  induction hb generalizing st i with
  | @terminal a rest =>
    refine ⟨st, .refl, ?_⟩
    have hX := next?_of_behind hu
    by_cases ha : a = 0
    · subst ha
      simp [hob.accept hlt hi hX]
    · obtain ⟨n, htr, -⟩ :=
        hG.exists_transition hg hlt hi hX (by simpa [Symbol.endOfInput] using ha)
      simp [hob.shift hlt htr]
  | @inside q rest a hq _ ih =>
    obtain ⟨k, hk⟩ := List.mem_iff_getElem?.1 hq
    have hstart := (hG.closed hg hlt).item hi (next?_of_behind hu)
      ((mem_derivationsOf_iff hg).2 ⟨q, hk, rfl⟩)
    exact ih hbase hlt hstart (behind_start hk)
  | @behind n rest a hvan hrest ih =>
    obtain ⟨es, hlen, hlt', hsteps, hitem, -⟩ := exists_reduceSteps_of_vanishes hG hg hob
      hbase hlt hi (u := [.nonterminal n]) hu hvan (.inl hrest)
    have hbase' : base ≤ (es ++ st).length := by
      rw [List.length_append]
      omega
    obtain ⟨st', hsteps', hact⟩ := ih hbase' hlt' hitem (behind_add (u := [_]) hu)
    exact ⟨st', hsteps.trans hsteps', hact⟩

end LexParse.Lr
