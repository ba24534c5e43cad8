import LexParse.Proofs.Grammar.Viable
import LexParse.Proofs.Lr.Canonical

/-!
# What the machine has read

The items of the state on top of a stack are valid after the symbols on the stack: each is needed
somewhere in a derivation of the whole input that begins with these symbols. So where every
nonterminal derives terminals, whatever the machine has taken can be completed to a sentence.

The canonical machine sees further. It makes a reduction only on a terminal that can be taken in the
end, so it has an action on just the terminals that continue what it has read.

## What is proved

* `Stacked.validAfter`: the items on top of a stack are valid after its symbols.
* `Stacked.viable`: what the machine has taken is viable.
* `act_ne_error_of_viable`, `viable_of_act`: the canonical machine has an action on a terminal just
  when what it has read is still viable with the terminal behind it.
-/

namespace LexParse.Lr

open Context Relation

variable {g : Grammar} {G A : Graph} {act : Nat → Nat → Act Nat} {st : List Entry} {i : Item}
  {γ after : List Symbol} {X : Symbol} {a n p : Nat}

/-! ### Valid items -/

/-- A situation is reached in a derivation. -/
theorem Situation.derives {productions : List Production} {before : List Symbol}
    (h : Situation productions before n after) :
    Derives productions [.origin] (before ++ .nonterminal n :: after) := by
  induction h with
  | whole => exact .refl _
  | @inside before after u v left n p _ hp hleft hright ih =>
    subst hleft
    have hstep : Derives productions (before ++ .nonterminal p.left :: after)
        (before ++ p.right ++ after) := .step hp (.refl _)
    rw [hright] at hstep
    have heq : before ++ u ++ .nonterminal n :: (v ++ after) =
        before ++ (u ++ .nonterminal n :: v) ++ after := by simp
    rw [heq]
    exact ih.trans hstep

theorem ValidAfter.isItem (h : ValidAfter (ofGrammar g) γ i after) : IsItem g i := by
  obtain ⟨-, -, hlt, hle, -⟩ := h
  have hlt : i.production < g.augmented.length := by simpa [ofGrammar] using hlt
  have hq := List.getElem?_eq_getElem hlt
  rw [production_eq_of_getElem? hq] at hle
  exact ⟨_, hq, hle⟩

/-- Moving the mark of a valid item over a symbol. -/
theorem ValidAfter.advance (h : ValidAfter (ofGrammar g) γ i after)
    (hX : (ofGrammar g).next? i = some X) :
    ValidAfter (ofGrammar g) (γ ++ [X]) i.advance after := by
  obtain ⟨before, hsit, hlt, -, rfl⟩ := h
  refine ⟨before, hsit, hlt, mark_lt_of_next? hX, ?_⟩
  have hget : ((ofGrammar g).production i).right[i.mark]? = some X := by
    rw [next?, behind, List.head?_drop] at hX
    exact hX
  have htake : ((ofGrammar g).production i).right.take (i.mark + 1) =
      ((ofGrammar g).production i).right.take i.mark ++ [X] := by
    rw [List.take_add_one, hget]
    rfl
  show _ = before ++ ((ofGrammar g).production i).right.take (i.mark + 1)
  rw [htake, List.append_assoc]

/-- Where a nonterminal stands behind the mark of a valid item, the starts of its productions are
valid too, with what follows the nonterminal still to come. -/
theorem ValidAfter.start (hg : g.WellFormed) (h : ValidAfter (ofGrammar g) γ i after)
    (hX : (ofGrammar g).next? i = some (.nonterminal n)) (hp : p ∈ (ofGrammar g).derivationsOf n) :
    ValidAfter (ofGrammar g) γ ⟨p, 0⟩ ((ofGrammar g).behind i.advance ++ after) := by
  have hitem := h.isItem
  obtain ⟨before, hsit, -, -, rfl⟩ := h
  obtain ⟨q, hq, rfl⟩ := (mem_derivationsOf_iff hg).1 hp
  have hleft : ((ofGrammar g).production ⟨p, 0⟩).left = q.left := by
    rw [production_eq_of_getElem? (i := ⟨p, 0⟩) hq]
  refine ⟨_, hleft ▸ situation_of_next? hitem hX hsit, ?_, Nat.zero_le _, ?_⟩
  · simpa [ofGrammar] using (List.getElem?_eq_some_iff.1 hq).1
  · simp

/-- The demands of valid items are valid at the same place. -/
theorem closed_validAfter (hg : g.WellFormed) (γ : List Symbol) :
    Closed g (fun i => ∃ after, ValidAfter (ofGrammar g) γ i after) fun _ _ => True :=
  ⟨fun ⟨_, h⟩ hX hp => ⟨_, h.start hg hX hp⟩, fun _ _ _ _ => trivial⟩

namespace Stacked

/-- **The items on top of a stack are valid after its symbols.** -/
theorem validAfter (h : Stacked g G st) (hG : IsAutomaton g G) (hg : g.WellFormed)
    (hi : i ∈ (G.elements (topState st)).core) :
    ∃ after, ValidAfter (ofGrammar g) ((treesOf st).map (Tree.symbol g)) i after := by
  have hlt := h.topState_lt hG hg
  rw [(hG.expanded _ hlt).elements] at hi
  refine (closure_least hg (hG.grounded _ hlt).proper (closed_validAfter hg _) ?_
    fun _ _ _ => trivial).1 i hi
  clear hi
  induction h generalizing i with
  | nil =>
    intro j hj
    rw [show topState [] = 0 from rfl, hG.first] at hj
    obtain rfl : j = ⟨0, 0⟩ := List.mem_singleton.1 hj
    exact ⟨[], [], .whole, by simp [ofGrammar, Grammar.augmented], Nat.zero_le _, rfl⟩
  | @cons n t rest hrest _ ht ih =>
    intro j hj
    obtain ⟨-, hm⟩ := hG.lt_of_transition hg ht
    obtain ⟨k, hk, hX, rfl⟩ := hG.exists_of_transition hg ht (hG.mem_elements_of_mem_kernel hm hj)
      (hG.later n hm (hG.lt_of_transition hg ht).1 j hj)
    have hlt := hrest.topState_lt hG hg
    rw [(hG.expanded _ hlt).elements] at hk
    obtain ⟨after, hk⟩ := (closure_least hg (hG.grounded _ hlt).proper (closed_validAfter hg _)
      (ih (i := k) hlt) fun _ _ _ => trivial).1 k hk
    refine ⟨after, ?_⟩
    rw [treesOf_cons, List.map_append]
    exact hk.advance hX

/-- A state on a stack has an item. -/
theorem exists_item (h : Stacked g G st) (hG : IsAutomaton g G) (hg : g.WellFormed) :
    ∃ i, i ∈ (G.elements (topState st)).core := by
  cases h with
  | nil => exact ⟨_, hG.mem_elements_first⟩
  | cons hrest _ ht =>
    obtain ⟨j, hj, hne, hX, -⟩ := hG.exists_leads_of_transition ht
    obtain ⟨m, ht', hadv, -⟩ := hG.exists_transition hg (hrest.topState_lt hG hg) hj hX hne
    obtain rfl := hG.transition_unique ht ht'
    exact ⟨j.advance, hadv⟩

/-- The symbols on a stack derive its leaves. -/
theorem derives (h : Stacked g G st) : Derives g.augmented ((treesOf st).map (Tree.symbol g))
    (((Tree.leavesOf (treesOf st)).map (·.1)).map .terminal) := by
  have hd := Tree.derives_leavesOf fun t ht => (h.valid t ht).derives
  rw [List.map_map, Tree.leavesOf_eq_flatMap]
  exact hd.mono fun p hp => List.mem_cons_of_mem _ hp

/-- **What has been taken is viable.** -/
theorem viable (h : Stacked g G st) (hG : IsAutomaton g G) (hg : g.WellFormed)
    (hprod : g.Productive) : g.Viable ((Tree.leavesOf (treesOf st)).map (·.1)) := by
  obtain ⟨i, hi⟩ := h.exists_item hG hg
  obtain ⟨after, hvalid⟩ := h.validAfter hG hg hi
  have hitem := hvalid.isItem
  obtain ⟨before, hsit, -, -, hγ⟩ := hvalid
  have hstep : Derives g.augmented [.origin]
      (before ++ ((ofGrammar g).production i).right ++ after) :=
    hsit.derives.trans (.step hitem.production_mem (.refl _))
  rw [← List.take_append_drop i.mark ((ofGrammar g).production i).right, ← List.append_assoc,
    ← hγ, List.append_assoc] at hstep
  exact viable_of_derives hg hprod hstep h.derives

end Stacked

/-! ### Actions and viable prefixes -/

/-- Whatever leaves are to come, the machine takes some leaves first and has a stack then. -/
def TakenTo (g : Grammar) (G : Graph) (act : Nat → Nat → Act Nat) (l : List (Nat × Value))
    (st : List Entry) : Prop :=
  ∀ rest, ReflTransGen (Go g G act 0) ([], l ++ rest) (st, rest)

variable {l : List (Nat × Value)}

theorem takenTo_nil : TakenTo g G act [] [] := fun _ => .refl

/-- After reductions on the next leaf the machine takes it. -/
theorem TakenTo.shift (h : TakenTo g G act l st) {st' : List Entry}
    (hsteps : ReflTransGen (ReduceStep g G act a 0) st st') (v : Value)
    (hact : act (topState st') a = .shift n) :
    TakenTo g G act (l ++ [(a, v)]) (⟨n, .leaf a v⟩ :: st') := by
  intro rest
  have hreach := h ((a, v) :: rest)
  rw [List.append_assoc]
  exact (hreach.trans (go_of_reduceSteps hsteps)).tail (.shift hact)

/-- The leaves of the stack are those that have been taken. -/
theorem TakenTo.leaves (h : TakenTo g G act l st) (hG : IsAutomaton g G) (hg : g.WellFormed)
    (hlic : Licensed g G act) : Stacked g G st ∧ Tree.leavesOf (treesOf st) = l := by
  obtain ⟨hst, hleaves⟩ := Stacked.go hG hg hlic .nil (h [])
  exact ⟨hst, by simpa [Tree.leavesOf] using hleaves⟩

/-- **A terminal that keeps the input viable is not rejected.** -/
theorem act_ne_error_of_viable (hG : IsAutomaton g G) (hg : g.WellFormed) (hob : Obeyed g G act)
    (h : TakenTo g G act l st) (hviable : g.Viable (l.map (·.1) ++ [a])) :
    act (topState st) a ≠ .error := by
  obtain ⟨s, hsentence, z, hz⟩ := hviable
  -- the sentence goes on behind what has been taken, with the terminal in front
  obtain ⟨rest, rfl, hfront⟩ : ∃ rest : List (Nat × Value),
      s = (l ++ rest).map (·.1) ∧ front rest = a := by
    rcases List.eq_nil_or_concat z with rfl | ⟨z, b, rfl⟩
    · obtain ⟨hs, ha⟩ := List.append_inj' (hz.symm.trans (List.append_nil _)) rfl
      obtain rfl := (List.cons.inj ha).1
      exact ⟨[], by simpa using hs, rfl⟩
    · rw [List.concat_eq_append, ← List.append_assoc] at hz
      obtain ⟨hs, -⟩ := List.append_inj' hz rfl
      refine ⟨(a, .none) :: z.map fun b => (b, .none), ?_, rfl⟩
      rw [← hs]
      simp [Function.comp_def]
  have hl : ∀ e ∈ l ++ rest, e.1 < g.terminals.size := fun e he =>
    (hsentence.mem hg (List.mem_map_of_mem (f := (·.1)) he)).1
  rw [Grammar.Sentence, List.map_map] at hsentence
  obtain ⟨ts, hts⟩ := exists_forest_of_derives hsentence hl
  obtain ⟨tree, rfl, hsymbol, hvalid, hleaves⟩ := hts.exists_tree
  obtain ⟨m, hgo, hacc⟩ := accepts_of_sentence hG hg hob hvalid hsymbol
  rw [hleaves] at hgo
  intro herr
  rw [← hfront] at herr
  have hunique : Relator.RightUnique (Go g G act 0) := fun _ _ _ => Go.unique hG
  have heq :=
    eq_of_runs hunique (h rest) hgo (not_go_of_end (.inl herr)) (not_go_of_end (.inr hacc))
  cases heq
  cases hacc.symm.trans herr

/-- The canonical machine reduces on a terminal only if it does not reject it then. -/
theorem act_ne_error_of_reduceStep (hA : Graph.Complete g .canonical A) (hg : g.WellFormed)
    (hlic : Licensed g A act) (hob : Obeyed g A act) (hst : Stacked g A st) {base : Nat}
    {st' : List Entry} (hstep : ReduceStep g A act a base st st') :
    act (topState st') a ≠ .error := by
  have hG := hA.automaton
  obtain ⟨k, q, popped, rest, n, rfl, rfl, hact, hq, hsyms, ht⟩ :=
    hst.cases_of_reduceStep hG hg hlic hstep
  have ha := hlic.completed_of_reduce hG hg (hst.topState_lt hG hg) hq hact
  have hq' : g.augmented[k + 1]? = some q := hq
  exact act_ne_error_of_awaits hG hg hob (hG.lt_of_transition hg ht).2
    ((hA.mem_lookaheads_iff_awaits hg hst hq' (Nat.succ_ne_zero k) hsyms ht).1 ha)

/-- **A terminal that the canonical machine does not reject keeps the input viable.** -/
theorem viable_of_act (hA : Graph.Complete g .canonical A) (hg : g.WellFormed)
    (hprod : g.Productive) (hlic : Licensed g A act) (hob : Obeyed g A act) (hst : Stacked g A st)
    (hact : act (topState st) a ≠ .error) :
    g.Viable ((Tree.leavesOf (treesOf st)).map (·.1) ++ [a]) := by
  have hG := hA.automaton
  obtain ⟨y, hsteps, hstop⟩ := halts (a := a) hG hg hlic hob hst
  obtain ⟨hy, hleaves⟩ := hst.reduceSteps hG hg hlic hsteps
  have hne : act (topState y) a ≠ .error := by
    rcases hsteps.cases_tail with rfl | ⟨z, hz, hstep⟩
    · exact hact
    · exact act_ne_error_of_reduceStep hA hg hlic hob (hst.reduceSteps hG hg hlic hz).1 hstep
  rw [← hleaves]
  cases h : act (topState y) a with
  | error => exact absurd h hne
  | reduce p => exact absurd h (hstop p)
  | shift n =>
    have hviable := (hy.shift hG hg hlic .none h).viable hG hg hprod
    simpa [treesOf_cons, Tree.leavesOf_append, Tree.leavesOf, Tree.leaves] using hviable
  | accept =>
    obtain ⟨rfl, n, t, rfl, hsymbol, hvalid⟩ := hy.accept hG hg hlic h
    refine ⟨_, hvalid.sentence hsymbol, ?_⟩
    simp [treesOf_cons, Tree.leavesOf]

end LexParse.Lr
