import LexParse.Proofs.Lr.Halting

/-!
# What states await

A state awaits a terminal if it can come next behind the mark of one of its items, right away or
where all that is left of the item vanishes. Without two candidates for a cell the table calls for
an action on just the terminals that the state awaits.

In the canonical construction a state has no lookaheads but those that its symbols have led to. So
one can go back on the stack from a lookahead of a completed item to the place where its production
began, and see that the lookahead was asked for there: a reduction leads from states that await a
terminal to such states, and from others to others. In a merged state the lookahead may belong to
another stack, and then the reduction leads to a state that does not await it any more.

## What is proved

* `awaits_of_act`, `act_ne_error_of_awaits`: the table calls for an action on what a state awaits.
* `Graph.Complete.mem_lookaheads_iff_awaits`: in the canonical graph a completed item has just the
  lookaheads that are awaited once its production has been reduced.
-/

namespace LexParse.Lr

open Context Relation

variable {g : Grammar} {G A : Graph} {act : Nat → Nat → Act Nat} {n m k p a : Nat} {X : Symbol}

/-- A terminal can come next behind the mark of an item of the state. -/
def Awaits (g : Grammar) (G : Graph) (n a : Nat) : Prop :=
  ∃ i ∈ (G.elements n).core,
    Ahead g.augmented ((ofGrammar g).behind i) (· ∈ (G.elements n).lookaheads i) a

/-- An action is called for on a terminal that is awaited only. -/
theorem awaits_of_act (hG : IsAutomaton g G) (hlic : Licensed g G act) (hn : n < G.size)
    (hact : act n a ≠ .error) : Awaits g G n a := by
  cases h : act n a with
  | error => exact absurd h hact
  | shift m =>
    obtain ⟨i, hi, -, hX, -⟩ := hG.exists_leads_of_transition (hlic.shift hn h)
    exact ⟨i, hi, .inl (behind_eq_of_next? hX ▸ .terminal)⟩
  | reduce p =>
    obtain ⟨i, hi, -, hc, ha⟩ := hlic.reduce hn h
    exact ⟨i, hi, .inr ⟨List.isEmpty_iff.1 hc ▸ .nil, ha⟩⟩
  | accept =>
    obtain ⟨rfl, i, hi, hX⟩ := hlic.accept hn h
    exact ⟨i, hi, .inl (behind_eq_of_next? hX ▸ .terminal)⟩

/-- On every terminal that is awaited an action is called for. -/
theorem act_ne_error_of_awaits (hG : IsAutomaton g G) (hg : g.WellFormed) (hob : Obeyed g G act)
    (hn : n < G.size) (h : Awaits g G n a) : act n a ≠ .error := by
  let st : List Entry := [⟨n, .leaf 0 .none⟩]
  have hst : topState st < G.size := hn
  obtain ⟨i, hi, hb | ⟨hvan, ha⟩⟩ := h
  · obtain ⟨st', hsteps, hact, -⟩ :=
      exists_reduceSteps_of_begins hG hg hob (Nat.zero_le _) hst hi hb
    exact act_ne_error_of_reduceSteps hsteps hact
  · obtain ⟨es, -, hsteps, hact⟩ :=
      exists_reduceSteps_of_item hG hg hob (Nat.zero_le _) hst hi hvan ha
    exact act_ne_error_of_reduceSteps hsteps (by rw [hact]; nofun)

theorem isComplete_length {q : Production} (hq : g.augmented[p]? = some q) :
    (ofGrammar g).isComplete ⟨p, q.right.length⟩ = true := by
  rw [isComplete, behind, production_eq_of_getElem? hq, List.isEmpty_iff, List.drop_length]

/-- What is reduced on a terminal has been completed, with the terminal as a lookahead. -/
theorem Licensed.completed_of_reduce (hlic : Licensed g G act) (hG : IsAutomaton g G)
    (hg : g.WellFormed) (hn : n < G.size) {q : Production} (hq : g.productions[p]? = some q)
    (hact : act n a = .reduce (p + 1)) :
    a ∈ (G.elements n).lookaheads ⟨p + 1, q.right.length⟩ := by
  obtain ⟨⟨_, mark⟩, hi, rfl, hc, ha⟩ := hlic.reduce hn hact
  have hmark := mark_eq_of_isComplete ((hG.grounded_elements hg hn).item _ hi) hc
  have hq : g.augmented[p + 1]? = some q := hq
  rw [production_eq_of_getElem? hq] at hmark
  obtain rfl : mark = q.right.length := hmark
  exact ha

/-! ### Paths and stacks -/

namespace IsAutomaton

/-- Symbols spell one path from a state. -/
theorem path_unique (h : IsAutomaton g G) {u : List Symbol} (hm : Path G n u m)
    (hk : Path G n u k) : m = k := by
  induction hm with
  | nil => cases hk with | nil => rfl
  | cons ht _ ih =>
    cases hk with
    | cons ht' hrest =>
      obtain rfl := h.transition_unique ht ht'
      exact ih hrest

/-- A production that begins on a path of its right side is completed at the end of the path, and
keeps its lookaheads. -/
theorem mem_lookaheads_of_right (h : IsAutomaton g G) (hg : g.WellFormed) {q : Production}
    (hq : g.productions[p]? = some q) (hpath : Path G n q.right m) (hn : n < G.size)
    (ha : a ∈ (G.elements n).lookaheads ⟨p + 1, 0⟩) :
    a ∈ (G.elements m).lookaheads ⟨p + 1, q.right.length⟩ := by
  have hq' : g.augmented[p + 1]? = some q := hq
  have hbehind : (ofGrammar g).behind ⟨p + 1, 0⟩ = q.right ++ [] := by
    rw [behind_start hq', List.append_nil]
  obtain ⟨m', -, hpath', -, hkeep⟩ := h.exists_path_of_behind hg hn
    (ItemSet.mem_core_of_mem_lookaheads ha) hbehind (hg.end_notMem q (List.mem_of_getElem? hq))
  obtain rfl := h.path_unique hpath hpath'
  simpa using hkeep a ha

end IsAutomaton

/-- The symbols of the topmost trees spell a path from the state below them. -/
theorem Stacked.path {popped rest : List Entry} (h : Stacked g G (popped ++ rest)) :
    Path G (topState rest) ((treesOf popped).map (Tree.symbol g)) (topState (popped ++ rest)) := by
  induction popped with
  | nil => exact .nil _
  | cons e popped ih =>
    cases h with
    | cons hst _ ht =>
      rw [treesOf_cons, List.map_append]
      exact IsAutomaton.path_append (ih hst) (.cons ht (.nil _))

/-! ### Canonical states -/

namespace Graph.Complete

/-- A canonical state is what its symbol leads to, and no more. -/
theorem isGoto_of_transition (hA : Complete g .canonical A) (hg : g.WellFormed)
    (ht : (X, m) ∈ A.transitions n) : IsGoto (ofGrammar g) (A.elements n) X (A.kernel m) := by
  have hn := lt_size_of_mem_transitions ht
  obtain ⟨⟨Y, K⟩, hK, hY, htarget⟩ := exists_mem_of_forall₂ (hA.expanded n hn).transitions ht
  obtain rfl : X = Y := hY
  rw [(sameState_iff.1 htarget.same).2 rfl]
  exact isGoto_of_mem_gotos (hA.automaton.grounded_elements hg hn).proper.sorted hK

/-- A lookahead behind a moved mark was there before the mark was moved. -/
theorem mem_lookaheads_of_transition (hA : Complete g .canonical A) (hg : g.WellFormed)
    (ht : (X, m) ∈ A.transitions n) (ha : a ∈ (A.elements m).lookaheads ⟨p, k + 1⟩) :
    a ∈ (A.elements n).lookaheads ⟨p, k⟩ := by
  have hm := (hA.automaton.lt_of_transition hg ht).2
  rw [(hA.expanded m hm).elements] at ha
  rcases mem_lookaheads_closure hg (hA.automaton.grounded m hm).proper ha with ha | ⟨hmark, -⟩
  · obtain ⟨i, ha, -, -, hadv⟩ := ((hA.isGoto_of_transition hg ht).lookaheads _ a).1 ha
    obtain rfl : ⟨p, k⟩ = i := Item.advance_injective hadv
    exact ha
  · exact absurd hmark (Nat.succ_ne_zero k)

/-- A lookahead goes back to where the mark was at a place before. -/
theorem mem_lookaheads_of_path (hA : Complete g .canonical A) (hg : g.WellFormed)
    {u : List Symbol} (hpath : Path A n u m)
    (ha : a ∈ (A.elements m).lookaheads ⟨p, k + u.length⟩) :
    a ∈ (A.elements n).lookaheads ⟨p, k⟩ := by
  induction hpath generalizing k with
  | nil => exact ha
  | cons ht _ ih =>
    refine hA.mem_lookaheads_of_transition hg ht (ih ?_)
    rwa [Nat.succ_add, ← Nat.add_succ]

/-- Where a production begins, each of its lookaheads is awaited behind its left side. -/
theorem awaits_of_start (hA : Complete g .canonical A) (hg : g.WellFormed) {q : Production}
    (hq : g.augmented[p]? = some q) (hp : p ≠ 0)
    (ht : (.nonterminal q.left, k) ∈ A.transitions n)
    (ha : a ∈ (A.elements n).lookaheads ⟨p, 0⟩) : Awaits g A k a := by
  have hG := hA.automaton
  have hn := lt_size_of_mem_transitions ht
  rw [(hA.expanded n hn).elements] at ha
  rcases mem_lookaheads_closure hg (hG.grounded n hn).proper ha with
    hk | ⟨-, j, l, hj, hX, hder, hahead⟩
  · -- no other production begins in a kernel
    have hk := ItemSet.mem_core_of_mem_lookaheads hk
    rcases Nat.eq_zero_or_pos n with rfl | hpos
    · rw [hG.first] at hk
      exact absurd (congrArg Item.production (List.mem_singleton.1 hk)) hp
    · exact absurd (hG.later n hn hpos _ hk) (Nat.lt_irrefl 0)
  · rw [← (hA.expanded n hn).elements] at hj hahead
    obtain ⟨q', hq', rfl⟩ := (mem_derivationsOf_iff hg).1 hder
    obtain rfl : q = q' := Option.some.inj (hq.symm.trans hq')
    obtain ⟨m, ht', hadv, hkeep⟩ := hG.exists_transition hg hn hj hX nofun
    obtain rfl : k = m := hG.transition_unique ht ht'
    rw [behind_eq_of_next? hX, List.tail_cons] at hahead
    exact ⟨j.advance, hadv, hahead.mono hkeep⟩

/-- What a state awaits behind a nonterminal, the state before demands for the nonterminal. -/
theorem demands_of_awaits (hA : Complete g .canonical A) (hg : g.WellFormed)
    (ht : (.nonterminal m, k) ∈ A.transitions n) (h : Awaits g A k a) :
    IsAutomaton.Demands g A n m a := by
  have hG := hA.automaton
  have hn := lt_size_of_mem_transitions ht
  have hgoto := hA.isGoto_of_transition hg ht
  obtain ⟨i, hi, ha⟩ := h
  obtain ⟨i, hi, ha⟩ := hG.exists_kernel_item hg (hG.lt_of_transition hg ht).2 hi ha
  obtain ⟨j, hj, -, hX, rfl⟩ := (hgoto.core i).1 hi
  refine hG.demands_of_next? hg hn hj hX (ha.mono fun b hb => ?_)
  obtain ⟨j', hb, -, -, hadv⟩ := (hgoto.lookaheads _ b).1 hb
  rwa [Item.advance_injective hadv]

/-- **A completed item has just the lookaheads that are awaited once it has been reduced.** -/
theorem mem_lookaheads_iff_awaits (hA : Complete g .canonical A) (hg : g.WellFormed)
    {popped rest : List Entry} (hst : Stacked g A (popped ++ rest)) {q : Production}
    (hq : g.augmented[p]? = some q) (hp : p ≠ 0)
    (hsyms : (treesOf popped).map (Tree.symbol g) = q.right)
    (ht : (.nonterminal q.left, k) ∈ A.transitions (topState rest)) :
    a ∈ (A.elements (topState (popped ++ rest))).lookaheads ⟨p, q.right.length⟩ ↔
      Awaits g A k a := by
  have hG := hA.automaton
  have hpath := hst.path
  rw [hsyms] at hpath
  constructor
  · intro ha
    refine hA.awaits_of_start hg hq hp ht (hA.mem_lookaheads_of_path hg hpath ?_)
    rwa [Nat.zero_add]
  · intro h
    obtain ⟨-, ha⟩ := hA.demands_of_awaits hg ht h p ((mem_derivationsOf_iff hg).2 ⟨q, hq, rfl⟩)
    obtain ⟨p, rfl⟩ := Nat.exists_eq_succ_of_ne_zero hp
    exact hG.mem_lookaheads_of_right hg hq hpath (lt_size_of_mem_transitions ht) ha

end Graph.Complete

end LexParse.Lr
