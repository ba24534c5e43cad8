import LexParse.Proofs.Grammar.Forest
import LexParse.Proofs.Lr.Candidates
import Mathlib.Logic.Relation

/-!
# The machine of states and trees

A parser without tokens, values and positions: its stack holds states, each with the tree of the
symbol that led to it, and its input is a list of leaves. A table is seen through its policy, the
action for a state and a terminal with reductions named by their productions. Everything about
generated parsers is first proved of this machine.

Steps take a *base*, a number of entries at the bottom of the stack that they leave alone.

## What is proved

* `Stacked.unwind`: on a stack of trees that follows the automaton, an item in the state on top has
  the symbols before its mark on the stack.
* `Stacked.exists_reduceStep`: whenever the policy calls for a reduction there are enough entries
  for it, and the state below them has a successor.
* `Stacked.cases_of_reduceStep`: what a reduction does to the stack.
* `Stacked.reduceStep`, `Stacked.shift`, `Stacked.accept`: the stack keeps following the automaton,
  and on acceptance it holds one tree, of the start symbol.
* `ReduceStep.unique`: reductions are deterministic.
-/

namespace LexParse.Lr

open Context

/-- An entry of the stack. -/
structure Entry where
  /-- The state. -/
  state : Nat
  /-- The tree of the symbol that led to it. -/
  tree : Tree

/-- The state on top of a stack; on an empty one it is the first state. -/
def topState : List Entry → Nat
  | [] => 0
  | e :: _ => e.state

/-- The trees on a stack, from the bottom up. -/
def treesOf (st : List Entry) : List Tree := st.reverse.map (·.tree)

@[simp] theorem treesOf_nil : treesOf [] = [] := rfl

@[simp] theorem treesOf_cons (e : Entry) (st : List Entry) :
    treesOf (e :: st) = treesOf st ++ [e.tree] := by
  simp [treesOf]

@[simp] theorem treesOf_append (st st' : List Entry) :
    treesOf (st ++ st') = treesOf st' ++ treesOf st := by
  simp [treesOf]

variable {g : Grammar} {G : Graph} {act : Nat → Nat → Act Nat}

/-- A reduction on a terminal. The topmost entries are replaced by one, and at least `base` entries
lie below them. -/
inductive ReduceStep (g : Grammar) (G : Graph) (act : Nat → Nat → Act Nat) (a base : Nat) :
    List Entry → List Entry → Prop where
  /-- Replace the entries of a right side by one of the left side. -/
  | intro {p n : Nat} {q : Production} {popped rest : List Entry} :
      act (topState (popped ++ rest)) a = .reduce p → g.augmented[p]? = some q →
      popped.length = q.right.length → base ≤ rest.length →
      (.nonterminal q.left, n) ∈ G.transitions (topState rest) →
      ReduceStep g G act a base (popped ++ rest) (⟨n, .node (p - 1) (treesOf popped)⟩ :: rest)

/-- A step of the machine on a stack and the leaves to come. -/
inductive Go (g : Grammar) (G : Graph) (act : Nat → Nat → Act Nat) (base : Nat) :
    List Entry × List (Nat × Value) → List Entry × List (Nat × Value) → Prop where
  /-- Take the leaf in front. -/
  | shift {st : List Entry} {a n : Nat} {v : Value} {rest : List (Nat × Value)} :
      act (topState st) a = .shift n →
      Go g G act base (st, (a, v) :: rest) (⟨n, .leaf a v⟩ :: st, rest)
  /-- Reduce on the leaf in front. -/
  | reduce {st st' : List Entry} {input : List (Nat × Value)} :
      ReduceStep g G act (front input) base st st' → Go g G act base (st, input) (st', input)

/-- From a stack and some leaves to come the machine goes to one tree, and accepts it. -/
def Accepts (g : Grammar) (G : Graph) (act : Nat → Nat → Act Nat) (st : List Entry)
    (l : List (Nat × Value)) (t : Tree) : Prop :=
  ∃ n, Relation.ReflTransGen (Go g G act 0) (st, l) ([⟨n, t⟩], []) ∧ act n 0 = .accept

theorem ReduceStep.unique (hG : IsAutomaton g G) {a base base' : Nat} {st x y : List Entry}
    (hx : ReduceStep g G act a base st x) (hy : ReduceStep g G act a base' st y) : x = y := by
  obtain @⟨p, n, q, popped, rest, hact, hq, hlen, -, ht⟩ := hx
  generalize hst : popped ++ rest = st at hy hact
  obtain @⟨p', n', q', popped', rest', hact', hq', hlen', -, ht'⟩ := hy
  rw [hact'] at hact
  cases hact
  obtain rfl : q = q' := Option.some.inj (hq.symm.trans hq')
  obtain ⟨rfl, rfl⟩ := List.append_inj hst (hlen.trans hlen'.symm)
  rw [hG.transition_unique ht ht']

/-- Two runs of a deterministic relation that cannot go on end alike. -/
theorem eq_of_runs {α : Type} {r : α → α → Prop} (hr : Relator.RightUnique r) {x y z : α}
    (hy : Relation.ReflTransGen r x y) (hz : Relation.ReflTransGen r x z) (hy' : ∀ w, ¬ r y w)
    (hz' : ∀ w, ¬ r z w) : y = z := by
  rcases hy.total_of_right_unique hr hz with h | h
  · rcases h.cases_head with heq | ⟨w, hw, -⟩
    · exact heq
    · exact absurd hw (hy' w)
  · rcases h.cases_head with heq | ⟨w, hw, -⟩
    · exact heq.symm
    · exact absurd hw (hz' w)

/-- The machine is deterministic. -/
theorem Go.unique (hG : IsAutomaton g G) {base : Nat} {x y z : List Entry × List (Nat × Value)}
    (hy : Go g G act base x y) (hz : Go g G act base x z) : y = z := by
  cases hy with
  | shift hact =>
    cases hz with
    | shift hact' =>
      rw [hact] at hact'
      cases hact'
      rfl
    | reduce hred =>
      obtain ⟨hact', -⟩ := hred
      rw [front_cons, hact] at hact'
      cases hact'
  | reduce hred =>
    cases hz with
    | shift hact' =>
      obtain ⟨hact, -⟩ := hred
      rw [front_cons, hact'] at hact
      cases hact
    | reduce hred' => rw [hred.unique hG hred']

/-! ### Stacks that follow the automaton -/

/-- The trees on the stack are valid, and their symbols lead from each state to the next. -/
inductive Stacked (g : Grammar) (G : Graph) : List Entry → Prop where
  /-- The empty stack. -/
  | nil : Stacked g G []
  /-- A valid tree whose symbol leads on from the state on top. -/
  | cons {n : Nat} {t : Tree} {rest : List Entry} : Stacked g G rest → t.Valid g →
      (t.symbol g, n) ∈ G.transitions (topState rest) → Stacked g G (⟨n, t⟩ :: rest)

namespace Stacked

variable {st rest : List Entry} {a : Nat}

theorem topState_lt (h : Stacked g G st) (hG : IsAutomaton g G) (hg : g.WellFormed) :
    topState st < G.size := by
  cases h with
  | nil => exact hG.pos
  | cons _ _ ht => exact (hG.lt_of_transition hg ht).2

theorem valid (h : Stacked g G st) : ∀ t ∈ treesOf st, t.Valid g := by
  induction h with
  | nil => simp
  | cons _ ht _ ih =>
    intro u hu
    rcases List.mem_append.1 (treesOf_cons _ _ ▸ hu) with hu | hu
    · exact ih u hu
    · rw [List.mem_singleton.1 hu]
      exact ht

/-- **What stands before a mark lies on the stack**, and below it the item began. -/
theorem unwind (h : Stacked g G st) (hG : IsAutomaton g G) (hg : g.WellFormed) {i : Item}
    (hi : i ∈ (G.elements (topState st)).core) :
    ∃ popped rest, st = popped ++ rest ∧ popped.length = i.mark ∧ Stacked g G rest ∧
      (treesOf popped).map (Tree.symbol g) = ((ofGrammar g).production i).right.take i.mark ∧
      ⟨i.production, 0⟩ ∈ (G.elements (topState rest)).core := by
  induction h generalizing i with
  | nil =>
    have hmark : i.mark = 0 := by
      by_contra hpos
      have hk := hG.mem_kernel_of_mark_pos hg hG.pos hi (Nat.pos_of_ne_zero hpos)
      rw [hG.first] at hk
      rw [List.mem_singleton.1 hk] at hpos
      exact hpos rfl
    obtain ⟨p, m⟩ := i
    obtain rfl : m = 0 := hmark
    exact ⟨[], [], rfl, rfl, .nil, by simp, hi⟩
  | @cons n t rest hrest hvalid ht ih =>
    obtain ⟨p, m⟩ := i
    cases m with
    | zero => exact ⟨[], _, rfl, rfl, .cons hrest hvalid ht, by simp, hi⟩
    | succ m =>
      obtain ⟨j, hj, hX, hadv⟩ := hG.exists_of_transition hg ht hi (Nat.succ_pos m)
      obtain rfl : j = ⟨p, m⟩ := Item.advance_injective hadv.symm
      obtain ⟨popped, rest', rfl, hlen, hst, hsyms, hstart⟩ := ih hj
      refine ⟨⟨n, t⟩ :: popped, rest', rfl, by simp [hlen], hst, ?_, hstart⟩
      -- the symbol of the tree on top is the one the mark has moved over
      have hprod : (ofGrammar g).production ⟨p, m + 1⟩ = (ofGrammar g).production ⟨p, m⟩ := rfl
      have hget : ((ofGrammar g).production ⟨p, m⟩).right[m]? = some (t.symbol g) := by
        rw [next?, behind, List.head?_drop] at hX
        exact hX
      rw [treesOf_cons, List.map_append, hsyms, hprod, List.take_add_one, hget]
      rfl

/-- The end of the input is not on the stack. -/
theorem ne_end (h : Stacked g G st) (hG : IsAutomaton g G) :
    ∀ t ∈ treesOf st, t.symbol g ≠ .endOfInput := by
  induction h with
  | nil => simp
  | cons _ _ ht ih =>
    intro u hu
    rcases List.mem_append.1 (treesOf_cons _ _ ▸ hu) with hu | hu
    · exact ih u hu
    · rw [List.mem_singleton.1 hu]
      obtain ⟨i, -, hl⟩ := hG.exists_leads_of_transition ht
      exact hl.1

/-- The first state lies at the bottom only. -/
theorem eq_nil_of_topState (h : Stacked g G st) (hG : IsAutomaton g G) (hg : g.WellFormed)
    (hz : topState st = 0) : st = [] := by
  cases h with
  | nil => rfl
  | cons _ _ ht =>
    exact absurd hz (Nat.ne_of_gt (hG.lt_of_transition hg ht).1)

/-- **A reduction that is called for finds its right side on the stack.** -/
theorem exists_popped (h : Stacked g G st) (hG : IsAutomaton g G) (hg : g.WellFormed)
    (hlic : Licensed g G act) {p : Nat} (hact : act (topState st) a = .reduce p) :
    ∃ q popped rest, st = popped ++ rest ∧ g.augmented[p]? = some q ∧
      g.productions[p - 1]? = some q ∧ popped.length = q.right.length ∧
      (treesOf popped).map (Tree.symbol g) = q.right ∧ Stacked g G rest ∧
      ∃ n, (.nonterminal q.left, n) ∈ G.transitions (topState rest) := by
  have hlt := h.topState_lt hG hg
  obtain ⟨i, hi, rfl, hc, -⟩ := hlic.reduce hlt hact
  have hitem := (hG.grounded_elements hg hlt).item i hi
  have hmark := mark_eq_of_isComplete hitem hc
  obtain ⟨q, hq, -⟩ := hitem
  obtain ⟨popped, rest, rfl, hlen, hst, hsyms, hstart⟩ := h.unwind hG hg hi
  rw [hmark, List.take_length, production_eq_of_getElem? hq] at hsyms
  rw [hmark, production_eq_of_getElem? hq] at hlen
  have hne : i.production ≠ 0 := by
    intro hz
    rw [hz] at hq
    obtain rfl : g.wholeInput = q := Option.some.inj hq
    -- the end of the input would have been taken
    have hend : Symbol.endOfInput ∈ (treesOf popped).map (Tree.symbol g) := by
      rw [hsyms]
      simp [Grammar.wholeInput]
    obtain ⟨t, ht, heq⟩ := List.mem_map.1 hend
    refine h.ne_end hG t ?_ heq
    rw [treesOf_append]
    exact List.mem_append_right _ ht
  have hprod : g.productions[i.production - 1]? = some q := by
    obtain ⟨k, hk⟩ : ∃ k, i.production = k + 1 := ⟨_, (Nat.succ_pred_eq_of_ne_zero hne).symm⟩
    rw [hk] at hq ⊢
    exact hq
  exact ⟨q, popped, rest, rfl, hq, hprod, hlen, hsyms, hst,
    hG.exists_transition_of_start hg (hst.topState_lt hG hg) hstart hne hq⟩

/-- The production of the whole input is not reduced. -/
theorem production_ne_zero (h : Stacked g G st) (hG : IsAutomaton g G) (hg : g.WellFormed)
    (hlic : Licensed g G act) {p : Nat} (hact : act (topState st) a = .reduce p) : p ≠ 0 := by
  rintro rfl
  obtain ⟨q, -, -, -, hq, hprod, -⟩ := h.exists_popped hG hg hlic hact
  obtain rfl : g.wholeInput = q := Option.some.inj hq
  exact Nat.lt_irrefl 0 (hg.left_pos _ (List.mem_of_getElem? hprod))

theorem of_append {popped : List Entry} (h : Stacked g G (popped ++ rest)) : Stacked g G rest := by
  induction popped with
  | nil => exact h
  | cons e popped ih =>
    cases h with
    | cons h _ _ => exact ih h

/-- The trees of a right side can be put under a node of the left side. -/
theorem node {popped : List Entry} (h : Stacked g G (popped ++ rest)) {p n : Nat} {q : Production}
    (hq : g.productions[p]? = some q) (hsyms : (treesOf popped).map (Tree.symbol g) = q.right)
    (ht : (.nonterminal q.left, n) ∈ G.transitions (topState rest)) :
    Stacked g G (⟨n, .node p (treesOf popped)⟩ :: rest) := by
  have hnode : Tree.Valid g (.node p (treesOf popped)) := by
    refine .node hq hsyms fun t ht => h.valid t ?_
    rw [treesOf_append]
    exact List.mem_append_right _ ht
  rw [← Tree.symbol_node hq] at ht
  exact .cons h.of_append hnode ht

/-- **What a reduction does**: trees of the right side of a declared production are put under a
node, and the left side leads on from the state below them. -/
theorem cases_of_reduceStep (h : Stacked g G st) (hG : IsAutomaton g G) (hg : g.WellFormed)
    (hlic : Licensed g G act) {base : Nat} {st' : List Entry}
    (hstep : ReduceStep g G act a base st st') :
    ∃ k q popped rest n, st = popped ++ rest ∧ st' = ⟨n, .node k (treesOf popped)⟩ :: rest ∧
      act (topState st) a = .reduce (k + 1) ∧ g.productions[k]? = some q ∧
      (treesOf popped).map (Tree.symbol g) = q.right ∧
      (.nonterminal q.left, n) ∈ G.transitions (topState rest) := by
  obtain @⟨p, n, q, popped, rest, hact, hq, hlen, -, ht⟩ := hstep
  obtain ⟨q', popped', rest', heq, hq', hprod, hlen', hsyms, -⟩ := h.exists_popped hG hg hlic hact
  obtain rfl : q = q' := Option.some.inj (hq.symm.trans hq')
  obtain ⟨rfl, rfl⟩ := List.append_inj heq (hlen.trans hlen'.symm)
  obtain ⟨k, rfl⟩ := Nat.exists_eq_succ_of_ne_zero (h.production_ne_zero hG hg hlic hact)
  exact ⟨k, q, popped, rest, n, rfl, rfl, hact, hprod, hsyms, ht⟩

/-- A reduction keeps the stack following the automaton, and the leaves of its trees. -/
theorem reduceStep (h : Stacked g G st) (hG : IsAutomaton g G) (hg : g.WellFormed)
    (hlic : Licensed g G act) {base : Nat} {st' : List Entry}
    (hstep : ReduceStep g G act a base st st') :
    Stacked g G st' ∧ Tree.leavesOf (treesOf st') = Tree.leavesOf (treesOf st) := by
  obtain ⟨k, q, popped, rest, n, rfl, rfl, -, hq, hsyms, ht⟩ :=
    h.cases_of_reduceStep hG hg hlic hstep
  refine ⟨h.node hq hsyms ht, ?_⟩
  rw [treesOf_cons, treesOf_append, Tree.leavesOf_append, Tree.leavesOf_append]
  simp [Tree.leavesOf, Tree.leaves]

/-- Reductions keep the stack following the automaton, and the leaves of its trees. -/
theorem reduceSteps (h : Stacked g G st) (hG : IsAutomaton g G) (hg : g.WellFormed)
    (hlic : Licensed g G act) {base : Nat} {st' : List Entry}
    (hsteps : Relation.ReflTransGen (ReduceStep g G act a base) st st') :
    Stacked g G st' ∧ Tree.leavesOf (treesOf st') = Tree.leavesOf (treesOf st) := by
  induction hsteps with
  | refl => exact ⟨h, rfl⟩
  | tail _ hstep ih =>
    obtain ⟨hst, hleaves⟩ := ih.1.reduceStep hG hg hlic hstep
    exact ⟨hst, hleaves.trans ih.2⟩

/-- Taking a leaf keeps the stack following the automaton. -/
theorem shift (h : Stacked g G st) (hG : IsAutomaton g G) (hg : g.WellFormed)
    (hlic : Licensed g G act) {n : Nat} (v : Value) (hact : act (topState st) a = .shift n) :
    Stacked g G (⟨n, .leaf a v⟩ :: st) := by
  have ht := hlic.shift (h.topState_lt hG hg) hact
  exact .cons h (.leaf (hG.within_of_transition hg ht)) ht

/-- The stack keeps following the automaton, and no leaf is lost. -/
theorem go (hG : IsAutomaton g G) (hg : g.WellFormed) (hlic : Licensed g G act) {base : Nat}
    {x y : List Entry × List (Nat × Value)} (h : Stacked g G x.1)
    (hgo : Relation.ReflTransGen (Go g G act base) x y) : Stacked g G y.1 ∧
      Tree.leavesOf (treesOf y.1) ++ y.2 = Tree.leavesOf (treesOf x.1) ++ x.2 := by
  induction hgo with
  | refl => exact ⟨h, rfl⟩
  | tail _ hstep ih =>
    obtain ⟨hst, hleaves⟩ := ih
    cases hstep with
    | shift hact =>
      refine ⟨hst.shift hG hg hlic _ hact, ?_⟩
      rw [← hleaves, treesOf_cons, Tree.leavesOf_append]
      simp [Tree.leavesOf, Tree.leaves]
    | reduce hred =>
      obtain ⟨hst', hleaves'⟩ := hst.reduceStep hG hg hlic hred
      exact ⟨hst', hleaves' ▸ hleaves⟩

/-- **On acceptance the stack holds one tree of the start symbol.** -/
theorem accept (h : Stacked g G st) (hG : IsAutomaton g G) (hg : g.WellFormed)
    (hlic : Licensed g G act) (hact : act (topState st) a = .accept) :
    a = 0 ∧ ∃ n t, st = [⟨n, t⟩] ∧ t.symbol g = .nonterminal g.start ∧ t.Valid g := by
  have hlt := h.topState_lt hG hg
  obtain ⟨rfl, i, hi, hX⟩ := hlic.accept hlt hact
  have hitem := (hG.grounded_elements hg hlt).item i hi
  obtain rfl : i = ⟨0, 1⟩ := eq_whole_of_next? hg hitem hX
  obtain ⟨popped, rest, rfl, hlen, hst, hsyms, hstart⟩ := h.unwind hG hg hi
  obtain rfl : rest = [] :=
    hst.eq_nil_of_topState hG hg (hG.eq_zero_of_whole_mem hg (hst.topState_lt hG hg) hstart)
  obtain ⟨⟨n, t⟩, rfl⟩ := List.length_eq_one_iff.1 hlen
  refine ⟨rfl, n, t, rfl, ?_, h.valid t (by simp)⟩
  have hsym : [t.symbol g] = [Symbol.nonterminal g.start] := hsyms
  exact (List.cons.inj hsym).1

/-- A tree that is accepted has the leaves of the stack and those that were to come. -/
theorem of_accepts (h : Stacked g G st) (hG : IsAutomaton g G) (hg : g.WellFormed)
    (hlic : Licensed g G act) {l : List (Nat × Value)} {t : Tree} (hacc : Accepts g G act st l t) :
    t.Valid g ∧ t.symbol g = .nonterminal g.start ∧
      t.leaves = Tree.leavesOf (treesOf st) ++ l := by
  obtain ⟨n, hgo, hact⟩ := hacc
  obtain ⟨hst, hleaves⟩ := h.go hG hg hlic hgo
  obtain ⟨-, m, u, heq, hsymbol, hvalid⟩ := hst.accept hG hg hlic hact
  cases heq
  exact ⟨hvalid, hsymbol, by simpa [Tree.leavesOf] using hleaves⟩

end Stacked

end LexParse.Lr
