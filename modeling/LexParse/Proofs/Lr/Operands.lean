import LexParse.Proofs.Lr.Canonical
import LexParse.Proofs.Lr.Comparison

/-!
# Operands in trees that the machine builds

Precedences decide between actions in single cells of the table, and yet they shape whole trees. The
link is that a node is reduced on the terminal right behind its leaves, and a leaf is shifted in the
state that what stands before it leads to. So where one operator stands under another, the machine
has made a choice between the two:

* If the right operand of `o` is a node of `p`, then behind the left operand of `p` the machine was
  in the state in which `o` can be reduced, on `p`, and it has shifted `p`.
* If the left operand of `o` is a node of `p`, then behind it the machine was in a state in which
  `o` can be shifted, and it has reduced `p`.

In both cases the other choice was there, as both operators have the same left side: the closure
holds the start of either wherever it holds that of one, with the other's terminal as a lookahead.
This does not depend on how states are told apart.

## What is proved

* `Builds.go`: the trees on the machine's stack are built as its table says.
* `Builds.judge_right_operand`, `Builds.judge_left_operand`: the outcomes of the two comparisons.
-/

namespace LexParse.Lr

open Context Relation

variable {g : Grammar} {G : Graph} {act : Nat → Nat → Act Nat} {s m n k l a b : Nat}
  {t : Tree} {ts ts' : List Tree} {input : List (Nat × Value)}

/-! ### Trees built from a state -/

/-- From a state the machine builds some trees, with leaves to come behind them, and comes to a
state. -/
inductive Builds (g : Grammar) (G : Graph) (act : Nat → Nat → Act Nat) :
    Nat → List Tree → Nat → List (Nat × Value) → Prop where
  /-- Nothing is built. -/
  | nil {s : Nat} {input : List (Nat × Value)} : Builds g G act s [] s input
  /-- A leaf is shifted. -/
  | leaf {s m n a : Nat} {v : Value} {ts : List Tree} {input : List (Nat × Value)} :
      act s a = .shift m → Builds g G act m ts n input → Builds g G act s (.leaf a v :: ts) n input
  /-- The children of a node are built, and it is reduced on the terminal behind them. -/
  | node {s m l n k : Nat} {q : Production} {children ts : List Tree}
      {input : List (Nat × Value)} :
      Builds g G act s children m (Tree.leavesOf ts ++ input) →
      act m (front (Tree.leavesOf ts ++ input)) = .reduce (k + 1) →
      g.productions[k]? = some q → (.nonterminal q.left, l) ∈ G.transitions s →
      Builds g G act l ts n input → Builds g G act s (.node k children :: ts) n input

namespace Builds

/-- What is built on from where some trees have led. -/
theorem append (h : Builds g G act s ts m (Tree.leavesOf ts' ++ input))
    (h' : Builds g G act m ts' n input) : Builds g G act s (ts ++ ts') n input := by
  generalize hinput : Tree.leavesOf ts' ++ input = behind at h
  induction h with
  | nil => exact h'
  | leaf hact _ ih => exact .leaf hact (ih h' hinput)
  | @node s m l n k q children ts behind hchildren hact hq ht _ _ ih =>
    subst hinput
    rw [← List.append_assoc, ← Tree.leavesOf_append] at hchildren hact
    exact .node hchildren hact hq ht (ih h' rfl)

/-- Between two rows of trees there is a state. -/
theorem split (h : Builds g G act s (ts ++ ts') n input) :
    ∃ m, Builds g G act s ts m (Tree.leavesOf ts' ++ input) ∧ Builds g G act m ts' n input := by
  induction ts generalizing s with
  | nil => exact ⟨s, .nil, h⟩
  | cons t ts ih =>
    rw [List.cons_append] at h
    cases h with
    | leaf hact hts =>
      obtain ⟨m, h, h'⟩ := ih hts
      exact ⟨m, .leaf hact h, h'⟩
    | node hchildren hact hq ht hts =>
      obtain ⟨m, h, h'⟩ := ih hts
      rw [Tree.leavesOf_append, List.append_assoc] at hchildren hact
      exact ⟨m, .node hchildren hact hq ht h, h'⟩

/-- The symbols of the trees spell the path that the machine has gone. -/
theorem path (h : Builds g G act s ts n input) (hG : IsAutomaton g G) (hg : g.WellFormed)
    (hlic : Licensed g G act) (hs : s < G.size) : Path G s (ts.map (Tree.symbol g)) n := by
  induction h with
  | nil => exact .nil _
  | leaf hact _ ih =>
    have ht := hlic.shift hs hact
    exact .cons ht (ih (hG.lt_of_transition hg ht).2)
  | @node s m l n k q children ts input _ _ hq ht _ _ ih =>
    rw [← Tree.symbol_node hq] at ht
    exact .cons ht (ih (hG.lt_of_transition hg ht).2)

/-- The symbol of a tree that is built leads on. -/
theorem transition (h : Builds g G act s [t] n input) (hG : IsAutomaton g G) (hg : g.WellFormed)
    (hlic : Licensed g G act) (hs : s < G.size) : (t.symbol g, n) ∈ G.transitions s := by
  cases h.path hG hg hlic hs with
  | cons ht hnil =>
    cases hnil with
    | nil => exact ht

/-- A step of the machine keeps its stack built. -/
theorem goStep (hG : IsAutomaton g G) (hg : g.WellFormed) (hlic : Licensed g G act) {base : Nat}
    {x y : List Entry × List (Nat × Value)} (hst : Stacked g G x.1)
    (h : Builds g G act 0 (treesOf x.1) (topState x.1) x.2) (hstep : Go g G act base x y) :
    Builds g G act 0 (treesOf y.1) (topState y.1) y.2 := by
  cases hstep with
  | @shift st a n v rest hact =>
    rw [treesOf_cons]
    exact h.append (.leaf hact .nil)
  | @reduce st st' input hred =>
    obtain ⟨k, q, popped, rest, n, rfl, rfl, hact, hq, -, ht⟩ :=
      hst.cases_of_reduceStep hG hg hlic hred
    -- the state between the popped trees and those below them is that on top of the rest
    rw [treesOf_append] at h
    obtain ⟨m, hbelow, hpopped⟩ := h.split
    have hrest : Stacked g G (rest ++ []) := by
      rw [List.append_nil]
      exact hst.of_append
    have hpath := hrest.path
    rw [List.append_nil] at hpath
    obtain rfl := hG.path_unique (hbelow.path hG hg hlic hG.pos) hpath
    rw [treesOf_cons]
    refine Builds.append ?_ (.node hpopped hact hq ht .nil)
    simpa [Tree.leavesOf, Tree.leaves] using hbelow

/-- **The trees on the machine's stack are built as its table says.** -/
theorem go (hG : IsAutomaton g G) (hg : g.WellFormed) (hlic : Licensed g G act) {base : Nat}
    {x y : List Entry × List (Nat × Value)} (hst : Stacked g G x.1)
    (h : Builds g G act 0 (treesOf x.1) (topState x.1) x.2)
    (hgo : ReflTransGen (Go g G act base) x y) :
    Builds g G act 0 (treesOf y.1) (topState y.1) y.2 := by
  induction hgo with
  | refl => exact h
  | tail hgo hstep ih => exact ih.goStep hG hg hlic (hst.go hG hg hlic hgo).1 hstep

/-- A tree among others is built from some state. -/
theorem exists_of_mem (h : Builds g G act s ts n input) (hG : IsAutomaton g G) (hg : g.WellFormed)
    (hlic : Licensed g G act) (hs : s < G.size) (ht : t ∈ ts) :
    ∃ m < G.size, ∃ n input, Builds g G act m [t] n input := by
  obtain ⟨before, behind, rfl⟩ := List.append_of_mem ht
  obtain ⟨m, hbefore, hrest⟩ := h.split
  have hrest : Builds g G act m ([t] ++ behind) n input := hrest
  obtain ⟨k, ht, -⟩ := hrest.split
  exact ⟨m, hG.lt_of_path hg (hbefore.path hG hg hlic hs) hs, k, _, ht⟩

/-- Each part of a tree is built from some state. -/
theorem part {u : Tree} (h : Builds g G act s [t] n input) (hG : IsAutomaton g G)
    (hg : g.WellFormed) (hlic : Licensed g G act) (hs : s < G.size) (hpart : u.Part t) :
    ∃ m < G.size, ∃ n input, Builds g G act m [u] n input := by
  induction hpart generalizing s n input with
  | self => exact ⟨s, hs, n, input, h⟩
  | under hmem _ ih =>
    cases h with
    | node hchildren _ _ _ _ =>
      obtain ⟨m, hm, n, input, h⟩ := hchildren.exists_of_mem hG hg hlic hs hmem
      exact ih h hm

end Builds

/-! ### Where operators meet -/

section
variable {i : Item} {q q' : Production}

theorem behind_of_joins (hq : g.productions[k]? = some q) (ha : q.Joins a) :
    (ofGrammar g).behind ⟨k + 1, 0⟩ =
      [.nonterminal q.left, .terminal a, .nonterminal q.left] := by
  have hq : g.augmented[k + 1]? = some q := hq
  rw [behind_start hq, ha]

namespace IsAutomaton

/-- Where a nonterminal stands behind a mark its productions begin. -/
theorem start_of_next? (hG : IsAutomaton g G) (hg : g.WellFormed) (hs : s < G.size)
    (hi : i ∈ (G.elements s).core) (hX : (ofGrammar g).next? i = some (.nonterminal q.left))
    (hq : g.productions[k]? = some q) : ⟨k + 1, 0⟩ ∈ (G.elements s).core :=
  (hG.closed hg hs).item hi hX ((mem_derivationsOf_iff hg).2 ⟨q, hq, rfl⟩)

/-- Where a nonterminal stands behind a mark, a terminal that joins two of it is a lookahead of all
its productions. -/
theorem mem_lookaheads_of_joins (hG : IsAutomaton g G) (hg : g.WellFormed) (hs : s < G.size)
    (hi : i ∈ (G.elements s).core) (hX : (ofGrammar g).next? i = some (.nonterminal q.left))
    (hq : g.productions[k]? = some q) (ha : q.Joins a)
    (hl : l ∈ (ofGrammar g).derivationsOf q.left) : a ∈ (G.elements s).lookaheads ⟨l, 0⟩ := by
  have hbehind := behind_of_joins hq ha
  refine (hG.closed hg hs).lookahead (hG.start_of_next? hg hs hi hX hq)
    (next?_of_behind hbehind) hl (.inl ?_)
  rw [hbehind]
  exact .terminal

/-- Where a nonterminal stands behind a mark, a terminal that joins two of it can be shifted once
the first of them is there. -/
theorem exists_transition_of_joins (hG : IsAutomaton g G) (hg : g.WellFormed)
    (hi : i ∈ (G.elements s).core) (hX : (ofGrammar g).next? i = some (.nonterminal q.left))
    (hq : g.productions[k]? = some q) (ha : q.Joins a)
    (ht : (.nonterminal q.left, m) ∈ G.transitions s) :
    ∃ n, (.terminal a, n) ∈ G.transitions m := by
  have hs := Graph.lt_size_of_mem_transitions ht
  have hbehind := behind_of_joins hq ha
  have hnext := next?_of_behind hbehind
  obtain ⟨m', ht', hitem, -⟩ :=
    hG.exists_transition hg hs (hG.start_of_next? hg hs hi hX hq) hnext nofun
  obtain rfl := hG.transition_unique ht ht'
  rw [behind_eq_of_next? hnext] at hbehind
  have hend : Symbol.terminal a ≠ .endOfInput := by
    intro heq
    refine hg.end_notMem q (List.mem_of_getElem? hq) ?_
    rw [ha, ← heq]
    simp
  obtain ⟨n, htr, -⟩ := hG.exists_transition hg (hG.lt_of_transition hg ht).2 hitem
    (next?_of_behind (List.cons.inj hbehind).2) hend
  exact ⟨n, htr⟩

end IsAutomaton

theorem precedence_eq (hq : g.productions[k]? = some q) :
    (ofGrammar g).precedence (k + 1) = q.precedence :=
  congrArg Production.precedence (production_eq_of_getElem? (i := ⟨k + 1, 0⟩) hq)

/-- Where a production that joins operands is reduced, each terminal that joins them is a lookahead
of the completed item. -/
theorem Licensed.mem_lookaheads_of_reduce (hlic : Licensed g G act) (hG : IsAutomaton g G)
    (hg : g.WellFormed) (hs : s < G.size) (hpath : Path G s q.right m)
    (hact : act m n = .reduce (k + 1)) (hq : g.productions[k]? = some q)
    (hq' : g.productions[l]? = some q') (hleft : q.left = q'.left) (ha : q.Joins a)
    (hb : q'.Joins b) : b ∈ (G.elements m).lookaheads ⟨k + 1, q.right.length⟩ := by
  have hdone := ItemSet.mem_core_of_mem_lookaheads
    (hlic.completed_of_reduce hG hg (hG.lt_of_path hg hpath hs) hq hact)
  have hstart := hG.mem_core_of_path hg hpath (by rwa [Nat.zero_add])
  have hX : (ofGrammar g).next? ⟨k + 1, 0⟩ = some (.nonterminal q'.left) :=
    hleft ▸ next?_of_behind (behind_of_joins hq ha)
  have hk : k + 1 ∈ (ofGrammar g).derivationsOf q'.left :=
    (mem_derivationsOf_iff hg).2 ⟨q, hq, hleft⟩
  exact hG.mem_lookaheads_of_right hg hq hpath hs
    (hG.mem_lookaheads_of_joins hg hs hstart hX hq' hb hk)

namespace Builds

variable {x y : Tree} {zs : List Tree} {v : Value}

/-- A leaf is shifted where the tree before it leads to. -/
theorem exists_shift (h : Builds g G act s (x :: .leaf a v :: ts) n input) (hG : IsAutomaton g G)
    (hg : g.WellFormed) (hlic : Licensed g G act) (hs : s < G.size) :
    ∃ m, (x.symbol g, m) ∈ G.transitions s ∧ ∃ k, act m a = .shift k := by
  have h : Builds g G act s ([x] ++ .leaf a v :: ts) n input := h
  obtain ⟨m, hx, hrest⟩ := h.split
  cases hrest with
  | leaf hact _ => exact ⟨m, hx.transition hG hg hlic hs, _, hact⟩

/-- A node is reduced on the terminal behind it, where its children lead to. -/
theorem exists_reduce {children : List Tree} (h : Builds g G act s (.node k children :: ts) n input)
    (hG : IsAutomaton g G) (hg : g.WellFormed) (hlic : Licensed g G act) (hs : s < G.size) :
    ∃ m < G.size, Builds g G act s children m (Tree.leavesOf ts ++ input) ∧
      act m (front (Tree.leavesOf ts ++ input)) = .reduce (k + 1) := by
  cases h with
  | @node _ m _ _ _ _ _ _ _ hchildren hact _ _ _ =>
    exact ⟨m, hG.lt_of_path hg (hchildren.path hG hg hlic hs) hs, hchildren, hact⟩

/-- **The right operand.** Where the right operand of a node is one of another operator, the shift
of that operator has been kept against the reduction of the node. -/
theorem judge_right_operand (h : Builds g G act s [.node k [x, y, .node l zs]] n input)
    (hG : IsAutomaton g G) (hg : g.WellFormed) (hlic : Licensed g G act)
    (hweighed : Weighed g G act) (hs : s < G.size)
    (hvalid : Tree.Valid g (.node k [x, y, .node l zs])) (hq : g.productions[k]? = some q)
    (hq' : g.productions[l]? = some q') (hleft : q.left = q'.left) (ha : q.Joins a)
    (hb : q'.Joins b) : judgeShift (g.terminalPrecedence b) q.precedence = .keep := by
  obtain ⟨hsyms, hvalid⟩ := hvalid.children hq
  obtain ⟨x', v, y', rfl, hx', -⟩ := (hvalid (.node l zs) (by simp)).exists_operands hq' hb
  obtain ⟨m, hm, hchildren, hact⟩ := h.exists_reduce hG hg hlic hs
  -- the node is reduced behind its right operand, and that operand's operator is shifted behind its
  -- own left operand, which is in the same state
  have hpath := hchildren.path hG hg hlic hs
  have hchildren : Builds g G act s ([x, y] ++ [.node l [x', .leaf b v, y']]) m _ := hchildren
  obtain ⟨m₀, hbefore, hlast⟩ := hchildren.split
  have hm₀ := hG.lt_of_path hg (hbefore.path hG hg hlic hs) hs
  have htr := hlast.transition hG hg hlic hm₀
  obtain ⟨_, -, hlast, -⟩ := hlast.exists_reduce hG hg hlic hm₀
  obtain ⟨m', htr', k', hshift⟩ := hlast.exists_shift hG hg hlic hm₀
  rw [Tree.symbol_node hq'] at htr
  rw [hx'] at htr'
  obtain rfl := hG.transition_unique htr htr'
  rw [hsyms] at hpath
  have hla := hlic.mem_lookaheads_of_reduce hG hg hs hpath hact hq hq' hleft ha hb
  have hkeep := hweighed.shift hm hshift (ItemSet.mem_core_of_mem_lookaheads hla)
    (isComplete_length hq) hla
  rwa [precedence_eq hq] at hkeep

/-- **The left operand.** Where the left operand of a node is one of another operator, the reduction
of that operator has replaced the shift of the node's own. -/
theorem judge_left_operand (h : Builds g G act s [.node k [.node l zs, y, x]] n input)
    (hG : IsAutomaton g G) (hg : g.WellFormed) (hlic : Licensed g G act)
    (hweighed : Weighed g G act) (hs : s < G.size)
    (hvalid : Tree.Valid g (.node k [.node l zs, y, x])) (hq : g.productions[k]? = some q)
    (hq' : g.productions[l]? = some q') (hleft : q.left = q'.left) (ha : q.Joins a)
    (hb : q'.Joins b) : judgeShift (g.terminalPrecedence a) q'.precedence = .replace := by
  obtain ⟨_, v, _, heq, -, -⟩ := hvalid.exists_operands hq ha
  cases heq
  obtain ⟨-, hvalid⟩ := hvalid.children hq
  obtain ⟨x', v', y', rfl, -, hy'⟩ := (hvalid (.node l zs) (by simp)).exists_operands hq' hb
  obtain ⟨_, -, hchildren, -⟩ := h.exists_reduce hG hg hlic hs
  -- the operand is reduced on the operator of the node, which stands behind it
  obtain ⟨m, hm, hzs, hact⟩ := hchildren.exists_reduce hG hg hlic hs
  have hact : act m a = .reduce (l + 1) := hact
  -- before its last child there is a state in which another operand can stand in the child's place
  have hzs : Builds g G act s ([x', .leaf b v'] ++ [y']) m _ := hzs
  obtain ⟨m₀, hbefore, hlast⟩ := hzs.split
  have htr := hlast.transition hG hg hlic (hG.lt_of_path hg (hbefore.path hG hg hlic hs) hs)
  have hdone := ItemSet.mem_core_of_mem_lookaheads (hlic.completed_of_reduce hG hg hm hq' hact)
  have hpos : 0 < q'.right.length := by
    rw [hb]
    exact Nat.succ_pos 2
  obtain ⟨i, hi, hX, -⟩ := hG.exists_of_transition hg htr hdone hpos
  rw [hy', ← hleft] at htr hX
  obtain ⟨k', hshift⟩ := hG.exists_transition_of_joins hg hi hX hq ha htr
  have hreplace := hweighed.reduce hm hact hshift
  rwa [precedence_eq hq'] at hreplace

end Builds

/-! ### The tree that is accepted -/

namespace Accepts

variable {leaves : List (Nat × Value)} {tree x y : Tree} {zs : List Tree}

/-- Each part of an accepted tree is built from some state. -/
theorem builds (h : Accepts g G act [] leaves tree) (hG : IsAutomaton g G) (hg : g.WellFormed)
    (hlic : Licensed g G act) (hpart : t.Part tree) :
    ∃ m < G.size, ∃ n input, Builds g G act m [t] n input := by
  obtain ⟨n, hgo, -⟩ := h
  have hbuilds := Builds.go hG hg hlic .nil .nil hgo
  exact hbuilds.part hG hg hlic hG.pos hpart

/-- A node with another operator's as its right operand: the shift of that operator has been kept
against the reduction of the node. -/
theorem judge_right_operand (h : Accepts g G act [] leaves tree) (hG : IsAutomaton g G)
    (hg : g.WellFormed) (hlic : Licensed g G act) (hweighed : Weighed g G act)
    (hpart : Tree.Part (.node k [x, y, .node l zs]) tree) (hq : g.productions[k]? = some q)
    (hq' : g.productions[l]? = some q') (hleft : q.left = q'.left) (ha : q.Joins a)
    (hb : q'.Joins b) : judgeShift (g.terminalPrecedence b) q.precedence = .keep := by
  obtain ⟨m, hm, n, input, hbuilds⟩ := h.builds hG hg hlic hpart
  have hvalid := (Stacked.nil.of_accepts hG hg hlic h).1
  exact hbuilds.judge_right_operand hG hg hlic hweighed hm (hpart.valid hvalid) hq hq' hleft ha hb

/-- A node with another operator's as its left operand: the reduction of that operator has replaced
the shift of the node's own. -/
theorem judge_left_operand (h : Accepts g G act [] leaves tree) (hG : IsAutomaton g G)
    (hg : g.WellFormed) (hlic : Licensed g G act) (hweighed : Weighed g G act)
    (hpart : Tree.Part (.node k [.node l zs, y, x]) tree) (hq : g.productions[k]? = some q)
    (hq' : g.productions[l]? = some q') (hleft : q.left = q'.left) (ha : q.Joins a)
    (hb : q'.Joins b) : judgeShift (g.terminalPrecedence a) q'.precedence = .replace := by
  obtain ⟨m, hm, n, input, hbuilds⟩ := h.builds hG hg hlic hpart
  have hvalid := (Stacked.nil.of_accepts hG hg hlic h).1
  exact hbuilds.judge_left_operand hG hg hlic hweighed hm (hpart.valid hvalid) hq hq' hleft ha hb

end Accepts

end

end LexParse.Lr
