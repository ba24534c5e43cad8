import LexParse.Grammar.Derivation
import LexParse.Proofs.Grammar.Resolved

/-!
# Forests over a string of terminals

A forest of a string of symbols has a valid tree for each of them. It says in one piece what a
derivation says step by step, and it is what a parser builds.

## What is proved

* `exists_forest_of_derives`: a string that derives a string of terminals has a forest with these
  leaves, whatever values they carry.
* `exists_forest_of_vanishes`: a string that vanishes has a forest without leaves.
* `Tree.Valid.ahead`: the first leaf of a tree, or what comes behind it if it has none, may come
  first where its symbol is to come.
* `Tree.Valid.exists_operands`: what stands under a production that joins two operands.
-/

namespace LexParse

variable {g : Grammar} {s u v : List Symbol} {ts ts' : List Tree} {l l' : List (Nat × Value)}

/-- Valid trees for the symbols of a string, with the given leaves. -/
structure IsForest (g : Grammar) (ts : List Tree) (s : List Symbol) (l : List (Nat × Value)) :
    Prop where
  symbols : ts.map (Tree.symbol g) = s
  valid : ∀ t ∈ ts, t.Valid g
  leaves : Tree.leavesOf ts = l

theorem Tree.symbol_node {n : Nat} {p : Production} {children : List Tree}
    (h : g.productions[n]? = some p) :
    Tree.symbol g (.node n children) = .nonterminal p.left := by
  simp [symbol, h]

theorem Tree.leavesOf_append (ts ts' : List Tree) :
    leavesOf (ts ++ ts') = leavesOf ts ++ leavesOf ts' := by
  simp [leavesOf_eq_flatMap]

theorem IsForest.nil : IsForest g [] [] [] := ⟨rfl, by simp, rfl⟩

theorem IsForest.append (h : IsForest g ts u l) (h' : IsForest g ts' v l') :
    IsForest g (ts ++ ts') (u ++ v) (l ++ l') := by
  refine ⟨?_, fun t ht => ?_, ?_⟩
  · rw [List.map_append, h.symbols, h'.symbols]
  · exact (List.mem_append.1 ht).elim (h.valid t) (h'.valid t)
  · rw [Tree.leavesOf_append, h.leaves, h'.leaves]

/-- A forest of two strings side by side is two forests side by side. -/
theorem IsForest.split (h : IsForest g ts (u ++ v) l) :
    ∃ ts₁ ts₂ l₁ l₂, ts = ts₁ ++ ts₂ ∧ l = l₁ ++ l₂ ∧ IsForest g ts₁ u l₁ ∧
      IsForest g ts₂ v l₂ := by
  obtain ⟨ts₁, ts₂, rfl, hu, hv⟩ := List.map_eq_append_iff.1 h.symbols
  refine ⟨ts₁, ts₂, _, _, rfl, h.leaves.symm.trans (Tree.leavesOf_append ts₁ ts₂), ⟨hu, ?_, rfl⟩,
    ⟨hv, ?_, rfl⟩⟩
  · exact fun t ht => h.valid t (List.mem_append_left _ ht)
  · exact fun t ht => h.valid t (List.mem_append_right _ ht)

/-- A forest of a right side is a tree of the left side. -/
theorem IsForest.node {p : Production} (hp : p ∈ g.productions) (h : IsForest g ts p.right l) :
    ∃ n, IsForest g [.node n ts] [.nonterminal p.left] l := by
  obtain ⟨n, hn⟩ := List.mem_iff_getElem?.1 hp
  refine ⟨n, ?_, fun t ht => ?_, ?_⟩
  · rw [List.map_singleton, Tree.symbol_node hn]
  · rw [List.mem_singleton.1 ht]
    exact .node hn h.symbols h.valid
  · simp [Tree.leavesOf, Tree.leaves, h.leaves]

/-- A forest of the whole input's start symbol is one tree. -/
theorem IsForest.exists_tree {X : Symbol} (h : IsForest g ts [X] l) :
    ∃ t, ts = [t] ∧ t.symbol g = X ∧ t.Valid g ∧ t.leaves = l := by
  obtain ⟨t, rest, rfl, ht, hrest⟩ := List.map_eq_cons_iff.1 h.symbols
  obtain rfl : rest = [] := List.map_eq_nil_iff.1 hrest
  refine ⟨t, rfl, ht, h.valid t (List.mem_singleton.2 rfl), ?_⟩
  simpa [Tree.leavesOf] using h.leaves

/-- **A derivation of terminals has a forest.** -/
theorem exists_forest_of_derives (h : Derives g.productions s (l.map (.terminal ·.1)))
    (hl : ∀ e ∈ l, e.1 < g.terminals.size) : ∃ ts, IsForest g ts s l := by
  generalize hw : l.map (Symbol.terminal ·.1) = w at h
  induction h with
  | refl w =>
    refine ⟨l.map fun e => .leaf e.1 e.2, ?_, fun t ht => ?_, ?_⟩
    · rw [← hw, List.map_map]
      rfl
    · obtain ⟨e, he, rfl⟩ := List.mem_map.1 ht
      exact .leaf (hl e he)
    · rw [Tree.leavesOf_eq_flatMap]
      clear hw hl
      induction l with
      | nil => rfl
      | cons e l ih => simp [Tree.leaves, ih]
  | @step p u v w hp _ ih =>
    obtain ⟨ts, hts⟩ := ih hw
    obtain ⟨ts₁, tsv, l₁, lv, rfl, rfl, h₁, hv⟩ := hts.split
    obtain ⟨tsu, tsp, lu, lp, rfl, rfl, hu, hright⟩ := h₁.split
    obtain ⟨n, hnode⟩ := hright.node hp
    refine ⟨tsu ++ [.node n tsp] ++ tsv, ?_⟩
    simpa using (hu.append hnode).append hv

/-- The leaves of a tree of the start symbol are a sentence. -/
theorem Tree.Valid.sentence {t : Tree} (h : t.Valid g) (hs : t.symbol g = .nonterminal g.start) :
    g.Sentence (t.leaves.map (·.1)) := by
  have hd := h.derives
  rw [hs] at hd
  rw [Grammar.Sentence, List.map_map]
  exact hd

/-- Only declared productions vanish. -/
theorem Vanishes.mem_productions {p : Production} (hp : p ∈ g.augmented)
    (h : Vanishes g.augmented p.right) : p ∈ g.productions := by
  rcases List.mem_cons.1 hp with rfl | hp
  · obtain ⟨-, hend⟩ := vanishes_cons_iff.1 h
    exact absurd hend not_vanishes_terminal
  · exact hp

/-- **What vanishes has a forest without leaves.** -/
theorem exists_forest_of_vanishes (h : Vanishes g.augmented s) : ∃ ts, IsForest g ts s [] := by
  induction h with
  | nil => exact ⟨[], .nil⟩
  | @cons p rest hp hright _ ihr ihs =>
    obtain ⟨ts, hts⟩ := ihr
    obtain ⟨ts', hts'⟩ := ihs
    obtain ⟨n, hnode⟩ := hts.node (hright.mem_productions hp)
    exact ⟨[.node n ts] ++ ts', hnode.append hts'⟩

/-! ### The terminal in front -/

/-- The terminal in front of some leaves; the end of the input if there is none. -/
def front : List (Nat × Value) → Nat
  | [] => 0
  | (a, _) :: _ => a

@[simp] theorem front_cons (a : Nat) (v : Value) (rest : List (Nat × Value)) :
    front ((a, v) :: rest) = a := rfl

/-- What comes first where some trees are to come, if it is known of each tree. -/
theorem ahead_leavesOf {rest : List (Nat × Value)} {after : Nat → Prop}
    (hafter : after (front rest))
    (h : ∀ t ∈ ts, ∀ (rest : List (Nat × Value)) (after : Nat → Prop), after (front rest) →
      Ahead g.augmented [t.symbol g] after (front (t.leaves ++ rest))) :
    Ahead g.augmented (ts.map (Tree.symbol g)) after (front (Tree.leavesOf ts ++ rest)) := by
  induction ts with
  | nil => exact .inr ⟨.nil, hafter⟩
  | cons t ts ih =>
    have hrest := ih fun u hu => h u (List.mem_cons_of_mem _ hu)
    rw [Tree.leavesOf, List.append_assoc]
    exact ahead_append_iff (u := [t.symbol g]).2 (h t (List.mem_cons_self ..) _ _ hrest)

/-- **What comes first is what leads to the first leaf.** -/
theorem Tree.Valid.ahead {t : Tree} (h : t.Valid g) :
    ∀ (rest : List (Nat × Value)) (after : Nat → Prop), after (front rest) →
      Ahead g.augmented [t.symbol g] after (front (t.leaves ++ rest)) := by
  induction h with
  | leaf => exact fun rest after _ => .inl .terminal
  | @node n p children hp hsyms _ ih =>
    intro rest after hafter
    have hd : g.productions.getD n default = p := by simp [List.getD, hp]
    have hright := ahead_leavesOf hafter ih
    rw [hsyms] at hright
    have hmem : p ∈ g.augmented := List.mem_cons_of_mem _ (List.mem_of_getElem? hp)
    rw [Tree.symbol, hd, Tree.leaves]
    exact Ahead.fold hmem (by simpa using hright)

/-! ### The parts of a tree -/

/-- One tree is another, or stands somewhere under it. -/
inductive Tree.Part (t : Tree) : Tree → Prop where
  /-- A tree is a part of itself. -/
  | self : Part t t
  /-- What is a part of a child is a part of the tree. -/
  | under {u : Tree} {n : Nat} {children : List Tree} : u ∈ children → Part t u →
      Part t (.node n children)

/-- The parts of a valid tree are valid. -/
theorem Tree.Part.valid {t u : Tree} (h : Part t u) (hu : u.Valid g) : t.Valid g := by
  induction h with
  | self => exact hu
  | under hmem _ ih =>
    cases hu with
    | node _ _ hvalid => exact ih (hvalid _ hmem)

theorem Tree.exists_leaf_of_symbol {t : Tree} {a : Nat} (h : t.symbol g = .terminal a) :
    ∃ v, t = .leaf a v := by
  cases t with
  | leaf b v =>
    cases h
    exact ⟨v, rfl⟩
  | node n children => cases h

/-- A production joins two strings of its left side by a terminal. -/
def Production.Joins (p : Production) (a : Nat) : Prop :=
  p.right = [.nonterminal p.left, .terminal a, .nonterminal p.left]

/-- The children of a valid node. -/
theorem Tree.Valid.children {n : Nat} {children : List Tree} {p : Production}
    (h : Tree.Valid g (.node n children)) (hp : g.productions[n]? = some p) :
    children.map (Tree.symbol g) = p.right ∧ ∀ t ∈ children, t.Valid g := by
  cases h with
  | node hp' hsyms hvalid =>
    obtain rfl := Option.some.inj (hp.symm.trans hp')
    exact ⟨hsyms, hvalid⟩

/-- A node of a production that joins two operands has these and the terminal between them. -/
theorem Tree.Valid.exists_operands {n a : Nat} {children : List Tree} {p : Production}
    (h : Tree.Valid g (.node n children)) (hp : g.productions[n]? = some p) (ha : p.Joins a) :
    ∃ x v y, children = [x, .leaf a v, y] ∧ x.symbol g = .nonterminal p.left ∧
      y.symbol g = .nonterminal p.left := by
  obtain ⟨hsyms, -⟩ := h.children hp
  rw [ha] at hsyms
  obtain ⟨x, rest, rfl, hx, hrest⟩ := List.map_eq_cons_iff.1 hsyms
  obtain ⟨m, rest, rfl, hm, hrest⟩ := List.map_eq_cons_iff.1 hrest
  obtain ⟨y, rest, rfl, hy, hrest⟩ := List.map_eq_cons_iff.1 hrest
  obtain rfl := List.map_eq_nil_iff.1 hrest
  obtain ⟨v, rfl⟩ := Tree.exists_leaf_of_symbol hm
  exact ⟨x, v, y, rfl, hx, hy⟩

end LexParse
