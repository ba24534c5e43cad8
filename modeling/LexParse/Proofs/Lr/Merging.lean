import LexParse.Proofs.Lr.Automaton
import LexParse.Proofs.Lr.Inheritance
import LexParse.Proofs.Generation
import Mathlib.Data.Set.Function

/-!
# Merging states

The merged construction is to give what one gets from the canonical graph by putting states with
equal items together. It does not work that way: it never makes the canonical graph, lookaheads
arrive at a state in any order, also while the state itself is being expanded, and a state that has
gained some is expanded again.

Each graph is compared with the kernels that come up in the construction of the other. A canonical
kernel is covered by a merged state, as transitions of an automaton lose nothing. And where a merged
kernel has a lookahead, there is a canonical state with the same items that has it too. Both are
handed on from kernel to kernel.

## What is proved

* `IsAutomaton.exists_transition_of_goto`: an automaton follows every kernel with the items of one
  of its states.
* `exists_covers`, `exists_mem_lookaheads`: the two comparisons.
* `isMergeOf_build`: the merged graph is the canonical one with equal cores put together.
-/

namespace LexParse.Lr

open Context LexParse.Lr.Graph

variable {g : Grammar} {G G' A B : Graph} {K K' L L' E E' : ItemSet} {X : Symbol} {n m : Nat}

/-! ### What depends on the items only -/

theorem mem_core_closure_of_core_eq (hg : g.WellFormed) (hK : Proper g K) (hL : Proper g L)
    (h : K.core = L.core) {i : Item} (hi : i ∈ ((ofGrammar g).closure K).core) :
    i ∈ ((ofGrammar g).closure L).core := by
  have hclosed : Closed g (· ∈ ((ofGrammar g).closure L).core) fun _ _ => True :=
    ⟨(closed_closure hg hL).item, fun _ _ _ _ => trivial⟩
  exact (closure_least hg hK hclosed (fun j hj => mem_core_closure_of_mem hL (h ▸ hj))
    fun _ _ _ => trivial).1 i hi

/-- The items of a closure depend on the items of the kernel only. -/
theorem core_closure_eq (hg : g.WellFormed) (hK : Proper g K) (hL : Proper g L)
    (h : K.core = L.core) : ((ofGrammar g).closure K).core = ((ofGrammar g).closure L).core :=
  ItemSet.core_eq_of_sorted (proper_closure hg hK).sorted (proper_closure hg hL).sorted fun _ =>
    ⟨mem_core_closure_of_core_eq hg hK hL h, mem_core_closure_of_core_eq hg hL hK h.symm⟩

/-- The items that a symbol leads to depend on the items it leads from only. -/
theorem IsGoto.core_eq {c : Context} (h : IsGoto c E X L) (h' : IsGoto c E' X L')
    (hcore : E.core = E'.core) : L.core = L'.core :=
  ItemSet.core_eq_of_sorted h.sorted h'.sorted fun j => by rw [h.core, h'.core, hcore]

/-- The closure of a kernel that covers another one covers its closure. -/
theorem covers_closure (hg : g.WellFormed) (hK : Proper g K) (hL : Proper g L) (h : Covers K L) :
    Covers ((ofGrammar g).closure K) ((ofGrammar g).closure L) := by
  have hclosed := closed_closure hg hK
  exact ⟨core_closure_eq hg hK hL h.core,
    (closure_least hg hL hclosed (fun i hi => mem_core_closure_of_mem hK (h.core ▸ hi))
      fun i a ha => mem_lookaheads_closure_of_mem hK (h.lookaheads i a ha)).2⟩

namespace IsAutomaton

theorem core_elements (h : IsAutomaton g G) (hg : g.WellFormed) (hn : n < G.size)
    (hK : Proper g K) (hcore : (G.kernel n).core = K.core) :
    (G.elements n).core = ((ofGrammar g).closure K).core := by
  rw [(h.expanded n hn).elements]
  exact core_closure_eq hg (h.grounded n hn).proper hK hcore

/-- **An automaton follows the kernels** that have the items of its states: the transition over a
symbol leads to the items that the symbol leads to, and loses no lookahead of the state. -/
theorem exists_transition_of_goto (h : IsAutomaton g G) (hg : g.WellFormed) (hn : n < G.size)
    (hK : Grounded g K) (hcore : (G.kernel n).core = K.core)
    (hL : (X, L) ∈ (ofGrammar g).gotos ((ofGrammar g).closure K)) :
    ∃ m, (X, m) ∈ G.transitions n ∧ m < G.size ∧ (G.kernel m).core = L.core ∧
      ∀ i j a, Leads (ofGrammar g) i X j → a ∈ (G.elements n).lookaheads i →
        a ∈ (G.kernel m).lookaheads j := by
  have hcore := h.core_elements hg hn hK.proper hcore
  obtain ⟨i, hi, hlead⟩ := exists_leads_of_mem_gotos hL
  obtain ⟨m, ht, -⟩ := h.exists_transition hg hn (hcore ▸ hi) hlead.2.1 hlead.1
  obtain ⟨L', hgoto', htarget⟩ := h.isGoto_of_transition hg ht
  have hgoto := isGoto_of_mem_gotos (grounded_closure hg hK).proper.sorted hL
  refine ⟨m, ht, htarget.lt, htarget.covers.core.trans (hgoto'.core_eq hgoto hcore), ?_⟩
  exact fun i j a hlead ha =>
    htarget.covers.lookaheads j a ((hgoto'.lookaheads j a).2 ⟨i, ha, hlead⟩)

/-- A state that covers a kernel leads on to states that cover what follows from it. -/
theorem exists_covers_of_goto (h : IsAutomaton g G) (hg : g.WellFormed) (hn : n < G.size)
    (hK : Grounded g K) (hcovers : Covers (G.kernel n) K)
    (hL : (X, L) ∈ (ofGrammar g).gotos ((ofGrammar g).closure K)) :
    ∃ m, (X, m) ∈ G.transitions n ∧ m < G.size ∧ Covers (G.kernel m) L := by
  obtain ⟨m, ht, hm, hcore, hkeep⟩ := h.exists_transition_of_goto hg hn hK hcovers.core hL
  have hcovers' := covers_closure hg (h.grounded n hn).proper hK.proper hcovers
  rw [← (h.expanded n hn).elements] at hcovers'
  have hgoto := isGoto_of_mem_gotos (grounded_closure hg hK).proper.sorted hL
  refine ⟨m, ht, hm, hcore, fun j a ha => ?_⟩
  obtain ⟨i, ha, hlead⟩ := (hgoto.lookaheads j a).1 ha
  exact hkeep i j a hlead (hcovers'.lookaheads i a ha)

/-- States with the same items have transitions over the same symbols, to states with the same
items. -/
theorem exists_transition_of_core_eq (h : IsAutomaton g G) (h' : IsAutomaton g G')
    (hg : g.WellFormed) (hm : m < G'.size) (hcore : (G'.kernel m).core = (G.kernel n).core)
    {k : Nat} (ht : (X, k) ∈ G.transitions n) :
    ∃ k', (X, k') ∈ G'.transitions m ∧ (G'.kernel k').core = (G.kernel k).core := by
  have hn := lt_size_of_mem_transitions ht
  obtain ⟨⟨Y, L⟩, hL, hY, htarget⟩ := exists_mem_of_forall₂ (h.expanded n hn).transitions ht
  obtain rfl : X = Y := hY
  rw [(h.expanded n hn).elements] at hL
  obtain ⟨k', ht', -, hcore', -⟩ :=
    h'.exists_transition_of_goto hg hm (h.grounded n hn) hcore hL
  exact ⟨k', ht', hcore'.trans htarget.covers.core.symm⟩

end IsAutomaton

/-! ### Each graph against the kernels of the other -/

/-- A state of the graph covers the kernel. -/
def Covered (G : Graph) (K : ItemSet) : Prop := ∃ n < G.size, Covers (G.kernel n) K

/-- Where a merged automaton covers a kernel, it covers all that follow from it. -/
theorem inherited_covered (hB : Complete g .merged B) (hg : g.WellFormed) :
    Inherited g (Covered B) := by
  refine ⟨⟨0, hB.automaton.pos, hB.automaton.first ▸ .refl _⟩, fun {K L X} hK => ?_,
    fun {K L} hK hL hcore => ?_⟩
  · rintro ⟨n, hn, hcovers⟩ hgoto
    obtain ⟨m, -, hm, hcovers⟩ := hB.automaton.exists_covers_of_goto hg hn hK hcovers hgoto
    exact ⟨m, hm, hcovers⟩
  · rintro ⟨n, hn, hcovers⟩ ⟨m, hm, hcovers'⟩
    -- the states have the same items, so they are one
    have hsame : sameState .merged (B.kernel n) (B.kernel m) = true :=
      sameState_iff.2 ⟨hcovers.core.trans (hcore.trans hcovers'.core.symm), nofun⟩
    obtain rfl := hB.apart n hn m hm hsame
    refine ⟨n, hn, ?_, fun i a ha => ?_⟩
    · exact hcovers.core.trans (covers_merge hK.proper.sorted hL.proper.sorted hcore).1.core.symm
    · rcases (hK.proper.sorted.mem_lookaheads_merge hL.proper.sorted).1 ha with ha | ha
      · exact hcovers.lookaheads i a ha
      · exact hcovers'.lookaheads i a ha

/-- A state of the graph with the items of the kernel has the lookahead. -/
def Lends (G : Graph) (K : ItemSet) (i : Item) (a : Nat) : Prop :=
  ∃ n < G.size, (G.kernel n).core = K.core ∧ a ∈ (G.kernel n).lookaheads i

/-- The items of the kernel are those of a state of the graph, and each lookahead is one of such a
state. -/
structure Lent (G : Graph) (K : ItemSet) : Prop where
  core : ∃ n < G.size, (G.kernel n).core = K.core
  lookaheads : ∀ i a, a ∈ K.lookaheads i → Lends G K i a

/-- What the closure of a kernel has of a lookahead, the elements of a state have that lends it. -/
theorem Lent.closure (h : Lent G K) (hG : IsAutomaton g G) (hg : g.WellFormed) (hK : Proper g K)
    {i : Item} {a : Nat} (ha : a ∈ ((ofGrammar g).closure K).lookaheads i) :
    ∃ n < G.size, (G.kernel n).core = K.core ∧ a ∈ (G.elements n).lookaheads i := by
  obtain ⟨n₀, hn₀, hcore₀⟩ := h.core
  let F (i : Item) (a : Nat) : Prop :=
    ∃ n < G.size, (G.kernel n).core = K.core ∧ a ∈ (G.elements n).lookaheads i
  have hmem : ∀ {n i}, n < G.size → (G.kernel n).core = K.core →
      i ∈ ((ofGrammar g).closure K).core → i ∈ (G.elements n).core := fun hn hcore hi => by
    rwa [hG.core_elements hg hn hK hcore]
  have hclosed : Closed g (· ∈ ((ofGrammar g).closure K).core) F := by
    refine ⟨(closed_closure hg hK).item, fun {i k p a} hi hX hp ha => ?_⟩
    rcases ha with hb | ⟨hvan, n, hn, hcore, ha⟩
    · exact ⟨n₀, hn₀, hcore₀, (hG.closed hg hn₀).lookahead (hmem hn₀ hcore₀ hi) hX hp (.inl hb)⟩
    · exact ⟨n, hn, hcore, (hG.closed hg hn).lookahead (hmem hn hcore hi) hX hp (.inr ⟨hvan, ha⟩)⟩
  refine (closure_least hg hK hclosed (fun i hi => mem_core_closure_of_mem hK hi) ?_).2 i a ha
  intro i a ha
  obtain ⟨n, hn, hcore, ha⟩ := h.lookaheads i a ha
  exact ⟨n, hn, hcore, hG.mem_lookaheads_of_mem_kernel hn ha⟩

/-- What an automaton lends to kernels is handed on. -/
theorem inherited_lent (hA : IsAutomaton g A) (hg : g.WellFormed) : Inherited g (Lent A) := by
  refine ⟨⟨⟨0, hA.pos, by rw [hA.first]⟩, fun i a ha => ⟨0, hA.pos, by rw [hA.first], ?_⟩⟩,
    fun {K L X} hK hlent hgoto => ?_, fun {K L} hK hL hcore hlent hlent' => ?_⟩
  · rwa [hA.first]
  · have hgoto' := isGoto_of_mem_gotos (grounded_closure hg hK).proper.sorted hgoto
    refine ⟨?_, fun j a ha => ?_⟩
    · obtain ⟨n, hn, hcore⟩ := hlent.core
      obtain ⟨m, -, hm, hcore', -⟩ := hA.exists_transition_of_goto hg hn hK hcore hgoto
      exact ⟨m, hm, hcore'⟩
    · obtain ⟨i, ha, hlead⟩ := (hgoto'.lookaheads j a).1 ha
      obtain ⟨n, hn, hcore, ha⟩ := hlent.closure hA hg hK.proper ha
      obtain ⟨m, -, hm, hcore', hkeep⟩ := hA.exists_transition_of_goto hg hn hK hcore hgoto
      exact ⟨m, hm, hcore', hkeep i j a hlead ha⟩
  · have hmerge := (covers_merge hK.proper.sorted hL.proper.sorted hcore).1.core
    refine ⟨?_, fun i a ha => ?_⟩
    · obtain ⟨n, hn, hcore'⟩ := hlent.core
      exact ⟨n, hn, hcore'.trans hmerge.symm⟩
    · rcases (hK.proper.sorted.mem_lookaheads_merge hL.proper.sorted).1 ha with ha | ha
      · obtain ⟨n, hn, hcore', ha⟩ := hlent.lookaheads i a ha
        exact ⟨n, hn, hcore'.trans hmerge.symm, ha⟩
      · obtain ⟨n, hn, hcore', ha⟩ := hlent'.lookaheads i a ha
        exact ⟨n, hn, hcore'.trans (hcore.symm.trans hmerge.symm), ha⟩

/-- Each state, however states are told apart, is covered by a merged one. -/
theorem exists_covers (hg : g.WellFormed) {method : Method}
    (hn : n < (build (ofGrammar g) method).size) :
    ∃ m < (build (ofGrammar g) .merged).size, Covers ((build (ofGrammar g) .merged).kernel m)
      ((build (ofGrammar g) method).kernel n) :=
  kernel_build hg (inherited_covered (complete_build hg .merged) hg) method hn

/-- Each state has its items and its lookaheads from states of either construction. -/
theorem lent_build (hg : g.WellFormed) (method method' : Method)
    (hn : n < (build (ofGrammar g) method).size) :
    Lent (build (ofGrammar g) method') ((build (ofGrammar g) method).kernel n) :=
  kernel_build hg (inherited_lent (isAutomaton_build hg method') hg) method hn

/-! ### Cores put together -/

/-- Expanding goes on from where a smaller limit has stopped it. -/
theorem Graph.expandAll_add (c : Context) (method : Method) (steps more : Nat) (G : Graph) :
    expandAll c method (steps + more) G =
      expandAll c method more (expandAll c method steps G) := by
  induction steps generalizing G with
  | zero => rw [Nat.zero_add, expandAll]
  | succ steps ih =>
    rw [Nat.succ_add]
    simp only [expandAll]
    split
    · rename_i htodo
      cases more with
      | zero => rw [expandAll]
      | succ more => simp only [expandAll, htodo]
    · exact ih _

/-- A higher limit changes nothing about the states, as none is left to be expanded. -/
theorem Graph.expandAll_eq_build (hg : g.WellFormed) (method : Method) {steps : Nat}
    (h : 2 ^ ((ofGrammar g).itemCount * ((ofGrammar g).terminalCount + 1)) ≤ steps) :
    expandAll (ofGrammar g) method steps (initial method) = build (ofGrammar g) method := by
  obtain ⟨more, rfl⟩ := Nat.exists_eq_add_of_le h
  rw [expandAll_add]
  show expandAll _ _ more (build (ofGrammar g) method) = _
  cases more with
  | zero => rfl
  | succ more => simp only [expandAll, (complete_build hg method).todo_eq]

/-- One graph is another one with the states of equal cores put together: every core of the one is
that of a single state of the other, the lookaheads of that state are those that the states of the
core have together, its elements are the closure of its kernel as it has become in the end, and its
transitions are those of the states of the core. -/
structure IsMergeOf (c : Context) (B A : Graph) : Prop where
  cores : Set.BijOn (fun m => (B.kernel m).core) {m | m < B.size}
    {core | ∃ n < A.size, (A.kernel n).core = core}
  lookaheads : ∀ m < B.size, ∀ i a, a ∈ (B.kernel m).lookaheads i ↔
    ∃ n < A.size, (A.kernel n).core = (B.kernel m).core ∧ a ∈ (A.kernel n).lookaheads i
  elements : ∀ m < B.size, B.elements m = c.closure (B.kernel m)
  transitions : ∀ n < A.size, ∀ m < B.size, (A.kernel n).core = (B.kernel m).core → ∀ X core,
    (∃ k, (X, k) ∈ A.transitions n ∧ (A.kernel k).core = core) ↔
      ∃ k, (X, k) ∈ B.transitions m ∧ (B.kernel k).core = core

/-- Merged states with the same items are one. -/
theorem eq_of_core_eq (hg : g.WellFormed) (hn : n < (build (ofGrammar g) .merged).size)
    (hm : m < (build (ofGrammar g) .merged).size)
    (h : ((build (ofGrammar g) .merged).kernel n).core =
      ((build (ofGrammar g) .merged).kernel m).core) : n = m :=
  (complete_build hg .merged).apart n hn m hm (sameState_iff.2 ⟨h, nofun⟩)

/-- **The merged construction puts the cores of the canonical one together.** It comes to an end,
whatever the limit if that is high enough, and leaves the canonical graph with the states of equal
cores put together. -/
theorem isMergeOf_build {d : GrammarDecl} {kinds : List TokenKind}
    (hresolve : d.resolve kinds = .ok g) :
    (build (ofGrammar g) .merged).todo = [] ∧
      (∃ limit, ∀ steps ≥ limit, expandAll (ofGrammar g) .merged steps (initial .merged) =
        build (ofGrammar g) .merged) ∧
      IsMergeOf (ofGrammar g) (build (ofGrammar g) .merged) (build (ofGrammar g) .canonical) := by
  have hg := GrammarDecl.wellFormed_of_resolve hresolve
  have hB := complete_build hg .merged
  have hA := isAutomaton_build hg .canonical
  refine ⟨hB.todo_eq, ⟨_, fun steps => expandAll_eq_build hg .merged⟩,
    ⟨⟨?_, ?_, ?_⟩, fun m hm i a => ⟨?_, ?_⟩, ?_, ?_⟩⟩
  · exact fun m hm => (lent_build hg .merged .canonical hm).core
  · exact fun m hm m' hm' heq => eq_of_core_eq hg hm hm' heq
  · rintro core ⟨n, hn, rfl⟩
    obtain ⟨m, hm, hcovers⟩ := exists_covers hg hn
    exact ⟨m, hm, hcovers.core⟩
  · exact (lent_build hg .merged .canonical hm).lookaheads i a
  · rintro ⟨n, hn, hcore, ha⟩
    obtain ⟨m', hm', hcovers⟩ := exists_covers hg hn
    obtain rfl := eq_of_core_eq hg hm' hm (hcovers.core.trans hcore)
    exact hcovers.lookaheads i a ha
  · exact fun m hm => (hB.expanded m hm).elements
  · intro n hn m hm hcore X core
    constructor
    · rintro ⟨k, ht, rfl⟩
      exact hA.exists_transition_of_core_eq hB.automaton hg hm hcore.symm ht
    · rintro ⟨k, ht, rfl⟩
      exact hB.automaton.exists_transition_of_core_eq hA hg hn hcore ht

/-- Two items, each a row of one terminal before another one. What may follow the first item is not
what may follow the second, so the canonical construction tells apart where they are read. -/
def twoRows : GrammarDecl where
  productions := [⟨"pair", ["item", "item"], .list, none⟩, ⟨"item", ["C", "item"], .list, none⟩,
    ⟨"item", ["D"], .first, none⟩]

theorem isMergeOf_twoRows : ∃ g, twoRows.resolve [⟨"C", none⟩, ⟨"D", none⟩] = .ok g ∧
    (build (ofGrammar g) .canonical).size = 10 ∧ (build (ofGrammar g) .merged).size = 7 ∧
    (build (ofGrammar g) .merged).todo = [] ∧
    (∃ limit, ∀ steps ≥ limit, expandAll (ofGrammar g) .merged steps (initial .merged) =
      build (ofGrammar g) .merged) ∧
    IsMergeOf (ofGrammar g) (build (ofGrammar g) .merged) (build (ofGrammar g) .canonical) := by
  have hrun : ∃ g ∈ (twoRows.resolve [⟨"C", none⟩, ⟨"D", none⟩]).toOption,
      (build (ofGrammar g) .canonical).size = 10 ∧ (build (ofGrammar g) .merged).size = 7 := by
    decide +kernel
  obtain ⟨g, hg, hcanonical, hmerged⟩ := hrun
  have hresolve := toOption_eq_some_iff.1 hg
  exact ⟨g, hresolve, hcanonical, hmerged, isMergeOf_build hresolve⟩

end LexParse.Lr
