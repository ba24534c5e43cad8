import LexParse.Proofs.Grammar.Sweeps
import LexParse.Proofs.Lr.Merging
import LexParse.Proofs.Lr.Prefixes

/-!
# The states hold the valid items

The valid items after some symbols are said by derivations of the whole input, the states by a
construction that never looks at one. In any automaton of the grammar the symbols before a valid
item lead to a state that has it, with all that can follow it among its lookaheads: that only asks
for transitions and closures to lose nothing.

The other direction is that they add nothing. What a state of the canonical construction starts from
is just what its symbol leads to, so along a path all that comes up is borne out by a derivation; in
a merged state some lookaheads are borne out by other paths only.

## What is proved

* `IsAutomaton.exists_path_of_validAfter`: an automaton has the valid items.
* `Holds.closure`, `Holds.goto`, `holds_of_path`: the canonical construction adds nothing to them.
* `elements_iff_validAfter`: what symbols lead to a state, and what that state holds.
-/

namespace LexParse.Lr

open Context LexParse.Lr.Graph

variable {g : Grammar} {G A : Graph} {K E : ItemSet} {γ after u : List Symbol} {i : Item}
  {X : Symbol} {a n m : Nat}

/-- A terminal can follow the item where it is valid. -/
def ExpectedAfter (g : Grammar) (γ : List Symbol) (i : Item) (a : Nat) : Prop :=
  ∃ after, ValidAfter (ofGrammar g) γ i after ∧ Begins g.augmented after a

/-! ### What an automaton has -/

namespace IsAutomaton

/-- **The symbols before a valid item lead to a state that has it**, with all that can follow it. -/
theorem exists_path_of_validAfter (h : IsAutomaton g G) (hg : g.WellFormed)
    (hi : ValidAfter (ofGrammar g) γ i after) (hend : .endOfInput ∉ γ) :
    ∃ n, Path G 0 γ n ∧ i ∈ (G.elements n).core ∧
      ∀ a, Begins g.augmented after a → a ∈ (G.elements n).lookaheads i := by
  obtain ⟨q, hq, hle⟩ := hi.isItem
  obtain ⟨before, hsit, -, -, rfl⟩ := hi
  rw [production_eq_of_getElem? hq] at hsit hend ⊢
  obtain ⟨n, hn, hpath, hcore, hdemands⟩ := h.exists_path_of_situation hg hsit
  have hder : i.production ∈ (ofGrammar g).derivationsOf q.left :=
    (mem_derivationsOf_iff hg).2 ⟨q, hq, rfl⟩
  have hbehind : (ofGrammar g).behind ⟨i.production, 0⟩ =
      q.right.take i.mark ++ q.right.drop i.mark := by
    rw [behind_start hq, List.take_append_drop]
  obtain ⟨m, -, hpath', hitem, hkeep⟩ := h.exists_path_of_behind hg hn (hcore _ hder) hbehind
    fun hmem => hend (List.mem_append_right _ hmem)
  have hmark : (⟨i.production, 0 + (q.right.take i.mark).length⟩ : Item) = i := by
    rw [Nat.zero_add, List.length_take, Nat.min_eq_left hle]
  rw [hmark] at hitem hkeep
  exact ⟨m, path_append hpath hpath', hitem, fun a ha => hkeep a (hdemands a ha _ hder).2⟩

/-- From a state with an item a path leads to states with an item. -/
theorem exists_item_of_path (h : IsAutomaton g G) (hg : g.WellFormed) (hpath : Path G n u m)
    (hn : n < G.size) (hi : ∃ i, i ∈ (G.elements n).core) : ∃ i, i ∈ (G.elements m).core := by
  induction hpath with
  | nil => exact hi
  | cons ht _ ih =>
    obtain ⟨j, hj, hne, hX, -⟩ := h.exists_leads_of_transition ht
    obtain ⟨k, ht', hadv, -⟩ := h.exists_transition hg hn hj hX hne
    obtain rfl := h.transition_unique ht ht'
    exact ih (h.lt_of_transition hg ht).2 ⟨_, hadv⟩

end IsAutomaton

/-! ### What canonical states have no more than -/

/-- An item set has no items but those that are valid after some symbols, and no lookaheads but
those that can follow them. -/
structure Holds (g : Grammar) (γ : List Symbol) (s : ItemSet) : Prop where
  valid : ∀ i ∈ s.core, ∃ after, ValidAfter (ofGrammar g) γ i after
  expected : ∀ i a, a ∈ s.lookaheads i → ExpectedAfter g γ i a

/-- The demands of what can follow valid items can follow the items that they demand. -/
theorem closed_expectedAfter (hg : g.WellFormed) (γ : List Symbol) :
    Closed g (fun i => ∃ after, ValidAfter (ofGrammar g) γ i after) (ExpectedAfter g γ) := by
  refine ⟨(closed_validAfter hg γ).item, fun {i n p a} hi hX hp ha => ?_⟩
  rw [behind_eq_of_next? hX, List.tail_cons] at ha
  rcases ha with hbegins | ⟨hvanishes, after, hvalid, hbegins⟩
  · obtain ⟨after, hvalid⟩ := hi
    exact ⟨_, hvalid.start hg hX hp, begins_append_iff.2 (.inl hbegins)⟩
  · exact ⟨_, hvalid.start hg hX hp, begins_append_iff.2 (.inr ⟨hvanishes, hbegins⟩)⟩

theorem Holds.closure (h : Holds g γ K) (hg : g.WellFormed) (hK : Proper g K) :
    Holds g γ ((ofGrammar g).closure K) := by
  obtain ⟨hvalid, hexpected⟩ :=
    closure_least hg hK (closed_expectedAfter hg γ) h.valid h.expected
  exact ⟨hvalid, hexpected⟩

theorem Holds.goto (h : Holds g γ E) (hgoto : IsGoto (ofGrammar g) E X K) :
    Holds g (γ ++ [X]) K := by
  refine ⟨fun j hj => ?_, fun j a ha => ?_⟩
  · obtain ⟨i, hi, -, hX, rfl⟩ := (hgoto.core j).1 hj
    obtain ⟨after, hvalid⟩ := h.valid i hi
    exact ⟨after, hvalid.advance hX⟩
  · obtain ⟨i, hi, -, hX, rfl⟩ := (hgoto.lookaheads j a).1 ha
    obtain ⟨after, hvalid, hbegins⟩ := h.expected i a hi
    exact ⟨after, hvalid.advance hX, hbegins⟩

/-- The first state awaits the whole input. -/
theorem holds_first (hA : IsAutomaton g A) (hg : g.WellFormed) : Holds g [] (A.elements 0) := by
  have hkernel : Holds g [] (A.kernel 0) := by
    rw [hA.first]
    refine ⟨fun j hj => ?_, fun j a ha => absurd ha not_mem_lookaheads_first⟩
    obtain rfl : j = ⟨0, 0⟩ := List.mem_singleton.1 hj
    exact ⟨[], [], .whole, by simp [ofGrammar, Grammar.augmented], Nat.zero_le _, rfl⟩
  rw [(hA.expanded 0 hA.pos).elements]
  exact hkernel.closure hg (hA.grounded 0 hA.pos).proper

/-- **Along a path of canonical states only valid items come up.** -/
theorem holds_of_path (hA : Complete g .canonical A) (hg : g.WellFormed) (hpath : Path A n u m)
    (h : Holds g γ (A.elements n)) : Holds g (γ ++ u) (A.elements m) := by
  induction hpath generalizing γ with
  | nil => rwa [List.append_nil]
  | @cons n k m X u ht _ ih =>
    obtain ⟨-, hk⟩ := hA.automaton.lt_of_transition hg ht
    have hnext := (h.goto (hA.isGoto_of_transition hg ht)).closure hg
      (hA.automaton.grounded k hk).proper
    rw [← (hA.automaton.expanded k hk).elements] at hnext
    have hrest := ih hnext
    rwa [List.append_assoc, List.singleton_append] at hrest

/-! ### The canonical graph -/

/-- **The canonical states hold exactly the valid items.** The construction comes to an end,
whatever the limit if that is high enough. Symbols without the end of the input lead from the first
state to another one, and to only one, just if some item is valid after them. That state then has
the items that are valid after the symbols, and the lookaheads of each are the terminals that can
stand in front of what is still to come behind it. -/
theorem elements_iff_validAfter {d : GrammarDecl} {kinds : List TokenKind}
    (hresolve : d.resolve kinds = .ok g) :
    (build (ofGrammar g) .canonical).todo = [] ∧
    (∃ limit, ∀ steps ≥ limit, expandAll (ofGrammar g) .canonical steps (initial .canonical) =
      build (ofGrammar g) .canonical) ∧
    ∀ γ, .endOfInput ∉ γ →
      ((∃ n, Path (build (ofGrammar g) .canonical) 0 γ n) ↔
        ∃ i after, ValidAfter (ofGrammar g) γ i after) ∧
      ∀ n, Path (build (ofGrammar g) .canonical) 0 γ n →
        (∀ m, Path (build (ofGrammar g) .canonical) 0 γ m → m = n) ∧
        ∀ i, (i ∈ ((build (ofGrammar g) .canonical).elements n).core ↔
            ∃ after, ValidAfter (ofGrammar g) γ i after) ∧
          ∀ a, a ∈ ((build (ofGrammar g) .canonical).elements n).lookaheads i ↔
            ∃ after, ValidAfter (ofGrammar g) γ i after ∧
              ∃ rest, Derives g.augmented after (.terminal a :: rest) := by
  have hg := GrammarDecl.wellFormed_of_resolve hresolve
  have hA := complete_build hg .canonical
  have hG := hA.automaton
  have hholds : ∀ {γ n}, Path (build (ofGrammar g) .canonical) 0 γ n →
      Holds g γ ((build (ofGrammar g) .canonical).elements n) := fun hpath =>
    holds_of_path hA hg hpath (holds_first hG hg)
  refine ⟨hA.todo_eq, ⟨_, fun steps => expandAll_eq_build hg .canonical⟩, fun γ hend =>
    ⟨⟨?_, ?_⟩, fun n hpath => ⟨fun m hm => hG.path_unique hm hpath, fun i => ⟨⟨?_, ?_⟩,
      fun a => ⟨?_, ?_⟩⟩⟩⟩⟩
  · rintro ⟨n, hpath⟩
    obtain ⟨i, hi⟩ := hG.exists_item_of_path hg hpath hG.pos ⟨_, hG.mem_elements_first⟩
    exact ⟨i, (hholds hpath).valid i hi⟩
  · rintro ⟨i, after, hvalid⟩
    obtain ⟨n, hpath, -⟩ := hG.exists_path_of_validAfter hg hvalid hend
    exact ⟨n, hpath⟩
  · exact (hholds hpath).valid i
  · rintro ⟨after, hvalid⟩
    obtain ⟨m, hpath', hi, -⟩ := hG.exists_path_of_validAfter hg hvalid hend
    rwa [hG.path_unique hpath hpath']
  · intro ha
    obtain ⟨after, hvalid, hbegins⟩ := (hholds hpath).expected i a ha
    exact ⟨after, hvalid, hbegins.exists_derives⟩
  · rintro ⟨after, hvalid, rest, hderives⟩
    obtain ⟨m, hpath', -, hkeep⟩ := hG.exists_path_of_validAfter hg hvalid hend
    rw [hG.path_unique hpath hpath']
    exact hkeep a (begins_of_derives hderives)

/-- A row of words before a stop, where words are collected to the left, may be missing, and each
has marks that may be missing. -/
def markedWords : GrammarDecl where
  productions := [⟨"row", ["words", "STOP"], .list, none⟩,
    ⟨"words", ["words", "word"], .list, none⟩, ⟨"words", [], .list, none⟩,
    ⟨"word", ["WORD", "marks"], .list, none⟩, ⟨"marks", ["MARK", "marks"], .list, none⟩,
    ⟨"marks", [], .list, none⟩]

/-- After some words and one more the marks of this word may be missing, before a stop or another
word, but not at the end of the input. -/
theorem validAfter_markedWords : ∃ g,
    markedWords.resolve [⟨"STOP", none⟩, ⟨"WORD", none⟩, ⟨"MARK", none⟩] = .ok g ∧
    .endOfInput ∉ [Symbol.nonterminal 2, .terminal 2] ∧
    (∃ n, Path (build (ofGrammar g) .canonical) 0 [.nonterminal 2, .terminal 2] n) ∧
    (∃ after, ValidAfter (ofGrammar g) [.nonterminal 2, .terminal 2] ⟨6, 0⟩ after ∧
      ∃ rest, Derives g.augmented after (.terminal 1 :: rest)) ∧
    (∃ after, ValidAfter (ofGrammar g) [.nonterminal 2, .terminal 2] ⟨6, 0⟩ after ∧
      ∃ rest, Derives g.augmented after (.terminal 2 :: rest)) ∧
    ¬ ∃ after, ValidAfter (ofGrammar g) [.nonterminal 2, .terminal 2] ⟨6, 0⟩ after ∧
      ∃ rest, Derives g.augmented after (.terminal 0 :: rest) := by
  have hrun : ∃ g ∈ (markedWords.resolve
      [⟨"STOP", none⟩, ⟨"WORD", none⟩, ⟨"MARK", none⟩]).toOption,
      (.nonterminal 2, 2) ∈ ((build (ofGrammar g) .canonical).states.getD 0 default).transitions ∧
      (.terminal 2, 5) ∈ ((build (ofGrammar g) .canonical).states.getD 2 default).transitions ∧
      ((build (ofGrammar g) .canonical).elements 5).lookaheads ⟨6, 0⟩ = ⟨6⟩ := by decide +kernel
  obtain ⟨g, hresolved, hfirst, hsecond, hlookaheads⟩ := hrun
  have hresolve := toOption_eq_some_iff.1 hresolved
  have hpath : Path (build (ofGrammar g) .canonical) 0 [.nonterminal 2, .terminal 2] 5 :=
    .cons hfirst (.cons hsecond (.nil 5))
  have hend : .endOfInput ∉ [Symbol.nonterminal 2, .terminal 2] := by decide
  obtain ⟨-, -, hvalid⟩ := elements_iff_validAfter hresolve
  obtain ⟨-, hstate⟩ := (hvalid _ hend).2 5 hpath
  have hexpected := (hstate ⟨6, 0⟩).2
  rw [hlookaheads] at hexpected
  exact ⟨g, hresolve, hend, ⟨5, hpath⟩, (hexpected 1).1 (by decide), (hexpected 2).1 (by decide),
    fun h => absurd ((hexpected 0).2 h) (by decide)⟩

end LexParse.Lr
