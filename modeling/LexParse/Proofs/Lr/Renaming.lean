import LexParse.Proofs.Grammar.Renaming
import LexParse.Proofs.Lr.Canonical
import LexParse.Proofs.Lr.Conflicts
import LexParse.Proofs.Lr.Merging

/-!
# Automata of renamed grammars

The construction follows the order of the items, and the numbers of its states come out differently
for a renamed grammar. But the states themselves are the same, with other numbers in their items.

This is shown state by state, without a correspondence of the state numbers. What an item set
carries along a renaming, its closure and the kernels that it leads to carry along. So each
canonical kernel has its like in the other graph. A merged state has its items from a canonical one,
and its lookaheads from all that have these items.

## What is proved

* `exists_alike`: each state has its like among those of the renamed grammar.
* `tied_iff_of_renaming`, `openlyTied_iff_of_renaming`: so the two tables have the same ties.
-/

namespace LexParse.Lr

open Context

/-- An item with the number of its production replaced. -/
def Item.rename {g g' : Grammar} (ρ : Renaming g g') (i : Item) : Item :=
  { i with production := ρ.production i.production }

section
variable {g g' : Grammar} {ρ : Renaming g g'} {i : Item} {X : Symbol} {n p : Nat}

@[simp] theorem Item.rename_symm_rename : (i.rename ρ).rename ρ.symm = i := by
  simp [Item.rename, Renaming.symm]

@[simp] theorem Item.rename_rename_symm {j : Item} : (j.rename ρ.symm).rename ρ = j := by
  simp [Item.rename, Renaming.symm]

/-! ### Items of a renamed grammar -/

theorem production_rename : (ofGrammar g').production (i.rename ρ) =
    ((ofGrammar g).production i).rename ρ.nonterminal := by
  rw [production_eq, production_eq, Item.rename, ρ.augmented]
  cases g.augmented[i.production]? with
  | some q => rfl
  | none =>
    show (default : Production) = Production.rename ρ.nonterminal default
    simp [Production.rename, default, ρ.nonterminal_zero]

theorem behind_rename : (ofGrammar g').behind (i.rename ρ) =
    ((ofGrammar g).behind i).map (.rename ρ.nonterminal) := by
  rw [behind, production_rename, behind, List.map_drop]
  rfl

theorem next?_rename : (ofGrammar g').next? (i.rename ρ) =
    ((ofGrammar g).next? i).map (.rename ρ.nonterminal) := by
  rw [next?, behind_rename, next?, List.head?_map]

theorem isComplete_rename : (ofGrammar g').isComplete (i.rename ρ) =
    (ofGrammar g).isComplete i := by
  rw [isComplete, behind_rename, isComplete, List.isEmpty_map]

theorem precedence_rename : (ofGrammar g').precedence (ρ.production p) =
    (ofGrammar g).precedence p := by
  have h : ((ofGrammar g').production (Item.rename ρ ⟨p, 0⟩)).precedence =
      ((ofGrammar g).production ⟨p, 0⟩).precedence := by
    rw [production_rename]
    rfl
  exact h

theorem mem_derivationsOf_rename (hg : g.WellFormed) (hg' : g'.WellFormed)
    (h : p ∈ (ofGrammar g).derivationsOf n) :
    ρ.production p ∈ (ofGrammar g').derivationsOf (ρ.nonterminal n) := by
  obtain ⟨q, hq, rfl⟩ := (mem_derivationsOf_iff hg).1 h
  exact (mem_derivationsOf_iff hg').2 ⟨_, by rw [ρ.augmented, hq]; rfl, rfl⟩

theorem Leads.rename {j : Item} (h : Leads (ofGrammar g) i X j) :
    Leads (ofGrammar g') (i.rename ρ) (X.rename ρ.nonterminal) (j.rename ρ) := by
  obtain ⟨hend, hX, rfl⟩ := h
  refine ⟨fun heq => hend (Symbol.rename_eq_terminal_iff.1 heq), ?_, rfl⟩
  rw [next?_rename, hX]
  rfl

end

/-! ### Item sets -/

/-- The second item set has the renamed items of the first one, with all of their lookaheads. -/
structure Carried {g g' : Grammar} (ρ : Renaming g g') (K K' : ItemSet) : Prop where
  core : ∀ i ∈ K.core, i.rename ρ ∈ K'.core
  lookaheads : ∀ i a, a ∈ K.lookaheads i → a ∈ K'.lookaheads (i.rename ρ)

/-- The second item set is the first one with its items renamed. -/
structure Alike {g g' : Grammar} (ρ : Renaming g g') (K K' : ItemSet) : Prop where
  carried : Carried ρ K K'
  back : Carried ρ.symm K' K

section
variable {g g' : Grammar} {ρ : Renaming g g'} {K K' E E' : ItemSet} {X : Symbol} {i : Item}
  {a : Nat}

theorem Alike.symm (h : Alike ρ K K') : Alike ρ.symm K' K := ⟨h.back, h.carried⟩

theorem Alike.mem_core_iff (h : Alike ρ K K') : i.rename ρ ∈ K'.core ↔ i ∈ K.core :=
  ⟨fun hi => by simpa using h.back.core _ hi, h.carried.core i⟩

/-- A closure carries what its kernel carries. -/
theorem Carried.closure (h : Carried ρ K K') (hg : g.WellFormed) (hg' : g'.WellFormed)
    (hK : Proper g K) (hK' : Proper g' K') :
    Carried ρ ((ofGrammar g).closure K) ((ofGrammar g').closure K') := by
  have hclosed' := closed_closure hg' hK'
  have hclosed : Closed g (fun i => i.rename ρ ∈ ((ofGrammar g').closure K').core)
      fun i a => a ∈ ((ofGrammar g').closure K').lookaheads (i.rename ρ) := by
    have hnext : ∀ {i n}, (ofGrammar g).next? i = some (.nonterminal n) →
        (ofGrammar g').next? (i.rename ρ) = some (.nonterminal (ρ.nonterminal n)) := by
      intro i n hn
      rw [next?_rename, hn]
      rfl
    -- the start of a production, renamed
    have hstart : ∀ p, (⟨p, 0⟩ : Item).rename ρ = ⟨ρ.production p, 0⟩ := fun p => rfl
    refine ⟨fun {i n p} hi hn hp => ?_, fun {i n p a} hi hn hp ha => ?_⟩
    · exact hclosed'.item hi (hnext hn) (mem_derivationsOf_rename hg hg' hp)
    · refine hclosed'.lookahead hi (hnext hn) (mem_derivationsOf_rename hg hg' hp) ?_
      rw [behind_rename, ← List.map_tail]
      exact ha.rename (fun q hq => ρ.mem_augmented hq) fun b hb => hb
  obtain ⟨hcore, hlookaheads⟩ := closure_least hg hK hclosed
    (fun i hi => mem_core_closure_of_mem hK' (h.core i hi))
    fun i a ha => mem_lookaheads_closure_of_mem hK' (h.lookaheads i a ha)
  exact ⟨hcore, hlookaheads⟩

theorem Alike.closure (h : Alike ρ K K') (hg : g.WellFormed) (hg' : g'.WellFormed)
    (hK : Proper g K) (hK' : Proper g' K') :
    Alike ρ ((ofGrammar g).closure K) ((ofGrammar g').closure K') :=
  ⟨h.carried.closure hg hg' hK hK', h.back.closure hg' hg hK' hK⟩

/-- What a symbol leads to carries what it leads from. -/
theorem Carried.goto (h : Carried ρ E E') (hK : IsGoto (ofGrammar g) E X K)
    (hK' : IsGoto (ofGrammar g') E' (X.rename ρ.nonterminal) K') : Carried ρ K K' := by
  refine ⟨fun j hj => ?_, fun j a ha => ?_⟩
  · obtain ⟨i, hi, hlead⟩ := (hK.core j).1 hj
    exact (hK'.core _).2 ⟨_, h.core i hi, hlead.rename⟩
  · obtain ⟨i, hi, hlead⟩ := (hK.lookaheads j a).1 ha
    exact (hK'.lookaheads _ a).2 ⟨_, h.lookaheads i a hi, hlead.rename⟩

theorem Alike.goto (h : Alike ρ E E') (hK : IsGoto (ofGrammar g) E X K)
    (hK' : IsGoto (ofGrammar g') E' (X.rename ρ.nonterminal) K') : Alike ρ K K' := by
  refine ⟨h.carried.goto hK hK', h.back.goto hK' ?_⟩
  rwa [show ρ.symm.nonterminal = ρ.nonterminal.symm from rfl,
    Symbol.rename_rename ρ.nonterminal.symm_apply_apply]

/-- Item sets that are like sets of the same items have the same items. -/
theorem Alike.core_eq {L L' : ItemSet} (h : Alike ρ K K') (h' : Alike ρ L L') (hK' : K'.Sorted)
    (hL' : L'.Sorted) (hcore : K.core = L.core) : K'.core = L'.core := by
  refine ItemSet.core_eq_of_sorted hK' hL' fun j => ?_
  rw [← Item.rename_rename_symm (ρ := ρ) (j := j), h.mem_core_iff, h'.mem_core_iff, hcore]

theorem alike_first (ρ : Renaming g g') : Alike ρ [(⟨0, 0⟩, ∅)] [(⟨0, 0⟩, ∅)] := by
  have hfirst : ∀ {g g' : Grammar} (ρ : Renaming g g'),
      Carried ρ [(⟨0, 0⟩, ∅)] [(⟨0, 0⟩, ∅)] := by
    intro g g' ρ
    have hzero : (⟨0, 0⟩ : Item).rename ρ = ⟨0, 0⟩ := by rw [Item.rename, ρ.production_zero]
    refine ⟨fun i hi => ?_, fun i a ha => ?_⟩
    · obtain rfl : i = ⟨0, 0⟩ := List.mem_singleton.1 hi
      rw [hzero]
      exact hi
    · obtain rfl : i = ⟨0, 0⟩ := List.mem_singleton.1 (ItemSet.mem_core_of_mem_lookaheads ha)
      rwa [hzero]
  exact ⟨hfirst ρ, hfirst ρ.symm⟩

end

/-! ### States -/

section
variable {g g' : Grammar} {A A' : Graph} {n : Nat}

/-- A canonical graph has the likes of all kernels that the construction hands on. -/
theorem inheritedBy_alike (ρ : Renaming g g') (hg : g.WellFormed) (hg' : g'.WellFormed)
    (hA' : Graph.Complete g' .canonical A') :
    InheritedBy g .canonical fun K => ∃ n < A'.size, Alike ρ K (A'.kernel n) := by
  have hG' := hA'.automaton
  refine ⟨⟨0, hG'.pos, ?_⟩, fun {K L X} hK => ?_, nofun⟩
  · rw [hG'.first]
    exact alike_first ρ
  · rintro ⟨n, hn, halike⟩ hL
    have helements := halike.closure hg hg' hK.proper (hG'.grounded n hn).proper
    rw [← (hG'.expanded n hn).elements] at helements
    obtain ⟨i, hi, hlead⟩ := exists_leads_of_mem_gotos hL
    obtain ⟨hend, hX, -⟩ := hlead.rename (ρ := ρ)
    obtain ⟨m, ht, -⟩ := hG'.exists_transition hg' hn (helements.carried.core i hi) hX hend
    have hgoto := isGoto_of_mem_gotos (grounded_closure hg hK).proper.sorted hL
    exact ⟨m, (hG'.lt_of_transition hg' ht).2,
      helements.goto hgoto (hA'.isGoto_of_transition hg' ht)⟩

/-- Each canonical state has its like. -/
theorem exists_alike_canonical (ρ : Renaming g g') (hg : g.WellFormed) (hg' : g'.WellFormed)
    (hn : n < (Graph.build (ofGrammar g) .canonical).size) :
    ∃ m < (Graph.build (ofGrammar g') .canonical).size,
      Alike ρ ((Graph.build (ofGrammar g) .canonical).kernel n)
        ((Graph.build (ofGrammar g') .canonical).kernel m) :=
  Graph.kernel_build_of_inheritedBy hg
    (inheritedBy_alike ρ hg hg' (Graph.complete_build hg' .canonical)) hn

/-- A merged state has its lookaheads from the canonical states with its items. -/
theorem mem_lookaheads_merged_iff (hg : g.WellFormed) {i : Item} {a : Nat}
    (hn : n < (Graph.build (ofGrammar g) .merged).size) :
    a ∈ ((Graph.build (ofGrammar g) .merged).elements n).lookaheads i ↔
      ∃ m < (Graph.build (ofGrammar g) .canonical).size,
        ((Graph.build (ofGrammar g) .canonical).kernel m).core =
          ((Graph.build (ofGrammar g) .merged).kernel n).core ∧
        a ∈ ((Graph.build (ofGrammar g) .canonical).elements m).lookaheads i := by
  have hA := Graph.isAutomaton_build hg .canonical
  have hB := Graph.isAutomaton_build hg .merged
  constructor
  · intro ha
    rw [(hB.expanded n hn).elements] at ha
    exact (lent_build hg .merged .canonical hn).closure hA hg (hB.grounded n hn).proper ha
  · rintro ⟨m, hm, hcore, ha⟩
    obtain ⟨k, hk, hcovers⟩ := exists_covers hg hm
    obtain rfl := eq_of_core_eq hg hk hn (hcovers.core.trans hcore)
    rw [(hA.expanded m hm).elements] at ha
    rw [(hB.expanded k hn).elements]
    exact (covers_closure hg (hB.grounded k hn).proper (hA.grounded m hm).proper hcovers).lookaheads
      i a ha

/-- A merged state carries what a canonical state with its items has the like of. -/
theorem carried_merged (ρ : Renaming g g') (hg : g.WellFormed) (hg' : g'.WellFormed) {m k l : Nat}
    (hn : n < (Graph.build (ofGrammar g) .merged).size)
    (hm : m < (Graph.build (ofGrammar g') .merged).size)
    (hk : k < (Graph.build (ofGrammar g) .canonical).size)
    (hl : l < (Graph.build (ofGrammar g') .canonical).size)
    (hcore : ((Graph.build (ofGrammar g) .canonical).kernel k).core =
      ((Graph.build (ofGrammar g) .merged).kernel n).core)
    (hcore' : ((Graph.build (ofGrammar g') .canonical).kernel l).core =
      ((Graph.build (ofGrammar g') .merged).kernel m).core)
    (halike : Alike ρ ((Graph.build (ofGrammar g) .canonical).kernel k)
      ((Graph.build (ofGrammar g') .canonical).kernel l)) :
    Carried ρ ((Graph.build (ofGrammar g) .merged).elements n)
      ((Graph.build (ofGrammar g') .merged).elements m) := by
  have hA := Graph.isAutomaton_build hg .canonical
  have hA' := Graph.isAutomaton_build hg' .canonical
  have hB := Graph.isAutomaton_build hg .merged
  have hB' := Graph.isAutomaton_build hg' .merged
  refine ⟨fun i hi => ?_, fun i a ha => ?_⟩
  · rw [hB.core_elements hg hn (hA.grounded k hk).proper hcore.symm] at hi
    rw [hB'.core_elements hg' hm (hA'.grounded l hl).proper hcore'.symm]
    exact (halike.carried.closure hg hg' (hA.grounded k hk).proper (hA'.grounded l hl).proper).core
      i hi
  · obtain ⟨k', hk', hcorek, ha⟩ := (mem_lookaheads_merged_iff hg hn).1 ha
    obtain ⟨l', hl', halike'⟩ := exists_alike_canonical ρ hg hg' hk'
    have hcorel := halike'.core_eq halike (hA'.grounded l' hl').proper.sorted
      (hA'.grounded l hl).proper.sorted (hcorek.trans hcore.symm)
    refine (mem_lookaheads_merged_iff hg' hm).2 ⟨l', hl', hcorel.trans hcore', ?_⟩
    rw [(hA.expanded k' hk').elements] at ha
    rw [(hA'.expanded l' hl').elements]
    exact (halike'.carried.closure hg hg' (hA.grounded k' hk').proper
      (hA'.grounded l' hl').proper).lookaheads i a ha

/-- **Each state has its like** among those of the renamed grammar, by either construction. -/
theorem exists_alike (ρ : Renaming g g') (hg : g.WellFormed) (hg' : g'.WellFormed) (method : Method)
    (hn : n < (Graph.build (ofGrammar g) method).size) :
    ∃ m < (Graph.build (ofGrammar g') method).size,
      Alike ρ ((Graph.build (ofGrammar g) method).elements n)
        ((Graph.build (ofGrammar g') method).elements m) := by
  have hA := Graph.isAutomaton_build hg .canonical
  have hA' := Graph.isAutomaton_build hg' .canonical
  cases method with
  | canonical =>
    obtain ⟨m, hm, halike⟩ := exists_alike_canonical ρ hg hg' hn
    refine ⟨m, hm, ?_⟩
    rw [(hA.expanded n hn).elements, (hA'.expanded m hm).elements]
    exact halike.closure hg hg' (hA.grounded n hn).proper (hA'.grounded m hm).proper
  | merged =>
    obtain ⟨k, hk, hcore⟩ := (lent_build hg .merged .canonical hn).core
    obtain ⟨l, hl, halike⟩ := exists_alike_canonical ρ hg hg' hk
    obtain ⟨m, hm, hcovers⟩ := exists_covers hg' hl
    exact ⟨m, hm, carried_merged ρ hg hg' hn hm hk hl hcore hcovers.core.symm halike,
      carried_merged ρ.symm hg' hg hm hn hl hk hcovers.core.symm hcore halike.symm⟩

/-! ### Cells -/

variable {G G' : Graph} {m : Nat} {ρ : Renaming g g'}

/-- States that are alike have the same candidates. -/
theorem Alike.cellOf_eq (h : Alike ρ (G.elements n) (G'.elements m)) (t : Nat) :
    cellOf g G n t = (cellOf g' G' m t).relabel ρ.production := by
  ext1
  · have hheld : ∀ {g g' : Grammar} {G G' : Graph} {n m : Nat} {ρ : Renaming g g'},
        Carried ρ (G.elements n) (G'.elements m) →
        (cellOf g G n t).held → (cellOf g' G' m t).held := by
      rintro g g' G G' n m ρ h ⟨i, hi, hX⟩
      refine ⟨_, h.core i hi, ?_⟩
      rw [next?_rename, hX]
      rfl
    exact propext ⟨hheld h.carried, hheld h.back⟩
  · show (g.terminals.getD t default).precedence = (g'.terminals.getD t default).precedence
    rw [ρ.terminals]
  · have hreduces : ∀ {g g' : Grammar} {G G' : Graph} {n m : Nat} {ρ : Renaming g g'} {p},
        Carried ρ (G.elements n) (G'.elements m) →
        (cellOf g G n t).reduces p → (cellOf g' G' m t).reduces (ρ.production p) := by
      rintro g g' G G' n m ρ p h ⟨i, hi, hc, ht, rfl⟩
      exact ⟨_, h.core i hi, isComplete_rename.trans hc, h.lookaheads i t ht, rfl⟩
    funext p
    refine propext ⟨hreduces h.carried, fun hp => ?_⟩
    have hback := hreduces h.back hp
    rwa [show ρ.symm.production (ρ.production p) = p from ρ.production.symm_apply_apply p] at hback
  · funext p
    exact precedence_rename.symm

/-- A property of cells that has nothing to do with numbers is had by a cell of one table if by a
cell of the other. -/
theorem exists_cell_of_renaming {P : Cell → Prop}
    (hP : ∀ (c : Cell) (π : Equiv.Perm Nat), P (c.relabel π) → P c) (ρ : Renaming g g')
    (hg : g.WellFormed) (hg' : g'.WellFormed) (method : Method)
    (h : ∃ n < (Graph.build (ofGrammar g) method).size,
      ∃ t, P (cellOf g (Graph.build (ofGrammar g) method) n t)) :
    ∃ n < (Graph.build (ofGrammar g') method).size,
      ∃ t, P (cellOf g' (Graph.build (ofGrammar g') method) n t) := by
  obtain ⟨n, hn, t, ht⟩ := h
  obtain ⟨m, hm, halike⟩ := exists_alike ρ hg hg' method hn
  rw [halike.cellOf_eq] at ht
  exact ⟨m, hm, t, hP _ _ ht⟩

/-- **Tables of renamed grammars have the same ties.** -/
theorem tied_iff_of_renaming (ρ : Renaming g g') (hg : g.WellFormed) (hg' : g'.WellFormed)
    (method : Method) : Tied g (Graph.build (ofGrammar g) method) ↔
      Tied g' (Graph.build (ofGrammar g') method) := by
  have hP : ∀ (c : Cell) (π : Equiv.Perm Nat), (c.relabel π).Tied → c.Tied := fun c π =>
    (Cell.tied_relabel_iff π).1
  exact ⟨exists_cell_of_renaming hP ρ hg hg' method,
    exists_cell_of_renaming hP ρ.symm hg' hg method⟩

/-- **Tables of renamed grammars have the same open ties.** -/
theorem openlyTied_iff_of_renaming (ρ : Renaming g g') (hg : g.WellFormed) (hg' : g'.WellFormed)
    (method : Method) : OpenlyTied g (Graph.build (ofGrammar g) method) ↔
      OpenlyTied g' (Graph.build (ofGrammar g') method) := by
  have hP : ∀ (c : Cell) (π : Equiv.Perm Nat), (c.relabel π).OpenlyTied → c.OpenlyTied :=
    fun c π => (Cell.openlyTied_relabel_iff π).1
  exact ⟨exists_cell_of_renaming hP ρ hg hg' method,
    exists_cell_of_renaming hP ρ.symm hg' hg method⟩

end

end LexParse.Lr
