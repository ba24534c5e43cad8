import LexParse.Proofs.Grammar.Sweeps
import LexParse.Proofs.Grammar.Viable
import LexParse.Proofs.Lr.Halting
import Mathlib.Algebra.Order.BigOperators.Group.List
import Mathlib.Algebra.Order.Ring.Nat

/-!
# Cycles and hidden left recursion

Two kinds of grammars let reductions repeat on one terminal. In a *cyclic* one a nonterminal derives
itself, so a symbol on top of the stack can be replaced for ever. In one with *hidden left
recursion* a nonterminal derives itself behind symbols that vanish, so nothing can be reduced to
such symbols for ever.

Here both are excluded and the consequences drawn for stacks. Where no nonterminal derives itself
alone, each replacement of a symbol by another is a step down. Where none does so behind vanishing
symbols, there are only so many of these on top of a stack: an item of the state on top begins
within them or below, and where it begins an item is in progress that needs it behind some of them.
From item to item the nonterminals descend in an order without circles.

## What is proved

* `not_transGen_unitStep`, `not_transGen_hiddenStep`: neither kind of step leads round in a circle.
* `exists_height`: a bound on the number of vanishing symbols on top of a stack.
* `not_cyclic_of_ne_singleton`, `not_hiddenLeft_of_ne_nil`: grammars that are plainly of neither
  kind.
-/

namespace LexParse

/-- Some input may need the nonterminal. -/
def Grammar.Needs (g : Grammar) (n : Nat) : Prop :=
  ∃ before after, Lr.Situation g.augmented before n after

/-- A nonterminal that may be needed derives itself. -/
def Grammar.Cyclic (g : Grammar) : Prop :=
  ∃ p ∈ g.augmented, g.Needs p.left ∧ Derives g.augmented p.right [.nonterminal p.left]

/-- A nonterminal that may be needed derives itself behind symbols that derive nothing. -/
def Grammar.HiddenLeft (g : Grammar) : Prop :=
  ∃ p ∈ g.augmented, g.Needs p.left ∧ ∃ u v, u ≠ [] ∧ Derives g.augmented u [] ∧
    Derives g.augmented p.right (u ++ .nonterminal p.left :: v)

/-! ### Grammars of neither kind -/

section
variable {productions : List Production} {s w : List Symbol}

/-- Where no right side is empty strings do not get shorter. -/
theorem Derives.length_le (h : Derives productions s w)
    (hne : ∀ p ∈ productions, p.right ≠ []) : s.length ≤ w.length := by
  induction h with
  | refl => exact Nat.le_refl _
  | @step p u v w hp _ ih =>
    have := List.length_pos_of_ne_nil (hne p hp)
    simp only [List.length_append, List.length_cons] at ih ⊢
    omega

variable {g : Grammar}

theorem ne_nil_of_mem_augmented (hne : ∀ p ∈ g.productions, p.right ≠ []) :
    ∀ p ∈ g.augmented, p.right ≠ [] := by
  intro p hp
  rcases List.mem_cons.1 hp with rfl | hp
  · exact List.cons_ne_nil _ _
  · exact hne p hp

/-- Where no right side is empty there is no hidden left recursion. -/
theorem not_hiddenLeft_of_ne_nil (hne : ∀ p ∈ g.productions, p.right ≠ []) : ¬ g.HiddenLeft := by
  rintro ⟨-, -, -, u, -, hu, hnil, -⟩
  have hlen := hnil.length_le (ne_nil_of_mem_augmented hne)
  exact hu (List.eq_nil_of_length_eq_zero (Nat.le_zero.1 hlen))

/-- Where no right side is empty, or a nonterminal alone, there is no cycle. -/
theorem not_cyclic_of_ne_singleton (hg : g.WellFormed) (hne : ∀ p ∈ g.productions, p.right ≠ [])
    (hone : ∀ p ∈ g.productions, ∀ n < g.nonterminals.size, p.right ≠ [.nonterminal n]) :
    ¬ g.Cyclic := by
  rintro ⟨p, hp, -, h⟩
  have hlen := h.length_le (ne_nil_of_mem_augmented hne)
  -- the right side is one symbol, and that is no nonterminal
  obtain ⟨X, hX⟩ := List.length_eq_one_iff.1
    (Nat.le_antisymm hlen (List.length_pos_of_ne_nil (ne_nil_of_mem_augmented hne p hp)))
  rcases List.mem_cons.1 hp with rfl | hp
  · cases hX
  · cases X with
    | terminal a =>
      rw [hX] at h
      cases h.eq_of_terminals (x := [a])
    | nonterminal n =>
      have hn : n < g.nonterminals.size :=
        (hg.within p hp).right (.nonterminal n) (hX ▸ List.mem_singleton.2 rfl)
      exact hone p hp n hn hX

end

end LexParse

namespace LexParse.Lr

open Context Relation

variable {g : Grammar} {G : Graph}

/-- What does not lead round in a circle is well-founded on finitely many numbers. -/
theorem wellFounded_of_not_transGen {r : Nat → Nat → Prop} (h : ∀ n, ¬ TransGen r n n)
    (size : Nat) : WellFounded fun x y : Fin size => TransGen r x y := by
  have htrans : IsTrans (Fin size) fun x y => TransGen r x y := ⟨fun _ _ _ h h' => h.trans h'⟩
  have hirrefl : Std.Irrefl fun x y : Fin size => TransGen r x y := ⟨fun x => h x⟩
  exact Finite.wellFounded_of_trans_of_irrefl _

/-! ### Steps between nonterminals -/

/-- One nonterminal derives another from which it is needed, but for symbols that vanish. -/
def NeededUnitStep (g : Grammar) (m n : Nat) : Prop := UnitStep g m n ∧ g.Needs n

/-- A right side begins with a nonterminal. -/
def Corner (g : Grammar) (m n : Nat) : Prop :=
  ∃ q ∈ g.augmented, q.left = m ∧ ∃ v, q.right = .nonterminal n :: v

/-- A right side has symbols that vanish before a nonterminal from which corners lead to another
one. -/
def HiddenStep (g : Grammar) (m n : Nat) : Prop :=
  g.Needs m ∧ ∃ q ∈ g.augmented, q.left = m ∧ ∃ u k v, q.right = u ++ .nonterminal k :: v ∧
    u ≠ [] ∧ Vanishes g.augmented u ∧ ReflTransGen (Corner g) k n

/-- Unit steps are derivations, against their direction. -/
theorem derives_of_unitSteps {m n : Nat} (h : TransGen (NeededUnitStep g) m n) :
    ∃ q ∈ g.augmented, q.left = n ∧ g.Needs n ∧
      Derives g.augmented q.right [.nonterminal m] := by
  have hstep : ∀ {m n}, NeededUnitStep g m n → ∃ q ∈ g.augmented, q.left = n ∧ g.Needs n ∧
      Derives g.augmented q.right [.nonterminal m] := by
    rintro m n ⟨⟨q, hq, rest, hleft, hright, hvan⟩, hneeds⟩
    refine ⟨q, hq, hleft, hneeds, ?_⟩
    rw [hright]
    exact (Derives.refl [.nonterminal m]).append hvan.derives
  induction h with
  | single h => exact hstep h
  | @tail k n _ h ih =>
    obtain ⟨q, hq, rfl, -, hder⟩ := ih
    obtain ⟨q', hq', hleft, hneeds, hder'⟩ := hstep h
    refine ⟨q', hq', hleft, hneeds, hder'.trans (.step (u := []) (v := []) hq ?_)⟩
    simpa using hder

/-- **Without cycles unit steps do not lead round.** -/
theorem not_transGen_unitStep (h : ¬ g.Cyclic) (n : Nat) : ¬ TransGen (NeededUnitStep g) n n := by
  intro hcycle
  obtain ⟨q, hq, rfl, hneeds, hder⟩ := derives_of_unitSteps hcycle
  exact h ⟨q, hq, hneeds, hder⟩

theorem derives_of_corners {m n : Nat} (h : ReflTransGen (Corner g) m n) :
    ∃ v, Derives g.augmented [.nonterminal m] (.nonterminal n :: v) := by
  induction h with
  | refl => exact ⟨[], .refl _⟩
  | tail _ h ih =>
    obtain ⟨v, hv⟩ := ih
    obtain ⟨q, hq, rfl, v', hright⟩ := h
    refine ⟨v' ++ v, hv.trans (.step (u := []) hq ?_)⟩
    rw [hright]
    exact .refl _

/-- Hidden steps are derivations behind symbols that vanish. -/
theorem derives_of_hiddenSteps {m n : Nat} (h : TransGen (HiddenStep g) m n) :
    ∃ q ∈ g.augmented, q.left = m ∧ g.Needs m ∧ ∃ u v, u ≠ [] ∧ Derives g.augmented u [] ∧
      Derives g.augmented q.right (u ++ .nonterminal n :: v) := by
  have hstep : ∀ {m n}, HiddenStep g m n → ∃ q ∈ g.augmented, q.left = m ∧ g.Needs m ∧
      ∃ u v, u ≠ [] ∧ Derives g.augmented u [] ∧
        Derives g.augmented q.right (u ++ .nonterminal n :: v) := by
    rintro m n ⟨hneeds, q, hq, hleft, u, k, v, hright, hu, hvan, hcorners⟩
    obtain ⟨v', hder⟩ := derives_of_corners hcorners
    refine ⟨q, hq, hleft, hneeds, u, v' ++ v, hu, hvan.derives, ?_⟩
    have hwithin := hder.within u v
    rw [hright]
    simpa using hwithin
  induction h with
  | single h => exact hstep h
  | tail _ h ih =>
    obtain ⟨q, hq, hleft, hneeds, u, v, hu, hnil, hder⟩ := ih
    obtain ⟨q', hq', rfl, -, u', v', -, hnil', hder'⟩ := hstep h
    refine ⟨q, hq, hleft, hneeds, u ++ u', v' ++ v, by simp [hu], hnil.append hnil', ?_⟩
    have hwithin := hder'.within u v
    exact hder.trans (.step hq' (by simpa using hwithin))

/-- **Without hidden left recursion hidden steps do not lead round.** -/
theorem not_transGen_hiddenStep (h : ¬ g.HiddenLeft) (n : Nat) :
    ¬ TransGen (HiddenStep g) n n := by
  intro hcycle
  obtain ⟨q, hq, rfl, hneeds, hder⟩ := derives_of_hiddenSteps hcycle
  exact h ⟨q, hq, hneeds, hder⟩

/-! ### Symbols that vanish on top of a stack -/

/-- The symbols of all entries vanish. -/
def AllVanish (g : Grammar) (es : List Entry) : Prop :=
  Vanishes g.augmented ((treesOf es).map (Tree.symbol g))

theorem allVanish_append_iff {es es' : List Entry} :
    AllVanish g (es ++ es') ↔ AllVanish g es' ∧ AllVanish g es := by
  rw [AllVanish, treesOf_append, List.map_append, vanishes_append_iff]
  rfl

theorem allVanish_cons_iff {e : Entry} {es : List Entry} :
    AllVanish g (e :: es) ↔ AllVanish g es ∧ Vanishes g.augmented [e.tree.symbol g] :=
  @allVanish_append_iff g [e] es

/-- An item that begins in a state other than the first is needed, by way of corners, by one that is
in progress there. -/
theorem exists_corners_of_start (hG : IsAutomaton g G) (hg : g.WellFormed) {n p : Nat}
    (hn : n < G.size) (hpos : 0 < n) (hp : ⟨p, 0⟩ ∈ (G.elements n).core) :
    ∃ i ∈ (G.kernel n).core, 0 < i.mark ∧ ∃ k, (ofGrammar g).next? i = some (.nonterminal k) ∧
      ReflTransGen (Corner g) k ((ofGrammar g).production ⟨p, 0⟩).left := by
  let M (j : Item) : Prop := j ∈ (G.kernel n).core ∨ j.mark = 0 ∧ IsItem g j ∧
    ∃ i ∈ (G.kernel n).core, ∃ k, (ofGrammar g).next? i = some (.nonterminal k) ∧
      ReflTransGen (Corner g) k ((ofGrammar g).production j).left
  have hclosed : Closed g M fun _ _ => True := by
    refine ⟨fun {j m p} hj hX hp => ?_, fun _ _ _ _ => trivial⟩
    obtain ⟨q, hq, rfl⟩ := (mem_derivationsOf_iff hg).1 hp
    refine .inr ⟨rfl, ⟨q, hq, Nat.zero_le _⟩, ?_⟩
    rw [production_eq_of_getElem? (i := ⟨p, 0⟩) hq]
    rcases hj with hj | ⟨hmark, hitem, i, hi, k, hk, hcorners⟩
    · exact ⟨j, hj, q.left, hX, .refl⟩
    · -- a production that begins here leads on by its corner
      have hright := right_eq_of_next? hX
      rw [hmark, List.take_zero, List.nil_append] at hright
      exact ⟨i, hi, k, hk, hcorners.tail ⟨_, hitem.production_mem, rfl, _, hright⟩⟩
  have hleast := (closure_least hg (hG.grounded n hn).proper hclosed (fun i hi => .inl hi)
    fun _ _ _ => trivial).1
  rw [(hG.expanded n hn).elements] at hp
  rcases hleast _ hp with hk | ⟨-, -, i, hi, k, hk, hcorners⟩
  · exact absurd (hG.later n hn hpos _ hk) (Nat.lt_irrefl 0)
  · exact ⟨i, hi, hG.later n hn hpos i hi, k, hk, hcorners⟩

/-- No mark is further than the right sides are long together. -/
theorem mark_le_sum {i : Item} (h : IsItem g i) :
    i.mark ≤ (g.augmented.map (·.right.length)).sum :=
  Nat.le_trans (mark_le_of_isItem h)
    (List.single_le_sum (fun _ _ => Nat.zero_le _) _
      (List.mem_map_of_mem (f := (·.right.length)) h.production_mem))

/-- The entries on top of a stack vanish, and an item of the state on top is one of the nonterminal:
then they are no more than a number. -/
def Height (g : Grammar) (G : Graph) (n bound : Nat) : Prop :=
  ∀ (es st : List Entry) (i : Item), Stacked g G (es ++ st) → AllVanish g es →
    i ∈ (G.elements (topState (es ++ st))).core → ((ofGrammar g).production i).left = n →
    es.length ≤ bound

theorem Height.mono {n b b' : Nat} (h : Height g G n b) (hle : b ≤ b') : Height g G n b' :=
  fun es st i hst hvan hi hleft => Nat.le_trans (h es st i hst hvan hi hleft) hle

/-- What a nonterminal can stand on is bounded if that is so for those from which hidden steps lead
to it. -/
theorem exists_height_of_hiddenSteps (hG : IsAutomaton g G) (hg : g.WellFormed) {n : Nat}
    (ih : ∀ m < g.nonterminals.size, HiddenStep g m n → ∃ bound, Height g G m bound) :
    ∃ bound, Height g G n bound := by
  let longest := (g.augmented.map (·.right.length)).sum
  -- one bound for all that are a hidden step away
  obtain ⟨below, hbelow⟩ : ∃ below, ∀ m < g.nonterminals.size, HiddenStep g m n →
      Height g G m below := by
    have hone : ∀ m : Fin g.nonterminals.size, ∃ bound, HiddenStep g m n →
        Height g G m bound := by
      intro m
      by_cases hm : HiddenStep g m n
      · obtain ⟨bound, hbound⟩ := ih m m.2 hm
        exact ⟨bound, fun _ => hbound⟩
      · exact ⟨0, fun h => absurd h hm⟩
    choose bounds hbounds using hone
    exact ⟨Finset.univ.sup bounds, fun m hm hstep => (hbounds ⟨m, hm⟩ hstep).mono
      (Finset.le_sup (f := bounds) (Finset.mem_univ _))⟩
  refine ⟨longest + max longest below, fun es st i hst hvan hi hleft => ?_⟩
  have htop := hst.topState_lt hG hg
  have hmark := mark_le_sum ((hG.grounded_elements hg htop).item i hi)
  by_cases hlen : es.length ≤ i.mark
  · omega
  -- the item began within the entries that vanish
  obtain ⟨popped, rest, heq, hpopped, hrest, -, hstart⟩ := hst.unwind hG hg hi
  obtain ⟨es', rfl, rfl⟩ : ∃ es', es = popped ++ es' ∧ rest = es' ++ st := by
    rcases List.append_eq_append_iff.1 heq with ⟨es', rfl, rfl⟩ | ⟨es', rfl, rfl⟩
    · simp only [List.length_append] at hpopped
      have : es' = [] := List.eq_nil_of_length_eq_zero (by omega)
      exact ⟨[], by simp [this], by simp [this]⟩
    · exact ⟨es', rfl, rfl⟩
  rw [List.length_append] at hlen ⊢
  have hvan' := (allVanish_append_iff.1 hvan).1
  suffices h : es'.length ≤ max longest below by omega
  cases hes : es' with
  | nil => exact Nat.zero_le _
  | cons e es'' =>
    have hpos : 0 < topState (es' ++ st) := by
      rw [hes] at hrest ⊢
      cases hrest with
      | cons _ _ ht => exact (hG.lt_of_transition hg ht).1
    have htop' := hrest.topState_lt hG hg
    obtain ⟨j, hj, hpos', k, hk, hcorners⟩ := exists_corners_of_start hG hg htop' hpos hstart
    have hj' := hG.mem_elements_of_mem_kernel htop' hj
    have hitem := (hG.grounded _ htop').item j hj
    rw [← hes]
    by_cases hlen' : es'.length ≤ j.mark
    · have := mark_le_sum hitem
      omega
    · -- the symbols before its mark vanish, so a hidden step leads on
      obtain ⟨popped', rest', heq', hpopped', -, hsyms, -⟩ := hrest.unwind hG hg hj'
      have hprefix : popped' = es'.take j.mark := by
        have := congrArg (List.take j.mark) heq'
        rw [List.take_append_of_le_length (by omega), List.take_left' hpopped'] at this
        exact this.symm
      have hvan'' : AllVanish g popped' := by
        rw [← List.take_append_drop j.mark es', allVanish_append_iff] at hvan'
        exact hprefix ▸ hvan'.2
      refine Nat.le_trans ?_ (Nat.le_max_right _ _)
      refine hbelow _ (hg.within_augmented _ hitem.production_mem).left ?_ es' st j hrest hvan' hj'
        rfl
      refine ⟨(hG.grounded _ htop').needed j hj, _, hitem.production_mem, rfl, _, k, _,
        right_eq_of_next? hk, ?_, ?_, ?_⟩
      · rw [← hsyms]
        intro hnil
        have := congrArg List.length hnil
        simp only [treesOf, List.length_map, List.length_reverse, List.length_nil] at this
        omega
      · rw [← hsyms]
        exact hvan''
      · exact hleft ▸ hcorners

/-- **Only so many symbols on top of a stack vanish.** -/
theorem exists_height (hG : IsAutomaton g G) (hg : g.WellFormed) (h : ¬ g.HiddenLeft) :
    ∃ bound, ∀ es st, Stacked g G (es ++ st) → AllVanish g es → es.length ≤ bound := by
  have hwf := wellFounded_of_not_transGen (not_transGen_hiddenStep h) g.nonterminals.size
  have hall : ∀ n : Fin g.nonterminals.size, ∃ bound, Height g G n bound := by
    intro n
    induction n using hwf.induction with
    | h n ih =>
      exact exists_height_of_hiddenSteps hG hg fun m hm hstep => ih ⟨m, hm⟩ (.single hstep)
  choose bounds hbounds using hall
  refine ⟨Finset.univ.sup bounds, fun es st hst hvan => ?_⟩
  cases es with
  | nil => exact Nat.zero_le _
  | cons e es =>
    cases id hst with
    | cons hrest hvalid ht =>
      obtain ⟨i, hi, hend, hnext, -⟩ := hG.exists_leads_of_transition ht
      obtain ⟨m, ht', hadv, -⟩ :=
        hG.exists_transition hg (Graph.lt_size_of_mem_transitions ht) hi hnext hend
      obtain rfl := hG.transition_unique ht ht'
      have hitem := (hG.grounded_elements hg (hG.lt_of_transition hg ht).2).item _ hadv
      have hlt := (hg.within_augmented _ hitem.production_mem).left
      exact Nat.le_trans (hbounds ⟨_, hlt⟩ _ st i.advance hst hvan hadv rfl)
        (Finset.le_sup (f := bounds) (Finset.mem_univ _))

end LexParse.Lr
