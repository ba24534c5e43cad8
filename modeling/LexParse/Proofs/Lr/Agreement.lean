import LexParse.Proofs.Lr.Canonical
import LexParse.Proofs.Lr.Merging

/-!
# The merged machine beside the canonical one

Each canonical state has a merged one above it, with the same items and with all their lookaheads.
So what the canonical machine does, the merged machine does too. The converse fails where an input
is wrong: a merged state may take a lookahead for its own that belongs to another stack, and reduce
where the canonical state rejects. As canonical lookaheads are exact, the terminal is not awaited
after such a reduction, and it never becomes so by further ones.

## What is proved

* `ConflictFree.of_above`: where the merged table has no cell with two candidates, neither has the
  canonical one.
* `Alongside.reduceStep`, `Above.shift`, `Above.accept`: the merged machine does what the canonical
  one does, with the same trees on the stack.
* `Alongside.act_ne_error`: if the merged machine comes to take or accept a terminal by reductions,
  the canonical machine does not reject it.
-/

namespace LexParse.Lr

open Context LexParse.Lr.Graph Relation

/-- A state of a graph has the items of a state of another one, with all their lookaheads. -/
structure Above (A B : Graph) (n m : Nat) : Prop where
  lt : n < A.size
  lt' : m < B.size
  covers : Covers (B.kernel m) (A.kernel n)

/-- Two stacks have the same trees, and the states of one are above those of the other. -/
def Alongside (A B : Graph) : List Entry → List Entry → Prop :=
  List.Forall₂ fun e e' => e.tree = e'.tree ∧ Above A B e.state e'.state

variable {g : Grammar} {A B : Graph} {act act' : Nat → Nat → Act Nat} {n m k p a t : Nat}
  {X : Symbol}

/-! ### States -/

theorem above_zero (hA : IsAutomaton g A) (hB : IsAutomaton g B) : Above A B 0 0 :=
  ⟨hA.pos, hB.pos, by rw [hA.first, hB.first]; exact .refl _⟩

namespace Above

theorem elements (h : Above A B n m) (hA : IsAutomaton g A) (hB : IsAutomaton g B)
    (hg : g.WellFormed) : Covers (B.elements m) (A.elements n) := by
  rw [(hA.expanded n h.lt).elements, (hB.expanded m h.lt').elements]
  exact covers_closure hg (hB.grounded m h.lt').proper (hA.grounded n h.lt).proper h.covers

/-- The state above follows the transitions. -/
theorem exists_transition (h : Above A B n m) (hA : Complete g .canonical A)
    (hB : IsAutomaton g B) (hg : g.WellFormed) (ht : (X, k) ∈ A.transitions n) :
    ∃ k', (X, k') ∈ B.transitions m ∧ Above A B k k' := by
  obtain ⟨⟨Y, L⟩, hL, hY, htarget⟩ := exists_mem_of_forall₂ (hA.expanded n h.lt).transitions ht
  obtain rfl : X = Y := hY
  obtain rfl : A.kernel k = L := (sameState_iff.1 htarget.same).2 rfl
  rw [(hA.expanded n h.lt).elements] at hL
  obtain ⟨k', ht', hk', hcovers⟩ :=
    hB.exists_covers_of_goto hg h.lt' (hA.automaton.grounded n h.lt) h.covers hL
  exact ⟨k', ht', htarget.lt, hk', hcovers⟩

/-- It has no others. -/
theorem exists_transition_below (h : Above A B n m) (hA : Complete g .canonical A)
    (hB : IsAutomaton g B) (hg : g.WellFormed) (ht : (X, k) ∈ B.transitions m) :
    ∃ k', (X, k') ∈ A.transitions n ∧ Above A B k' k := by
  obtain ⟨k', ht', -⟩ :=
    hB.exists_transition_of_core_eq hA.automaton hg h.lt h.covers.core.symm ht
  obtain ⟨l, ht'', habove⟩ := h.exists_transition hA hB hg ht'
  obtain rfl := hB.transition_unique ht ht''
  exact ⟨k', ht', habove⟩

end Above

/-! ### Candidates -/

/-- A sorted set is its items with their lookaheads. -/
theorem ItemSet.map_core_eq {s : ItemSet} (hs : s.Sorted) :
    s.core.map (fun i => (i, s.lookaheads i)) = s := by
  rw [ItemSet.core, List.map_map]
  refine List.map_congr_left (g := id) (fun e he => ?_) |>.trans (List.map_id s)
  exact Prod.ext rfl (hs.lookaheads_eq he)

/-- A completed item is reduced on each of its lookaheads once. -/
theorem length_filter_reductions (c : Context) (order : List Nat) (s : State) :
    ((c.reductions order s).filter fun e => e.2 == t).length =
      s.elements.countP fun e => c.isComplete e.1 && decide (t ∈ e.2) := by
  have hone : ∀ (r : Nat) (las : NatSet),
      ((las.toList.map fun u => (r, u)).filter fun e => e.2 == t).length =
        if t ∈ las then 1 else 0 := by
    intro r las
    rw [← List.countP_eq_length_filter, List.countP_map]
    show las.toList.count t = _
    split
    · rename_i ht
      exact List.count_eq_one_of_mem las.nodup_toList (NatSet.mem_toList.2 ht)
    · rename_i ht
      exact List.count_eq_zero_of_not_mem (mt NatSet.mem_toList.1 ht)
  rw [reductions]
  induction s.elements with
  | nil => rfl
  | cons e rest ih =>
    obtain ⟨i, las⟩ := e
    cases hc : c.isComplete i with
    | false => simpa [hc] using ih
    | true =>
      simp only [List.filter_cons, hc, if_true, List.flatMap_cons, List.filter_append,
        List.length_append, hone, ih, List.countP_cons, Bool.true_and, decide_eq_true_eq]
      omega

namespace Above

/-- A state has no more candidates than the one above it. -/
theorem length_candidates_le (h : Above A B n m) (hA : Complete g .canonical A)
    (hB : IsAutomaton g B) (hg : g.WellFormed) (order : List Nat) :
    ((ofGrammar g).candidates order (A.state n) t).length ≤
      ((ofGrammar g).candidates order (B.state m) t).length := by
  have hcovers := h.elements hA.automaton hB hg
  simp only [candidates, candidatesFrom, List.length_append, List.length_map]
  refine Nat.add_le_add (Nat.add_le_add ?_ ?_) ?_
  · -- there is no more than one transition, and it has one above it
    show ((A.transitions n).filter _).length ≤ ((B.transitions m).filter _).length
    rcases Nat.eq_zero_or_pos ((A.transitions n).filter fun e => e.1 == .terminal t).length with
      hzero | hpos
    · omega
    · obtain ⟨⟨X, k⟩, hmem⟩ := List.exists_mem_of_length_pos hpos
      obtain ⟨ht, hX⟩ := List.mem_filter.1 hmem
      obtain rfl : X = .terminal t := beq_iff_eq.1 hX
      obtain ⟨k', ht', -⟩ := h.exists_transition hA hB hg ht
      refine Nat.le_trans ?_ (List.length_pos_of_mem (List.mem_filter.2 ⟨ht', hX⟩))
      have hnodup := hA.automaton.nodup_transitions h.lt
      have hcount := List.nodup_iff_count_le_one.1 hnodup (.terminal t)
      rwa [List.count, List.countP_map, List.countP_eq_length_filter] at hcount
  · have hends : (ofGrammar g).itemsBefore (A.state n) .endOfInput ≠ [] ↔
        (ofGrammar g).itemsBefore (B.state m) .endOfInput ≠ [] := by
      rw [itemsBefore_ne_nil_iff, itemsBefore_ne_nil_iff]
      change (∃ i ∈ (A.elements n).core, _) ↔ ∃ i ∈ (B.elements m).core, _
      rw [hcovers.core]
    simp only [hends]
    exact Nat.le_refl _
  · rw [length_filter_reductions, length_filter_reductions]
    show (A.elements n).countP _ ≤ (B.elements m).countP _
    rw [← ItemSet.map_core_eq (hA.automaton.grounded_elements hg h.lt).proper.sorted,
      ← ItemSet.map_core_eq (hB.grounded_elements hg h.lt').proper.sorted, hcovers.core,
      List.countP_map, List.countP_map]
    refine List.countP_mono_left fun i _ hi => ?_
    simp only [Function.comp_apply, Bool.and_eq_true, decide_eq_true_eq] at hi ⊢
    exact ⟨hi.1, hcovers.lookaheads i t hi.2⟩

end Above

/-- **Where no cell of the merged table has two candidates, none of the canonical one has.** -/
theorem ConflictFree.of_above (hA : Complete g .canonical A) (hB : IsAutomaton g B)
    (hg : g.WellFormed) (habove : ∀ n < A.size, ∃ m, Above A B n m)
    (hfree : ConflictFree (ofGrammar g) B) : ConflictFree (ofGrammar g) A := by
  intro s hs t ht
  obtain ⟨n, hn, rfl⟩ := Array.mem_iff_getElem.1 hs
  obtain ⟨m, h⟩ := habove n hn
  have hstate : A.states[n] = A.state n := by
    rw [Graph.state, Array.getD_eq_getD_getElem?, Array.getElem?_eq_getElem hn, Option.getD_some]
  rw [hstate]
  exact Nat.le_trans (h.length_candidates_le hA hB hg _)
    (hfree _ (Array.mem_of_getElem? (getElem?_states h.lt')) t ht)

/-! ### Actions -/

namespace Above

/-- What the canonical machine takes, the merged one takes. -/
theorem shift (h : Above A B n m) (hA : Complete g .canonical A) (hB : IsAutomaton g B)
    (hg : g.WellFormed) (hlic : Licensed g A act) (hob : Obeyed g B act')
    (hact : act n a = .shift k) : ∃ k', act' m a = .shift k' ∧ Above A B k k' := by
  obtain ⟨k', ht, habove⟩ := h.exists_transition hA hB hg (hlic.shift h.lt hact)
  exact ⟨k', hob.shift h.lt' ht, habove⟩

theorem reduce (h : Above A B n m) (hA : IsAutomaton g A) (hB : IsAutomaton g B)
    (hg : g.WellFormed) (hlic : Licensed g A act) (hob : Obeyed g B act')
    (hact : act n a = .reduce p) : act' m a = .reduce p := by
  have hcovers := h.elements hA hB hg
  obtain ⟨i, hi, rfl, hc, ha⟩ := hlic.reduce h.lt hact
  exact hob.reduce h.lt' (hcovers.core ▸ hi) hc (hcovers.lookaheads i a ha)

/-- Both accept in the same states. -/
theorem accept_iff (h : Above A B n m) (hA : IsAutomaton g A) (hB : IsAutomaton g B)
    (hg : g.WellFormed) (hlic : Licensed g A act) (hob : Obeyed g A act) (hlic' : Licensed g B act')
    (hob' : Obeyed g B act') : act n a = .accept ↔ act' m a = .accept := by
  have hcovers := h.elements hA hB hg
  constructor
  · intro hact
    obtain ⟨rfl, i, hi, hX⟩ := hlic.accept h.lt hact
    exact hob'.accept h.lt' (hcovers.core ▸ hi) hX
  · intro hact
    obtain ⟨rfl, i, hi, hX⟩ := hlic'.accept h.lt' hact
    exact hob.accept h.lt (hcovers.core ▸ hi) hX

/-- What the merged machine takes in a state, the canonical one takes in the state below. -/
theorem shift_below (h : Above A B n m) (hA : Complete g .canonical A) (hB : IsAutomaton g B)
    (hg : g.WellFormed) (hob : Obeyed g A act) (hlic : Licensed g B act')
    (hact : act' m a = .shift k) : ∃ k', act n a = .shift k' := by
  obtain ⟨k', ht, -⟩ := h.exists_transition_below hA hB hg (hlic.shift h.lt' hact)
  exact ⟨k', hob.shift h.lt ht⟩

end Above

/-! ### Stacks -/

namespace Alongside

variable {st st' y y' popped rest popped' rest' : List Entry}

theorem top (h : Alongside A B st st') (hA : IsAutomaton g A) (hB : IsAutomaton g B) :
    Above A B (topState st) (topState st') := by
  cases h with
  | nil => exact above_zero hA hB
  | cons he _ => exact he.2

theorem trees (h : Alongside A B st st') : treesOf st = treesOf st' := by
  induction h with
  | nil => rfl
  | cons he _ ih => rw [treesOf_cons, treesOf_cons, ih, he.1]

theorem split (h : Alongside A B (popped ++ rest) st') : ∃ popped' rest', st' = popped' ++ rest' ∧
    Alongside A B popped popped' ∧ Alongside A B rest rest' :=
  ⟨st'.take popped.length, st'.drop popped.length, (List.take_append_drop _ _).symm,
    List.forall₂_take_append _ _ _ h.flip |>.flip, List.forall₂_drop_append _ _ _ h.flip |>.flip⟩

theorem split_below (h : Alongside A B st (popped' ++ rest')) : ∃ popped rest,
    st = popped ++ rest ∧ Alongside A B popped popped' ∧ Alongside A B rest rest' :=
  ⟨st.take popped'.length, st.drop popped'.length, (List.take_append_drop _ _).symm,
    List.forall₂_take_append _ _ _ h, List.forall₂_drop_append _ _ _ h⟩

section
variable (hA : Complete g .canonical A) (hB : IsAutomaton g B) (hg : g.WellFormed)
include hA hB hg

/-- **The merged machine makes the reductions of the canonical one.** -/
theorem reduceStep (hlic : Licensed g A act) (hob : Obeyed g B act') (h : Alongside A B st st')
    {base : Nat} (hstep : ReduceStep g A act a base st y) :
    ∃ y', ReduceStep g B act' a base st' y' ∧ Alongside A B y y' := by
  obtain @⟨p, n, q, popped, rest, hact, hq, hlen, hbase, ht⟩ := hstep
  have hact' := (h.top hA.automaton hB).reduce hA.automaton hB hg hlic hob hact
  obtain ⟨popped', rest', rfl, hpopped, hrest⟩ := h.split
  obtain ⟨n', ht', habove⟩ := (hrest.top hA.automaton hB).exists_transition hA hB hg ht
  refine ⟨_, .intro hact' hq (hpopped.length_eq ▸ hlen) (hrest.length_eq ▸ hbase) ht',
    .cons ⟨?_, habove⟩ hrest⟩
  exact congrArg (Tree.node (p - 1)) hpopped.trees

theorem reduceSteps (hlic : Licensed g A act) (hob : Obeyed g B act') (h : Alongside A B st st')
    {base : Nat} (hsteps : ReflTransGen (ReduceStep g A act a base) st y) :
    ∃ y', ReflTransGen (ReduceStep g B act' a base) st' y' ∧ Alongside A B y y' := by
  induction hsteps with
  | refl => exact ⟨st', .refl, h⟩
  | tail _ hstep ih =>
    obtain ⟨y', hsteps', halong⟩ := ih
    obtain ⟨z', hstep', halong'⟩ := reduceStep hA hB hg hlic hob halong hstep
    exact ⟨z', hsteps'.tail hstep', halong'⟩

/-- A reduction of the merged machine that the canonical one does not make leads to where the
canonical one would reject. -/
theorem exists_of_reduceStep (hlic : Licensed g A act) (hob : Obeyed g A act)
    (hlic' : Licensed g B act') (h : Alongside A B st st') (hst : Stacked g A st)
    (hst' : Stacked g B st') {base : Nat} (hstep : ReduceStep g B act' a base st' y') :
    ∃ y, Alongside A B y y' ∧ Stacked g A y ∧
      (act (topState y) a ≠ .error → act (topState st) a ≠ .error) := by
  obtain ⟨k, q, popped', rest', n', rfl, rfl, -, hq, hsyms, ht'⟩ :=
    hst'.cases_of_reduceStep hB hg hlic' hstep
  -- the canonical stack has the same trees, and its state below goes on in the same way
  obtain ⟨popped, rest, rfl, hpopped, hrest⟩ := h.split_below
  obtain ⟨n, ht, habove⟩ := (hrest.top hA.automaton hB).exists_transition_below hA hB hg ht'
  rw [← hpopped.trees] at hsyms
  have hy := hst.node hq hsyms ht
  refine ⟨_, .cons ⟨congrArg (Tree.node k) hpopped.trees, habove⟩ hrest, hy, fun hne => ?_⟩
  have hawaits := awaits_of_act hA.automaton hlic (hy.topState_lt hA.automaton hg) hne
  have hq' : g.augmented[k + 1]? = some q := hq
  have ha := (hA.mem_lookaheads_iff_awaits hg hst hq' (Nat.succ_ne_zero k) hsyms ht).2 hawaits
  rw [hob.reduce (hst.topState_lt hA.automaton hg) (ItemSet.mem_core_of_mem_lookaheads ha)
    (isComplete_length hq') ha]
  nofun

/-- **Reductions of the merged machine do not make a terminal fit** that the canonical machine
rejects. -/
theorem act_ne_error (hlic : Licensed g A act) (hob : Obeyed g A act) (hlic' : Licensed g B act')
    (hob' : Obeyed g B act') (h : Alongside A B st st') (hst : Stacked g A st)
    (hst' : Stacked g B st') {base : Nat}
    (hsteps : ReflTransGen (ReduceStep g B act' a base) st' y')
    (herr : act' (topState y') a ≠ .error) (hred : ∀ p, act' (topState y') a ≠ .reduce p) :
    act (topState st) a ≠ .error := by
  induction hsteps using ReflTransGen.head_induction_on generalizing st with
  | refl =>
    have habove := h.top hA.automaton hB
    cases hact : act' (topState y') a with
    | error => exact absurd hact herr
    | reduce p => exact absurd hact (hred p)
    | shift k =>
      obtain ⟨k', hk⟩ := habove.shift_below hA hB hg hob hlic' hact
      rw [hk]
      nofun
    | accept =>
      rw [(habove.accept_iff hA.automaton hB hg hlic hob hlic' hob').2 hact]
      nofun
  | head hstep _ ih =>
    obtain ⟨y, halong, hy, hne⟩ := exists_of_reduceStep hA hB hg hlic hob hlic' h hst hst' hstep
    exact hne (ih halong hy (hst'.reduceStep hB hg hlic' hstep).1)

end

end Alongside

end LexParse.Lr
