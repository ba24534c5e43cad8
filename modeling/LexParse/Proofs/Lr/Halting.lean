import LexParse.Proofs.Lr.Completeness
import Mathlib.Data.Fintype.EquivFin

/-!
# Reductions come to an end

Where no cell of the table has two candidates, no stack of a parse admits an endless run of
reductions on one terminal, not even on a terminal that is wrong for the stack, as a merged state
may take it for one that is right elsewhere.

A state that calls for a reduction has an item in its kernel behind whose mark the terminal can come
next. The machine is complete for that item whatever lies below: either it gets to a state that
takes the terminal, or what stands behind the mark vanishes, and it reduces the item itself. The
latter shortens the stack, unless the mark stands behind the first symbol. Then one symbol on top of
the stack is replaced by another one, and it remains to see that this does not go on in a circle.

It does not, because a circle would have to be left somewhere: each lookahead of an item was passed
on to it by an item outside the circle. In a state where both begin, the machine would have to do
two things on the same terminal.

## What is proved

* `not_unitCycle`: a nonterminal that is needed somewhere is not on a circle of productions that
  replace one symbol by another, if a terminal can come behind it.
* `halts`: every run of reductions on one terminal ends.
* `exists_go_end_of_halts`: then so does every run over some leaves.
* `Accepts.unique`: and with at most one tree.
-/

namespace LexParse.Lr

open Context Relation

variable {g : Grammar} {G : Graph} {act : Nat → Nat → Act Nat} {a : Nat}

/-- A production derives a nonterminal from another one, but for symbols that vanish. -/
def UnitStep (g : Grammar) (m n : Nat) : Prop :=
  ∃ q ∈ g.augmented, ∃ rest, q.left = n ∧ q.right = .nonterminal m :: rest ∧
    Vanishes g.augmented rest

/-- A reduction of more entries than lie above the base is not made. -/
theorem not_reduceStep_of_length {base p : Nat} {q : Production} {es st : List Entry}
    (hact : act (topState (es ++ st)) a = .reduce p) (hq : g.augmented[p]? = some q)
    (hlen : es.length < q.right.length) (hbase : st.length ≤ base) :
    ∀ z, ¬ ReduceStep g G act a base (es ++ st) z := by
  intro z hz
  generalize hx : es ++ st = x at hz hact
  obtain @⟨p', n, q', popped, rest, hact', hq', hlen', hbase', -⟩ := hz
  rw [hact] at hact'
  cases hact'
  obtain rfl : q = q' := Option.some.inj (hq.symm.trans hq')
  have := congrArg List.length hx
  simp only [List.length_append] at this
  omega

theorem not_reduceStep_of_act {base : Nat} {st : List Entry}
    (hact : ∀ p, act (topState st) a ≠ .reduce p) : ∀ z, ¬ ReduceStep g G act a base st z := by
  rintro z ⟨hact', -⟩
  exact hact _ hact'

/-- An item whose rest vanishes is reduced, and nothing below is touched until then. -/
theorem exists_reduceSteps_of_item (hG : IsAutomaton g G) (hg : g.WellFormed)
    (hob : Obeyed g G act) {base : Nat} {st : List Entry} {i : Item} (hbase : base ≤ st.length)
    (hlt : topState st < G.size) (hi : i ∈ (G.elements (topState st)).core)
    (hvan : Vanishes g.augmented ((ofGrammar g).behind i))
    (ha : a ∈ (G.elements (topState st)).lookaheads i) :
    ∃ es, es.length = ((ofGrammar g).behind i).length ∧
      ReflTransGen (ReduceStep g G act a base) st (es ++ st) ∧
      act (topState (es ++ st)) a = .reduce i.production := by
  obtain ⟨es, hlen, hlt', hsteps, hitem, hlas⟩ := exists_reduceSteps_of_vanishes hG hg hob hbase
    hlt hi (List.append_nil _).symm hvan (.inr ⟨.nil, ha⟩)
  have hnil := behind_add (List.append_nil ((ofGrammar g).behind i)).symm
  have hact := hob.reduce hlt' hitem (List.isEmpty_iff.2 hnil) (hlas a ha)
  exact ⟨es, hlen, hsteps, hact⟩

/-! ### There is no circle -/

/-- The demand for a nonterminal passes on along the circle, against its direction. -/
theorem demands_of_unitSteps (hG : IsAutomaton g G) (hg : g.WellFormed) {n m k : Nat}
    (hn : n < G.size) (h : ReflTransGen (UnitStep g) m k) (hk : IsAutomaton.Demands g G n k a) :
    IsAutomaton.Demands g G n m a := by
  induction h with
  | refl => exact hk
  | tail _ hstep ih =>
    obtain ⟨q, hq, rest, hleft, hright, hvan⟩ := hstep
    obtain ⟨p, hp⟩ := List.mem_iff_getElem?.1 hq
    obtain ⟨hitem, hlas⟩ := hk p ((mem_derivationsOf_iff hg).2 ⟨q, hp, hleft⟩)
    have hbehind := (behind_start hp).trans hright
    have hrest : (ofGrammar g).behind (Item.advance ⟨p, 0⟩) = rest := behind_add (u := [_]) hbehind
    refine ih (hG.demands_of_next? hg hn hitem (next?_of_behind hbehind) ?_)
    rw [hrest]
    exact .inr ⟨hvan, hlas⟩

/-- **A nonterminal that is needed is not on a circle**, if a terminal can come behind it. -/
theorem not_unitCycle (hG : IsAutomaton g G) (hg : g.WellFormed) (hob : Obeyed g G act)
    {before after : List Symbol} {m : Nat} (hs : Situation g.augmented before m after)
    (hb : Begins g.augmented after a) : ¬ TransGen (UnitStep g) m m := by
  induction hs with
  | whole => cases hb
  | @inside before after u v left m q hsit hq hleft hright ih =>
    intro hcycle
    -- the production of the situation begins in a state that its symbols lead on from
    obtain ⟨n₀, hn₀, -, hcore, hdemands⟩ := hG.exists_path_of_situation hg hsit
    obtain ⟨k, hk⟩ := List.mem_iff_getElem?.1 hq
    have hk' : k ∈ (ofGrammar g).derivationsOf left := (mem_derivationsOf_iff hg).2 ⟨q, hk, hleft⟩
    have hbehind := (behind_start hk).trans hright
    obtain ⟨n, hn, -, hitem, hlas⟩ := hG.exists_path_of_behind hg hn₀ (hcore k hk') hbehind
      (IsAutomaton.end_notMem_of_right_eq hg hq hright)
    have hnext := behind_add hbehind
    have hv : (ofGrammar g).behind (Item.advance ⟨k, 0 + u.length⟩) = v :=
      behind_add (u := [_]) hnext
    have hlas : ∀ b, Begins g.augmented after b → b ∈ (G.elements n).lookaheads ⟨k, 0 + u.length⟩ :=
      fun b hb => hlas b (hdemands b hb k hk').2
    have hdemand : IsAutomaton.Demands g G n m a := by
      refine hG.demands_of_next? hg hn hitem (next?_of_behind hnext) ?_
      rw [hv]
      exact (begins_append_iff.1 hb).imp_right fun ⟨hvan, hb⟩ => ⟨hvan, hlas a hb⟩
    -- so does the next production of the circle
    obtain ⟨m', hstep, hback⟩ := TransGen.head'_iff.1 hcycle
    have hdemand' := demands_of_unitSteps hG hg hn hback hdemand
    obtain ⟨q', hq', rest, hleft', hright', hvan⟩ := hstep
    obtain ⟨k', hk'⟩ := List.mem_iff_getElem?.1 hq'
    obtain ⟨hitem', hlas'⟩ := hdemand' k' ((mem_derivationsOf_iff hg).2 ⟨q', hk', hleft'⟩)
    have hbehind' := (behind_start hk').trans hright'
    have hrest : (ofGrammar g).behind (Item.advance ⟨k', 0⟩) = rest :=
      behind_add (u := [_]) hbehind'
    -- both are reached over the nonterminal, in one state
    obtain ⟨t, htr, hadv, hkeep⟩ := hG.exists_transition hg hn hitem (next?_of_behind hnext) nofun
    obtain ⟨t', htr', hadv', hkeep'⟩ :=
      hG.exists_transition hg hn hitem' (next?_of_behind hbehind') nofun
    obtain rfl : t = t' := hG.transition_unique htr htr'
    let st : List Entry := [⟨t, .leaf 0 .none⟩, ⟨n, .leaf 0 .none⟩]
    have ht : topState st < G.size := (hG.lt_of_transition hg htr).2
    obtain ⟨es', hlen', hsteps', hact'⟩ := exists_reduceSteps_of_item hG hg hob
      (Nat.le_refl _) ht hadv' (hrest.symm ▸ hvan) (hkeep' a hlas')
    have hstuck' : ∀ z, ¬ ReduceStep g G act a 2 (es' ++ st) z := by
      refine not_reduceStep_of_length hact' hk' ?_ (Nat.le_refl _)
      rw [hlen', hrest, hright', List.length_cons]
      exact Nat.lt_succ_self _
    rcases begins_append_iff.1 hb with hbv | ⟨hvv, hba⟩
    · -- the terminal can be taken, but the circle reduces on it
      obtain ⟨st', hsteps, -, hact⟩ := exists_reduceSteps_of_begins hG hg hob
        (Nat.le_refl _) ht hadv (hv.symm ▸ hbv)
      have heq := eq_of_runs (fun _ _ _ hx hy => hx.unique hG hy) hsteps' hsteps hstuck'
        (not_reduceStep_of_act hact)
      exact hact k' (heq ▸ hact')
    · -- both are reduced on it, so they are one production, and the circle goes on outside
      obtain ⟨es, hlen, hsteps, hact⟩ := exists_reduceSteps_of_item hG hg hob
        (Nat.le_refl _) ht hadv (hv.symm ▸ hvv) (hkeep a (hlas a hba))
      have hstuck : ∀ z, ¬ ReduceStep g G act a 2 (es ++ st) z := by
        refine not_reduceStep_of_length hact hk ?_ (Nat.le_refl _)
        rw [hlen, hv, hright, List.length_append, List.length_cons]
        omega
      have heq := List.append_cancel_right
        (eq_of_runs (fun _ _ _ hx hy => hx.unique hG hy) hsteps' hsteps hstuck' hstuck)
      subst heq
      rw [hact] at hact'
      obtain rfl : k = k' := Act.reduce.inj hact'
      obtain rfl : q = q' := Option.some.inj (hk.symm.trans hk')
      refine ih hba ?_
      rw [← hleft, hleft']
      exact TransGen.tail' hback ⟨q, hq, rest, hleft', hright', hvan⟩

/-! ### Runs of reductions end -/

/-- A run of reductions on a terminal ends. -/
def Halts (g : Grammar) (G : Graph) (act : Nat → Nat → Act Nat) (a : Nat) (st : List Entry) :
    Prop :=
  ∃ st', ReflTransGen (ReduceStep g G act a 0) st st' ∧ ∀ p, act (topState st') a ≠ .reduce p

theorem Halts.of_reduceSteps {st st' : List Entry} (h : Halts g G act a st')
    (hsteps : ReflTransGen (ReduceStep g G act a 0) st st') : Halts g G act a st := by
  obtain ⟨end_, hend, hact⟩ := h
  exact ⟨end_, hsteps.trans hend, hact⟩

/-- On top of a state, a symbol is replaced by a nonterminal on a terminal. -/
def Replaces (g : Grammar) (G : Graph) (s a : Nat) (X : Symbol) (m : Nat) : Prop :=
  ∃ n i, (X, n) ∈ G.transitions s ∧ i ∈ (G.kernel n).core ∧ i.mark = 1 ∧
    ((ofGrammar g).production i).left = m ∧ Vanishes g.augmented ((ofGrammar g).behind i) ∧
    a ∈ (G.kernel n).lookaheads i

/-- What replaces a nonterminal derives it, and is needed where the terminal can come behind it. -/
theorem Replaces.unitStep (hG : IsAutomaton g G) (hg : g.WellFormed) {s m k : Nat}
    (h : Replaces g G s a (.nonterminal m) k) :
    UnitStep g m k ∧ ∃ before after, Situation g.augmented before k after ∧
      Begins g.augmented after a := by
  obtain ⟨n, i, htr, hi, hmark, rfl, hvan, ha⟩ := h
  have hn := (hG.lt_of_transition hg htr).2
  refine ⟨?_, (hG.grounded n hn).expects i a ha⟩
  have hi' := hG.mem_elements_of_mem_kernel hn hi
  obtain ⟨⟨p, j⟩, hj, hX, rfl⟩ := hG.exists_of_transition hg htr hi' (by omega)
  obtain rfl : j = 0 := Nat.succ.inj hmark
  exact ⟨_, ((hG.grounded n hn).item _ hi).production_mem, _, rfl, right_eq_of_next? hX, hvan⟩

theorem Replaces.lt (hG : IsAutomaton g G) (hg : g.WellFormed) {s m : Nat} {X : Symbol}
    (h : Replaces g G s a X m) : m < g.nonterminals.size := by
  obtain ⟨n, i, htr, hi, -, rfl, -⟩ := h
  have hitem := (hG.grounded n (hG.lt_of_transition hg htr).2).item i hi
  exact (hg.within_augmented _ hitem.production_mem).left

/-- A run of reductions ends, or it goes on with a shorter stack, or with one symbol replaced. -/
theorem halts_or_continues (hG : IsAutomaton g G) (hg : g.WellFormed) (hlic : Licensed g G act)
    (hob : Obeyed g G act) {st : List Entry} (hst : Stacked g G st) :
    Halts g G act a st ∨ ∃ st', Stacked g G st' ∧ ReflTransGen (ReduceStep g G act a 0) st st' ∧
      (st'.length < st.length ∨ ∃ e e' rest m, st = e :: rest ∧ st' = e' :: rest ∧
        e'.tree.symbol g = .nonterminal m ∧
        Replaces g G (topState rest) a (e.tree.symbol g) m) := by
  by_cases hred : ∃ p, act (topState st) a = .reduce p
  · obtain ⟨p, hp⟩ := hred
    have hlt := hst.topState_lt hG hg
    obtain ⟨j, hj, -, hc, hla⟩ := hlic.reduce hlt hp
    have hahead : Ahead g.augmented ((ofGrammar g).behind j)
        (· ∈ (G.elements (topState st)).lookaheads j) a := by
      rw [List.isEmpty_iff.1 hc]
      exact .inr ⟨.nil, hla⟩
    obtain ⟨i, hi, hb | ⟨hvan, hl⟩⟩ := hG.exists_kernel_item hg hlt hj hahead
    · left
      obtain ⟨st', hsteps, -, hact⟩ := exists_reduceSteps_of_begins hG hg hob (Nat.zero_le _) hlt
        (hG.mem_elements_of_mem_kernel hlt hi) hb
      exact ⟨st', hsteps, hact⟩
    · right
      obtain ⟨es, hlen, hsteps, hact⟩ := exists_reduceSteps_of_item hG hg hob (Nat.zero_le _) hlt
        (hG.mem_elements_of_mem_kernel hlt hi) hvan (hG.mem_lookaheads_of_mem_kernel hlt hl)
      obtain ⟨hst', -⟩ := hst.reduceSteps hG hg hlic hsteps
      obtain ⟨q, popped, rest, heq, hq, hq', hpop, -, -, n, htr⟩ :=
        hst'.exists_popped hG hg hlic hact
      have hstep : ReduceStep g G act a 0 (es ++ st)
          (⟨n, .node (i.production - 1) (treesOf popped)⟩ :: rest) := by
        rw [heq] at hact ⊢
        exact .intro hact hq hpop (Nat.zero_le _) htr
      have hprod := production_eq_of_getElem? hq
      refine ⟨_, (hst'.reduceStep hG hg hlic hstep).1, hsteps.tail hstep, ?_⟩
      have hright : q.right.length = i.mark + es.length := by
        have hle := mark_le_of_isItem ((hG.grounded _ hlt).item i hi)
        rw [hlen, behind, List.length_drop, hprod]
        rw [hprod] at hle
        omega
      have hlength := congrArg List.length heq
      simp only [List.length_append] at hlength
      cases hst with
      | nil =>
        -- the whole input does not vanish
        rw [show topState [] = 0 from rfl, hG.first] at hi
        rw [List.mem_singleton.1 hi] at hvan
        exact absurd (vanishes_cons_iff.1 hvan).2 not_vanishes_terminal
      | @cons n' t rest' hrest' hvalid htr' =>
        have hmark := hG.later _ hlt (hG.lt_of_transition hg htr').1 i hi
        simp only [List.length_cons] at hlength ⊢
        by_cases hone : i.mark = 1
        · right
          have hsplit : es ++ [⟨n', t⟩] ++ rest' = popped ++ rest := by simpa using heq
          have hlens : (es ++ [(⟨n', t⟩ : Entry)]).length = popped.length := by
            simp only [List.length_append, List.length_cons, List.length_nil]
            omega
          obtain ⟨-, rfl⟩ := List.append_inj hsplit hlens
          refine ⟨_, _, _, q.left, rfl, rfl, ?_, n', i, htr', hi, hone, ?_, hvan, hl⟩
          · simp [Tree.symbol, hq']
          · rw [hprod]
        · left
          omega
  · left
    exact ⟨st, .refl, fun p hp => hred ⟨p, hp⟩⟩

/-- On top of a state symbols are not replaced in a circle. -/
theorem wellFounded_replaces (hG : IsAutomaton g G) (hg : g.WellFormed) (hob : Obeyed g G act)
    (s : Nat) : WellFounded fun x y : Fin g.nonterminals.size =>
      TransGen (fun m k => Replaces g G s a (.nonterminal m) k) y x := by
  have htrans : IsTrans (Fin g.nonterminals.size) fun x y =>
      TransGen (fun m k => Replaces g G s a (.nonterminal m) k) y x :=
    ⟨fun _ _ _ h h' => h'.trans h⟩
  have hirrefl : Std.Irrefl fun x y : Fin g.nonterminals.size =>
      TransGen (fun m k => Replaces g G s a (.nonterminal m) k) y x := by
    refine ⟨fun x hx => ?_⟩
    obtain ⟨k, hk, hback⟩ := TransGen.head'_iff.1 hx
    obtain ⟨-, before, after, hsit, hb⟩ := hk.unitStep hG hg
    refine not_unitCycle hG hg hob hsit hb ?_
    exact TransGen.mono (fun _ _ h => (Replaces.unitStep hG hg h).1) _ _ (TransGen.tail' hback hk)
  exact Finite.wellFounded_of_trans_of_irrefl _

/-- **Every run of reductions on one terminal ends.** -/
theorem halts (hG : IsAutomaton g G) (hg : g.WellFormed) (hlic : Licensed g G act)
    (hob : Obeyed g G act) {st : List Entry} (hst : Stacked g G st) : Halts g G act a st := by
  induction hlength : st.length using Nat.strong_induction_on generalizing st with
  | _ length ih =>
    have hshort : ∀ st', Stacked g G st' → st'.length < length → Halts g G act a st' :=
      fun st' hst' hlt => ih _ hlt hst' rfl
    -- a nonterminal on top is replaced only so often
    have htop : ∀ rest (m : Fin g.nonterminals.size) e, Stacked g G (e :: rest) →
        (e :: rest).length = length → e.tree.symbol g = .nonterminal m →
        Halts g G act a (e :: rest) := by
      intro rest m
      induction m using (wellFounded_replaces (a := a) hG hg hob (topState rest)).induction with
      | h m ihm =>
        intro e hst hlen hsymbol
        rcases halts_or_continues (a := a) hG hg hlic hob hst with
          hhalts | ⟨st', hst', hsteps, hlt | ⟨e₀, e', rest₀, m', heq, rfl, hsymbol', hrep⟩⟩
        · exact hhalts
        · exact (hshort st' hst' (hlen ▸ hlt)).of_reduceSteps hsteps
        · obtain ⟨rfl, rfl⟩ := List.cons.inj heq
          rw [hsymbol] at hrep
          exact (ihm ⟨m', hrep.lt hG hg⟩ (.single hrep) e' hst' hlen hsymbol').of_reduceSteps hsteps
    rcases halts_or_continues (a := a) hG hg hlic hob hst with
      hhalts | ⟨st', hst', hsteps, hlt | ⟨e, e', rest, m, rfl, rfl, hsymbol, hrep⟩⟩
    · exact hhalts
    · exact (hshort st' hst' (hlength ▸ hlt)).of_reduceSteps hsteps
    · exact (htop rest ⟨m, hrep.lt hG hg⟩ e' hst' hlength hsymbol).of_reduceSteps hsteps

theorem go_of_reduceSteps {base : Nat} {st st' : List Entry} {l : List (Nat × Value)}
    (h : ReflTransGen (ReduceStep g G act (front l) base) st st') :
    ReflTransGen (Go g G act base) (st, l) (st', l) := by
  induction h with
  | refl => exact .refl
  | tail _ hstep ih => exact ih.tail (.reduce hstep)

/-- **Every run of the machine ends if reductions do**, with the acceptance of all leaves or with an
error. -/
theorem exists_go_end_of_halts (hG : IsAutomaton g G) (hg : g.WellFormed) (hlic : Licensed g G act)
    (hhalts : ∀ {a st}, Stacked g G st → Halts g G act a st) {st : List Entry}
    {l : List (Nat × Value)} (hst : Stacked g G st) (hl : ∀ e ∈ l, e.1 ≠ 0) :
    ∃ st' l', ReflTransGen (Go g G act 0) (st, l) (st', l') ∧ Stacked g G st' ∧
      (act (topState st') (front l') = .error ∨
        act (topState st') (front l') = .accept ∧ l' = []) := by
  induction l generalizing st with
  | nil =>
    obtain ⟨st', hsteps, hact⟩ := hhalts (a := front []) hst
    obtain ⟨hst', -⟩ := hst.reduceSteps hG hg hlic hsteps
    refine ⟨st', [], go_of_reduceSteps hsteps, hst', ?_⟩
    cases h : act (topState st') (front []) with
    | error => exact .inl rfl
    | accept => exact .inr ⟨rfl, rfl⟩
    | reduce p => exact absurd h (hact p)
    | shift n =>
      exact absurd rfl (hlic.ne_zero_of_shift hG (hst'.topState_lt hG hg) h)
  | cons e l ih =>
    obtain ⟨a, v⟩ := e
    obtain ⟨st', hsteps, hact⟩ := hhalts (a := front ((a, v) :: l)) hst
    obtain ⟨hst', -⟩ := hst.reduceSteps hG hg hlic hsteps
    cases h : act (topState st') (front ((a, v) :: l)) with
    | error => exact ⟨st', _, go_of_reduceSteps hsteps, hst', .inl h⟩
    | accept =>
      have ha := (hlic.accept (hst'.topState_lt hG hg) h).1
      exact absurd ha (hl _ (List.mem_cons_self ..))
    | reduce p => exact absurd h (hact p)
    | shift n =>
      have hshift := hst'.shift hG hg hlic v h
      obtain ⟨st'', l', hgo, hst'', hend⟩ := ih hshift fun e he => hl e (List.mem_cons_of_mem _ he)
      exact ⟨st'', l', (go_of_reduceSteps hsteps).trans (.head (.shift h) hgo), hst'', hend⟩

/-- The machine does not go on after an error or the acceptance. -/
theorem not_go_of_end {base : Nat} {st : List Entry} {l : List (Nat × Value)}
    (h : act (topState st) (front l) = .error ∨ act (topState st) (front l) = .accept) :
    ∀ x, ¬ Go g G act base (st, l) x := by
  intro x hx
  cases hx with
  | shift hact =>
    rw [front_cons, hact] at h
    rcases h with h | h <;> cases h
  | reduce hred =>
    obtain ⟨hact, -⟩ := hred
    rw [hact] at h
    rcases h with h | h <;> cases h

/-- What the machine comes to an end with is one thing. -/
theorem eq_of_ends (hG : IsAutomaton g G) {x : List Entry × List (Nat × Value)}
    {st st' : List Entry} {l l' : List (Nat × Value)}
    (h : ReflTransGen (Go g G act 0) x (st, l)) (h' : ReflTransGen (Go g G act 0) x (st', l'))
    (hend : act (topState st) (front l) = .error ∨ act (topState st) (front l) = .accept)
    (hend' : act (topState st') (front l') = .error ∨ act (topState st') (front l') = .accept) :
    (st, l) = (st', l') := by
  have hunique : Relator.RightUnique (Go g G act 0) := fun _ _ _ => Go.unique hG
  exact eq_of_runs hunique h h' (not_go_of_end hend) (not_go_of_end hend')

/-- For some leaves the machine accepts one tree. -/
theorem Accepts.unique {l : List (Nat × Value)} {t t' : Tree} (h : Accepts g G act [] l t)
    (h' : Accepts g G act [] l t') (hG : IsAutomaton g G) : t = t' := by
  obtain ⟨n, hgo, hact⟩ := h
  obtain ⟨m, hgo', hact'⟩ := h'
  cases eq_of_ends hG hgo hgo' (.inr hact) (.inr hact')
  rfl

end LexParse.Lr
