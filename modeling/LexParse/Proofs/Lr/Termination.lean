import LexParse.Proofs.Lr.Recursion

/-!
# Reductions end without recursion

Whatever precedences have chosen, runs of reductions on one terminal end if the grammar is neither
cyclic nor hidden left recursive.

What a reduction puts on the stack stands for entries on top of it, and for as many entries above
these as have been put there without any leaf, so that their symbols vanish. Only so many such
entries fit on a stack. As long as there is room for more, the next one may replace none; then it is
on top itself, and it is replaced only so often before an entry below it is taken as well. With no
room left every reduction takes an entry.

## What is proved

* `halts_or_touches`: from any stack the reductions end, or they come to take the entry on top.
* `halts_of_not_cyclic`: so they end.
-/

namespace LexParse.Lr

open Context Relation

variable {g : Grammar} {G : Graph} {act : Nat → Nat → Act Nat} {a : Nat} {st st' : List Entry}

/-- Entries on top of a stack have been replaced by one, of a nonterminal that derives their symbols
and behind these some that vanish. -/
inductive Touches (g : Grammar) : List Entry → List Entry → Prop where
  /-- One entry is replaced at least. -/
  | intro {e e' : Entry} {popped below : List Entry} {q : Production} {rest : List Symbol} :
      q ∈ g.augmented → g.Needs q.left → e'.tree.symbol g = .nonterminal q.left →
      q.right = (treesOf (e :: popped)).map (Tree.symbol g) ++ rest →
      Vanishes g.augmented rest → Touches g (e :: (popped ++ below)) (e' :: below)

/-- The reductions come to an end, or to replace the entry on top. -/
def HaltsOrTouches (g : Grammar) (G : Graph) (act : Nat → Nat → Act Nat) (a : Nat)
    (st : List Entry) : Prop :=
  Halts g G act a st ∨ ∃ st', Stacked g G st' ∧
    ReflTransGen (ReduceStep g G act a 0) st st' ∧ Touches g st st'

/-- What is replaced gets shorter, or it is the entry on top only. -/
theorem Touches.length_lt_or_replaced (h : Touches g st st') : st'.length < st.length ∨
    ∃ e e' rest q w, st = e :: rest ∧ st' = e' :: rest ∧ e'.tree.symbol g = .nonterminal q.left ∧
      q ∈ g.augmented ∧ g.Needs q.left ∧ q.right = e.tree.symbol g :: w ∧
      Vanishes g.augmented w := by
  obtain @⟨e, e', popped, below, q, w, hq, hneeds, hleft, hright, hvan⟩ := h
  cases popped with
  | nil => exact .inr ⟨e, e', below, q, w, rfl, rfl, hleft, hq, hneeds, hright, hvan⟩
  | cons e₁ popped =>
    refine .inl ?_
    simp only [List.length_cons, List.length_append]
    omega

/-- Unit steps lead up to finitely many nonterminals, and not round. -/
theorem wellFounded_swap_unitStep (hcyclic : ¬ g.Cyclic) (size : Nat) :
    WellFounded fun x y : Fin size => TransGen (Function.swap (NeededUnitStep g)) x y :=
  wellFounded_of_not_transGen
    (fun n h => not_transGen_unitStep hcyclic n (transGen_swap.1 h)) size

/-- An entry that vanishes is replaced by another one that does, or some entry below it is replaced
as well. -/
theorem Touches.cases_of_vanishes {e : Entry} (h : Touches g (e :: st) st')
    (hvan : Vanishes g.augmented [e.tree.symbol g]) :
    Touches g st st' ∨ ∃ e' q rest, st' = e' :: st ∧ e'.tree.symbol g = .nonterminal q.left ∧
      q ∈ g.augmented ∧ g.Needs q.left ∧ q.right = e.tree.symbol g :: rest ∧
      Vanishes g.augmented q.right := by
  generalize hx : e :: st = x at h
  obtain @⟨e₀, e', popped, below, q, rest, hq, hneeds, hleft, hright, hrest⟩ := h
  obtain ⟨rfl, rfl⟩ := List.cons.inj hx
  rw [treesOf_cons, List.map_append, List.append_assoc] at hright
  cases popped with
  | nil =>
    refine .inr ⟨e', q, rest, rfl, hleft, hq, hneeds, hright, ?_⟩
    rw [hright]
    exact vanishes_cons_iff.2 ⟨hvan, hrest⟩
  | cons e₁ popped =>
    exact .inl (.intro hq hneeds hleft hright (vanishes_cons_iff.2 ⟨hvan, hrest⟩))

/-- An entry on top of which a reduction of nothing has put another one: if that one comes to be
replaced, and so on, the entry itself is. -/
theorem haltsOrTouches_of_vanishes (hg : g.WellFormed) (hcyclic : ¬ g.Cyclic)
    (hnext : ∀ e, Stacked g G (e :: st) → Vanishes g.augmented [e.tree.symbol g] →
      HaltsOrTouches g G act a (e :: st)) {n : Nat} (hn : n < g.nonterminals.size) {e : Entry}
    (hst : Stacked g G (e :: st)) (hsteps : ReflTransGen (ReduceStep g G act a 0) st (e :: st))
    (hvan : Vanishes g.augmented [e.tree.symbol g]) (hsymbol : e.tree.symbol g = .nonterminal n) :
    HaltsOrTouches g G act a st := by
  -- the symbol goes up by unit steps, and these do not lead round
  suffices hall : ∀ (m : Fin g.nonterminals.size) e, Stacked g G (e :: st) →
      ReflTransGen (ReduceStep g G act a 0) st (e :: st) → Vanishes g.augmented [e.tree.symbol g] →
      e.tree.symbol g = .nonterminal m → HaltsOrTouches g G act a st from
    hall ⟨n, hn⟩ e hst hsteps hvan hsymbol
  intro m
  induction m using (wellFounded_swap_unitStep hcyclic g.nonterminals.size).induction with
  | h m ih =>
    intro e hst hsteps hvan hsymbol
    rcases hnext e hst hvan with hhalts | ⟨st', hst', hsteps', htouch⟩
    · exact .inl (hhalts.of_reduceSteps hsteps)
    · rcases htouch.cases_of_vanishes hvan with htouch |
        ⟨e', q, rest, rfl, hleft, hq, hneeds, hright, hvan'⟩
      · exact .inr ⟨st', hst', hsteps.trans hsteps', htouch⟩
      · have hlt : q.left < g.nonterminals.size := (hg.within_augmented q hq).left
        rw [hright, vanishes_cons_iff] at hvan'
        refine ih ⟨q.left, hlt⟩ (.single ⟨⟨q, hq, rest, rfl, ?_, hvan'.2⟩, hneeds⟩) e' hst'
          (hsteps.trans hsteps') ?_ hleft
        · rw [hright, hsymbol]
        · rw [hleft]
          exact .cons hq (hright ▸ vanishes_cons_iff.2 hvan') .nil

/-- **From any stack the reductions end or come to replace the entry on top.** -/
theorem halts_or_touches (hG : IsAutomaton g G) (hg : g.WellFormed) (hlic : Licensed g G act)
    (hcyclic : ¬ g.Cyclic) (hhidden : ¬ g.HiddenLeft) (hst : Stacked g G st) :
    HaltsOrTouches g G act a st := by
  obtain ⟨bound, hbound⟩ := exists_height hG hg hhidden
  -- the induction is on the room that is left for entries that vanish
  suffices hroom : ∀ room es st, Stacked g G (es ++ st) → AllVanish g es →
      bound < es.length + room → HaltsOrTouches g G act a (es ++ st) from
    hroom (bound + 1) [] st hst .nil (by simp)
  intro room
  induction room with
  | zero =>
    intro es st hst hvan hlt
    exact absurd (hbound es st hst hvan) (Nat.not_le.2 hlt)
  | succ room ih =>
    intro es st hst hvan hlt
    by_cases hred : ∃ p, act (topState (es ++ st)) a = .reduce p
    · obtain ⟨p, hp⟩ := hred
      have htop := hst.topState_lt hG hg
      obtain ⟨i, hi, rfl, -⟩ := hlic.reduce htop hp
      obtain ⟨q, popped, rest, heq, hq, hprod, hlen, hsyms, hrest, n, ht⟩ :=
        hst.exists_popped hG hg hlic hp
      have hmem := List.mem_of_getElem? hq
      have hneeds : g.Needs q.left := by
        have := (hG.grounded_elements hg htop).needed i hi
        rwa [Needed, production_eq_of_getElem? hq] at this
      have hstep : ReduceStep g G act a 0 (es ++ st)
          (⟨n, .node (i.production - 1) (treesOf popped)⟩ :: rest) := by
        rw [heq] at hp ⊢
        exact .intro hp hq hlen (Nat.zero_le _) ht
      have hst' := (hst.reduceStep hG hg hlic hstep).1
      have hsymbol : Tree.symbol g (.node (i.production - 1) (treesOf popped)) =
          .nonterminal q.left := Tree.symbol_node hprod
      cases popped with
      | cons e popped =>
        refine .inr ⟨_, hst', .single hstep, ?_⟩
        rw [heq]
        exact .intro hmem hneeds hsymbol (by rw [hsyms, List.append_nil]) .nil
      | nil =>
        -- nothing is replaced, and there is less room above the new entry
        have hright : q.right = [] := hsyms.symm
        have hvanish : Vanishes g.augmented [.nonterminal q.left] :=
          .cons hmem (hright ▸ .nil) .nil
        obtain rfl : es ++ st = rest := heq
        refine haltsOrTouches_of_vanishes hg hcyclic (fun e he hvan' => ?_)
          (hg.within_augmented q hmem).left hst' (.single hstep) (hsymbol ▸ hvanish) hsymbol
        refine ih (e :: es) st he ?_ (by simp only [List.length_cons]; omega)
        exact allVanish_cons_iff.2 ⟨hvan, hvan'⟩
    · exact .inl ⟨_, .refl, fun p hp => hred ⟨p, hp⟩⟩

/-- **Reductions end where the grammar is neither cyclic nor hidden left recursive**, whatever
precedences have chosen. -/
theorem halts_of_not_cyclic (hG : IsAutomaton g G) (hg : g.WellFormed) (hlic : Licensed g G act)
    (hcyclic : ¬ g.Cyclic) (hhidden : ¬ g.HiddenLeft) (hst : Stacked g G st) :
    Halts g G act a st := by
  induction hlength : st.length using Nat.strong_induction_on generalizing st with
  | _ length ih =>
    have hshort : ∀ st', Stacked g G st' → st'.length < length → Halts g G act a st' :=
      fun st' hst' hlt => ih _ hlt hst' rfl
    -- a nonterminal on top is replaced only so often
    have htop : ∀ rest (m : Fin g.nonterminals.size) e, Stacked g G (e :: rest) →
        (e :: rest).length = length → e.tree.symbol g = .nonterminal m →
        Halts g G act a (e :: rest) := by
      intro rest m
      induction m using (wellFounded_swap_unitStep hcyclic g.nonterminals.size).induction with
      | h m ihm =>
        intro e hst hlen hsymbol
        rcases halts_or_touches (a := a) hG hg hlic hcyclic hhidden hst with
          hhalts | ⟨st', hst', hsteps, htouch⟩
        · exact hhalts
        · rcases htouch.length_lt_or_replaced with
            hlt | ⟨e₀, e', rest₀, q, w, heq, rfl, hleft, hq, hneeds, hright, hvan⟩
          · exact (hshort st' hst' (hlen ▸ hlt)).of_reduceSteps hsteps
          · obtain ⟨rfl, rfl⟩ := List.cons.inj heq
            rw [hsymbol] at hright
            have hunit : NeededUnitStep g m q.left := ⟨⟨q, hq, w, rfl, hright, hvan⟩, hneeds⟩
            exact (ihm ⟨q.left, (hg.within_augmented q hq).left⟩ (.single hunit) e' hst' hlen
              hleft).of_reduceSteps hsteps
    rcases halts_or_touches (a := a) hG hg hlic hcyclic hhidden hst with
      hhalts | ⟨st', hst', hsteps, htouch⟩
    · exact hhalts
    · rcases htouch.length_lt_or_replaced with
        hlt | ⟨e, e', rest, q, w, rfl, rfl, hleft, hq, -⟩
      · exact (hshort st' hst' (hlength ▸ hlt)).of_reduceSteps hsteps
      · exact (htop rest ⟨q.left, (hg.within_augmented q hq).left⟩ e' hst' hlength
          hleft).of_reduceSteps hsteps

end LexParse.Lr
