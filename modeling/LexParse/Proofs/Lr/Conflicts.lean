import LexParse.Proofs.Lr.Ties

/-!
# Conflicts of a table

A table has a conflict where nothing decides between a reduction and what has been chosen before.
The reductions of a row are considered in the order of their productions, and what has been chosen
is the best of those considered so far. So its conflicts are told by the ties of its cells.

## What is proved

* `tied_of_conflict`, `conflict_of_openlyTied`: the two directions for any order of productions.
* `conflict_of_tied_of_rising`, `openlyTied_of_conflict_of_falling`: what the two orders make of the
  ties that are not open.
-/

namespace LexParse.Lr

/-! ### What has been chosen so far -/

namespace Context

variable (c : Context) (order : List Nat) (s : State) (t : Nat)

/-- The candidates for the cell of a state and a terminal. -/
def cell : Cell where
  held := ∃ i ∈ s.elements.core, c.next? i = some (.terminal t)
  terminal := c.grammar.terminalPrecedence t
  reduces p := ∃ i ∈ s.elements.core, c.isComplete i = true ∧ t ∈ s.elements.lookaheads i ∧
    i.production = p
  precedence := c.precedence

/-- The entry is the best of the candidates considered so far: a shift has been kept against all
reductions, and a reduction beats all others but for those that the shift is kept against. -/
def Tops (rs : List (Nat × Nat)) : Act Nat → Prop
  | .shift _ | .accept =>
    (c.cell s t).held ∧ ∀ r, (r, t) ∈ rs → (c.cell s t).judge (productionAt order r) = .keep
  | .reduce r =>
    (r, t) ∈ rs ∧ ((c.cell s t).held → (c.cell s t).judge (productionAt order r) = .replace) ∧
      ∀ r', (r', t) ∈ rs → r' ≠ r →
        (c.cell s t).held ∧ (c.cell s t).judge (productionAt order r') = .keep ∨
          (c.cell s t).Beats (productionAt order r) (productionAt order r')
  | .error => ¬ (c.cell s t).held ∧ ∀ r, (r, t) ∉ rs

variable {c order s t} {rs : List (Nat × Nat)} {x : Act Nat} {r : Nat}

theorem mem_append_singleton_of_ne {e : Nat × Nat} (he : e.2 ≠ t) :
    (r, t) ∈ rs ++ [e] ↔ (r, t) ∈ rs := by
  rw [List.mem_append, List.mem_singleton, or_iff_left]
  rintro rfl
  exact he rfl

theorem Tops.skip {e : Nat × Nat} (h : Tops c order s t rs x) (he : e.2 ≠ t) :
    Tops c order s t (rs ++ [e]) x := by
  cases x <;> simpa only [Tops, mem_append_singleton_of_ne he] using h

theorem mem_append_singleton_iff {r' : Nat} :
    (r', t) ∈ rs ++ [(r, t)] ↔ (r', t) ∈ rs ∨ r' = r := by
  simp

theorem Tops.keep (h : Tops c order s t rs x) (hjudge : c.judge order t x r = .keep) :
    Tops c order s t (rs ++ [(r, t)]) x := by
  have hshift : (c.cell s t).held ∧
      (∀ r', (r', t) ∈ rs → (c.cell s t).judge (productionAt order r') = .keep) →
      (c.cell s t).judge (productionAt order r) = .keep → (c.cell s t).held ∧
      ∀ r', (r', t) ∈ rs ++ [(r, t)] → (c.cell s t).judge (productionAt order r') = .keep := by
    rintro ⟨hheld, hall⟩ hr
    refine ⟨hheld, fun r' hmem => ?_⟩
    rcases mem_append_singleton_iff.1 hmem with hmem | rfl
    · exact hall r' hmem
    · exact hr
  cases x with
  | shift n => exact hshift h hjudge
  | accept => exact hshift h hjudge
  | error => cases hjudge
  | reduce r₀ =>
    obtain ⟨hmem₀, hreplace, hall⟩ := h
    refine ⟨List.mem_append_left _ hmem₀, hreplace, fun r' hmem hne => ?_⟩
    rcases mem_append_singleton_iff.1 hmem with hmem | rfl
    · exact hall r' hmem hne
    · exact .inr (judgeReductions_eq_keep_iff.1 hjudge)

theorem Tops.replace (h : Tops c order s t rs x) (hjudge : c.judge order t x r = .replace) :
    Tops c order s t (rs ++ [(r, t)]) (.reduce r) := by
  have hshift : (c.cell s t).held ∧
      (∀ r', (r', t) ∈ rs → (c.cell s t).judge (productionAt order r') = .keep) →
      (c.cell s t).judge (productionAt order r) = .replace →
      Tops c order s t (rs ++ [(r, t)]) (.reduce r) := by
    rintro ⟨hheld, hall⟩ hr
    refine ⟨mem_append_singleton_iff.2 (.inr rfl), fun _ => hr, fun r' hmem hne => ?_⟩
    exact .inl ⟨hheld, hall r' ((mem_append_singleton_iff.1 hmem).resolve_right hne)⟩
  cases x with
  | shift n => exact hshift h hjudge
  | accept => exact hshift h hjudge
  | error =>
    obtain ⟨hheld, hnone⟩ := h
    refine ⟨mem_append_singleton_iff.2 (.inr rfl), fun hh => absurd hh hheld, ?_⟩
    intro r' hmem hne
    exact absurd ((mem_append_singleton_iff.1 hmem).resolve_right hne) (hnone r')
  | reduce r₀ =>
    obtain ⟨-, hreplace, hall⟩ := h
    refine ⟨mem_append_singleton_iff.2 (.inr rfl),
      fun hheld => judgeShift_of_judgeReductions (hreplace hheld) hjudge, fun r' hmem hne => ?_⟩
    have hmem := (mem_append_singleton_iff.1 hmem).resolve_right hne
    by_cases hr : r' = r₀
    · exact .inr (hr ▸ hjudge)
    · exact (hall r' hmem hr).imp_right fun hbeats => Cell.Beats.trans hjudge hbeats

theorem kept_tops (ht : t < c.terminalCount)
    (hheld : (c.shifts s).getD t .error = .error ↔ ¬ (c.cell s t).held) :
    Kept c order s t (Tops c order s t) := by
  refine ⟨?_, Tops.skip, Tops.keep, Tops.replace⟩
  rcases (chosen_shifts c s).2 t ht with ⟨herr, -⟩ | hmem
  · rw [herr]
    exact ⟨hheld.1 herr, fun r hr => nomatch hr⟩
  · rcases mem_candidatesFrom.1 hmem with ⟨n, -, heq⟩ | ⟨-, -, heq⟩ | ⟨r, hr, -⟩
    · rw [heq] at hheld ⊢
      exact ⟨by simpa using hheld, fun r hr => nomatch hr⟩
    · rw [heq] at hheld ⊢
      exact ⟨by simpa using hheld, fun r hr => nomatch hr⟩
    · cases hr

/-- What has been chosen is the best of what has been considered, and a conflict comes up just where
nothing decides between it and a reduction. -/
theorem Tops.best (h : Tops c order s t rs x) :
    ∃ y, (c.cell s t).Best (fun p => ∃ r, (r, t) ∈ rs ∧ productionAt order r = p) y ∧
      ∀ r, (∃ kind, c.judge order t x r = .conflict kind) ↔
        (c.cell s t).Undecided y (productionAt order r) := by
  have hshift : ((c.cell s t).held ∧
      ∀ r, (r, t) ∈ rs → (c.cell s t).judge (productionAt order r) = .keep) →
      (c.cell s t).Best (fun p => ∃ r, (r, t) ∈ rs ∧ productionAt order r = p) none := by
    rintro ⟨hheld, hall⟩ _ ⟨r, hr, rfl⟩
    exact ⟨hheld, hall r hr⟩
  cases x with
  | shift n => exact ⟨none, hshift h, fun r => (and_iff_right h.1).symm⟩
  | accept => exact ⟨none, hshift h, fun r => (and_iff_right h.1).symm⟩
  | error =>
    obtain ⟨hheld, hnone⟩ := h
    refine ⟨none, fun _ ⟨r, hr, _⟩ => absurd hr (hnone r), fun r => ?_⟩
    exact iff_of_false (fun ⟨_, hkind⟩ => nomatch hkind) fun hundecided => hheld hundecided.1
  | reduce r₀ =>
    obtain ⟨hmem, hreplace, hall⟩ := h
    refine ⟨some (productionAt order r₀), ⟨⟨r₀, hmem, rfl⟩, hreplace, ?_⟩, fun r => Iff.rfl⟩
    rintro _ ⟨r, hr, rfl⟩ hne
    exact hall r hr fun heq => hne (heq ▸ rfl)

end Context

/-! ### The cells of an automaton -/

open Context

section
variable {g : Grammar} {G : Graph} {n t p r : Nat}

/-- The candidates for a cell of the table of an automaton. -/
def cellOf (g : Grammar) (G : Graph) (n t : Nat) : Cell := (ofGrammar g).cell (G.state n) t

/-- Before the reductions an entry is the error just where there is no shift or acceptance. -/
theorem shifts_eq_error_iff (h : IsAutomaton g G) (hg : g.WellFormed) (hn : n < G.size)
    (ht : t < g.terminals.size) :
    ((ofGrammar g).shifts (G.state n)).getD t .error = .error ↔ ¬ (cellOf g G n t).held := by
  have hcases := (chosen_shifts (ofGrammar g) (G.state n)).2 t ht
  constructor
  · rintro herr ⟨i, hi, hX⟩
    have hnil := (hcases.resolve_right fun hmem => ?_).2
    · by_cases hz : t = 0
      · subst hz
        have haccept : Act.accept ∈ (ofGrammar g).candidatesFrom (G.state n) [] 0 :=
          mem_candidatesFrom.2 (.inr (.inl ⟨rfl, itemsBefore_ne_nil_iff.2 ⟨i, hi, hX⟩, rfl⟩))
        rw [hnil] at haccept
        cases haccept
      · have hend : Symbol.terminal t ≠ .endOfInput := fun heq => hz (Symbol.terminal.inj heq)
        obtain ⟨m, hm, -⟩ := h.exists_transition hg hn hi hX hend
        have hshift : Act.shift m ∈ (ofGrammar g).candidatesFrom (G.state n) [] t :=
          mem_candidatesFrom.2 (.inl ⟨m, hm, rfl⟩)
        rw [hnil] at hshift
        cases hshift
    · rw [herr] at hmem
      rcases mem_candidatesFrom.1 hmem with ⟨m, -, heq⟩ | ⟨-, -, heq⟩ | ⟨r, -, heq⟩ <;> cases heq
  · intro hheld
    rcases hcases with ⟨herr, -⟩ | hmem
    · exact herr
    · exfalso
      rcases mem_candidatesFrom.1 hmem with ⟨m, hm, -⟩ | ⟨rfl, hne, -⟩ | ⟨r, hr, -⟩
      · obtain ⟨i, hi, -, hX, -⟩ := h.exists_leads_of_transition hm
        exact hheld ⟨i, hi, hX⟩
      · exact hheld (itemsBefore_ne_nil_iff.1 hne)
      · cases hr

/-- The reductions of a row are the candidates for its cells. -/
theorem mem_reductions_iff (h : IsAutomaton g G) (hg : g.WellFormed) (hn : n < G.size) :
    (r, t) ∈ (ofGrammar g).reductions (ofGrammar g).reductionOrder (G.state n) ↔
      ∃ p, (cellOf g G n t).reduces p ∧ r = (ofGrammar g).reductionOrder.idxOf p ∧
        productionAt (ofGrammar g).reductionOrder r = p := by
  have hground := h.grounded_elements hg hn
  rw [mem_reductions _ hground.proper.sorted]
  constructor
  · rintro ⟨i, hi, hc, ht, rfl⟩
    obtain ⟨q, hq, -⟩ := hground.item i hi
    exact ⟨i.production, ⟨i, hi, hc, ht, rfl⟩, rfl, productionAt_idxOf (mem_reductionOrder hg hq)⟩
  · rintro ⟨p, ⟨i, hi, hc, ht, rfl⟩, rfl, -⟩
    exact ⟨i, hi, hc, ht, rfl⟩

theorem exists_mem_reductions (h : IsAutomaton g G) (hg : g.WellFormed) (hn : n < G.size)
    (hp : (cellOf g G n t).reduces p) :
    ∃ r, (r, t) ∈ (ofGrammar g).reductions (ofGrammar g).reductionOrder (G.state n) ∧
      productionAt (ofGrammar g).reductionOrder r = p := by
  obtain ⟨i, hi, hc, ht, rfl⟩ := hp
  obtain ⟨q, hq, -⟩ := (h.grounded_elements hg hn).item i hi
  have hat := productionAt_idxOf (mem_reductionOrder hg hq)
  exact ⟨_, (mem_reductions_iff h hg hn).2 ⟨_, ⟨i, hi, hc, ht, rfl⟩, rfl, hat⟩, hat⟩

/-- The reductions on a terminal are considered in the order of their productions. -/
theorem pairwise_reductions (h : IsAutomaton g G) (hg : g.WellFormed) (hn : n < G.size) :
    ((ofGrammar g).reductions (ofGrammar g).reductionOrder (G.state n)).Pairwise fun e e' =>
      e.2 = e'.2 → productionAt (ofGrammar g).reductionOrder e.1 <
        productionAt (ofGrammar g).reductionOrder e'.1 := by
  have hground := h.grounded_elements hg hn
  have hat : ∀ e ∈ G.elements n, productionAt (ofGrammar g).reductionOrder
      ((ofGrammar g).reductionOrder.idxOf e.1.production) = e.1.production := by
    intro e he
    obtain ⟨q, hq, -⟩ := hground.item e.1 (ItemSet.mem_core_of_mem he)
    exact productionAt_idxOf (mem_reductionOrder hg hq)
  refine List.pairwise_flatMap.2 ⟨fun e he => ?_, ?_⟩
  · -- one item is a candidate only once on each terminal
    refine List.pairwise_map.2 ((NatSet.nodup_toList e.2).imp fun hne heq => ?_)
    exact absurd heq hne
  · have hsorted : (G.elements n).Sorted := hground.proper.sorted
    refine (List.Pairwise.and_mem.1 (hsorted.filter _)).imp ?_
    rintro e e' ⟨he, he', hbefore⟩ x hx y hy -
    obtain ⟨he, hc⟩ := List.mem_filter.1 he
    obtain ⟨he', hc'⟩ := List.mem_filter.1 he'
    obtain ⟨a, -, rfl⟩ := List.mem_map.1 hx
    obtain ⟨b, -, rfl⟩ := List.mem_map.1 hy
    rw [hat e he, hat e' he']
    -- of one production only one item is complete
    refine (Item.before_iff.1 hbefore).resolve_right fun ⟨heq, hlt⟩ => ?_
    have hmark := mark_eq_of_isComplete (hground.item _ (ItemSet.mem_core_of_mem he)) hc
    have hmark' := mark_eq_of_isComplete (hground.item _ (ItemSet.mem_core_of_mem he')) hc'
    have hprod : (ofGrammar g).production e.1 = (ofGrammar g).production e'.1 := by
      rw [Context.production, heq]
      rfl
    rw [hprod] at hmark
    omega

/-- When a reduction is considered, those of smaller productions have been considered. -/
theorem exists_mem_before_iff (h : IsAutomaton g G) (hg : g.WellFormed) (hn : n < G.size)
    {pre post : List (Nat × Nat)}
    (hsplit : (ofGrammar g).reductions (ofGrammar g).reductionOrder (G.state n) =
      pre ++ (r, t) :: post) {q : Nat} :
    (∃ r', (r', t) ∈ pre ∧ productionAt (ofGrammar g).reductionOrder r' = q) ↔
      (cellOf g G n t).reduces q ∧ q < productionAt (ofGrammar g).reductionOrder r := by
  have hpair := pairwise_reductions h hg hn
  rw [hsplit] at hpair
  obtain ⟨-, hpost, hpre⟩ := List.pairwise_append.1 hpair
  constructor
  · rintro ⟨r', hr', rfl⟩
    have hmem : (r', t) ∈ (ofGrammar g).reductions (ofGrammar g).reductionOrder (G.state n) := by
      rw [hsplit]
      exact List.mem_append_left _ hr'
    obtain ⟨p, hp, -, hat⟩ := (mem_reductions_iff h hg hn).1 hmem
    exact ⟨hat ▸ hp, hpre _ hr' _ (List.mem_cons_self ..) rfl⟩
  · rintro ⟨hq, hlt⟩
    obtain ⟨r', hr', rfl⟩ := exists_mem_reductions h hg hn hq
    refine ⟨r', ?_, rfl⟩
    rw [hsplit] at hr'
    rcases List.mem_append.1 hr' with hmem | hmem
    · exact hmem
    · rcases List.mem_cons.1 hmem with heq | hmem
      · cases heq
        exact absurd hlt (Nat.lt_irrefl _)
      · exact absurd ((List.pairwise_cons.1 hpost).1 _ hmem rfl) hlt.asymm

theorem kept_tops_ofGraph (h : IsAutomaton g G) (hg : g.WellFormed) (hn : n < G.size)
    (ht : t < g.terminals.size) :
    Kept (ofGrammar g) (ofGrammar g).reductionOrder (G.state n) t
      (Tops (ofGrammar g) (ofGrammar g).reductionOrder (G.state n) t) :=
  kept_tops ht (shifts_eq_error_iff h hg hn ht)

/-- A row without conflicts has found the best candidate for each cell. -/
theorem exists_best (h : IsAutomaton g G) (hg : g.WellFormed) (hn : n < G.size)
    (ht : t < g.terminals.size)
    (hnil : ((ofGrammar g).row (ofGrammar g).reductionOrder n (G.state n)).2 = []) :
    ∃ x, (cellOf g G n t).Best (cellOf g G n t).reduces x := by
  obtain ⟨x, hbest, -⟩ := ((kept_tops_ofGraph h hg hn ht).row hnil ht).best
  refine ⟨x, hbest.congr fun p => ⟨?_, fun hp => exists_mem_reductions h hg hn hp⟩⟩
  rintro ⟨r, hr, rfl⟩
  obtain ⟨p, hp, -, rfl⟩ := (mem_reductions_iff h hg hn).1 hr
  exact hp

/-- In a row without conflicts something decides between each reduction and the best candidate
before it. -/
theorem exists_best_before (h : IsAutomaton g G) (hg : g.WellFormed) (hn : n < G.size)
    (ht : t < g.terminals.size)
    (hnil : ((ofGrammar g).row (ofGrammar g).reductionOrder n (G.state n)).2 = [])
    (hp : (cellOf g G n t).reduces p) :
    ∃ x, (cellOf g G n t).Best (fun q => (cellOf g G n t).reduces q ∧ q < p) x ∧
      ¬ (cellOf g G n t).Undecided x p := by
  obtain ⟨r, hr, rfl⟩ := exists_mem_reductions h hg hn hp
  obtain ⟨pre, post, hsplit⟩ := List.append_of_mem hr
  obtain ⟨x, hx, hdecided⟩ := (kept_tops_ofGraph h hg hn ht).exists_judged hnil ht hsplit
  obtain ⟨y, hbest, hiff⟩ := hx.best
  refine ⟨y, hbest.congr fun q => exists_mem_before_iff h hg hn hsplit, fun hundecided => ?_⟩
  obtain ⟨kind, hkind⟩ := (hiff r).2 hundecided
  exact hdecided kind hkind

/-- In a row with a conflict nothing decides between some reduction and the best candidate before
it. -/
theorem exists_undecided (h : IsAutomaton g G) (hg : g.WellFormed) (hn : n < G.size)
    (hne : ((ofGrammar g).row (ofGrammar g).reductionOrder n (G.state n)).2 ≠ []) :
    ∃ t p x, (cellOf g G n t).reduces p ∧
      (cellOf g G n t).Best (fun q => (cellOf g G n t).reduces q ∧ q < p) x ∧
      (cellOf g G n t).Undecided x p := by
  obtain ⟨t, -, pre, r, post, x, kind, hsplit, hx, hkind⟩ :=
    exists_conflict (fun t ht => kept_tops_ofGraph h hg hn ht) hne
  obtain ⟨y, hbest, hiff⟩ := hx.best
  have hr : (r, t) ∈ (ofGrammar g).reductions (ofGrammar g).reductionOrder (G.state n) := by
    rw [hsplit]
    simp
  obtain ⟨p, hp, -, rfl⟩ := (mem_reductions_iff h hg hn).1 hr
  exact ⟨t, _, y, hp, hbest.congr fun q => exists_mem_before_iff h hg hn hsplit,
    (hiff r).1 ⟨kind, hkind⟩⟩

/-- A cell of the table has candidates that tie. -/
def Tied (g : Grammar) (G : Graph) : Prop := ∃ n < G.size, ∃ t, (cellOf g G n t).Tied

/-- A cell of the table has candidates that tie, and no third one beats both. -/
def OpenlyTied (g : Grammar) (G : Graph) : Prop := ∃ n < G.size, ∃ t, (cellOf g G n t).OpenlyTied

/-- A table has no conflicts if its rows have none. -/
theorem snd_ofGraph_eq_nil_iff : (ParseTable.ofGraph (ofGrammar g) G).2 = [] ↔
    ∀ n < G.size, ((ofGrammar g).row (ofGrammar g).reductionOrder n (G.state n)).2 = [] := by
  simp only [ParseTable.ofGraph, List.flatMap_eq_nil_iff]
  constructor
  · intro hnil n hn
    refine hnil _ (List.mem_of_getElem? (i := n) ?_)
    rw [List.getElem?_mapIdx, Array.getElem?_toList, Graph.getElem?_states hn]
    rfl
  · intro hnil row hrow
    obtain ⟨n, hn, rfl⟩ := List.mem_mapIdx.1 hrow
    have hlt : n < G.size := by simpa [Graph.size] using hn
    have hs := Graph.getElem?_states hlt
    rw [← Array.getElem?_toList, List.getElem?_eq_getElem hn] at hs
    rw [Option.some.inj hs]
    exact hnil n hlt

/-- Candidates tie on terminals only. -/
theorem lt_of_tied (h : IsAutomaton g G) (hg : g.WellFormed) (hn : n < G.size)
    (htied : (cellOf g G n t).Tied) : t < g.terminals.size := by
  obtain ⟨p, i, -, -, ht, -⟩ := htied.exists_reduces
  exact (h.grounded_elements hg hn).proper.bounded i t ht

theorem exists_row_of_conflict (hne : (ParseTable.ofGraph (ofGrammar g) G).2 ≠ []) :
    ∃ n < G.size, ((ofGrammar g).row (ofGrammar g).reductionOrder n (G.state n)).2 ≠ [] := by
  rw [ne_eq, snd_ofGraph_eq_nil_iff] at hne
  push Not at hne
  exact hne

/-- **Only ties are conflicts.** -/
theorem tied_of_conflict (h : IsAutomaton g G) (hg : g.WellFormed)
    (hne : (ParseTable.ofGraph (ofGrammar g) G).2 ≠ []) : Tied g G := by
  obtain ⟨n, hn, hrow⟩ := exists_row_of_conflict hne
  obtain ⟨t, p, x, hp, hbest, hundecided⟩ := exists_undecided h hg hn hrow
  exact ⟨n, hn, t, hbest.tied hp hundecided⟩

/-- **Open ties are conflicts.** -/
theorem conflict_of_openlyTied (h : IsAutomaton g G) (hg : g.WellFormed) (htied : OpenlyTied g G) :
    (ParseTable.ofGraph (ofGrammar g) G).2 ≠ [] := by
  obtain ⟨n, hn, t, htied⟩ := htied
  intro hnil
  obtain ⟨x, hbest⟩ :=
    exists_best h hg hn (lt_of_tied h hg hn htied.tied) (snd_ofGraph_eq_nil_iff.1 hnil n hn)
  exact hbest.not_openlyTied htied

/-- **All ties are conflicts where the ranks of the productions rise.** -/
theorem conflict_of_tied_of_rising (h : IsAutomaton g G) (hg : g.WellFormed)
    (hrising : Rising (ofGrammar g).precedence) (htied : Tied g G) :
    (ParseTable.ofGraph (ofGrammar g) G).2 ≠ [] := by
  obtain ⟨n, hn, t, htied⟩ := htied
  intro hnil
  have hrow := snd_ofGraph_eq_nil_iff.1 hnil n hn
  have ht := lt_of_tied h hg hn htied
  exact htied.exists_undecided hrising (exists_best h hg hn ht hrow) fun p hp =>
    exists_best_before h hg hn ht hrow hp

/-- **Only open ties are conflicts where the ranks fall.** -/
theorem openlyTied_of_conflict_of_falling (h : IsAutomaton g G) (hg : g.WellFormed)
    (hfalling : Falling (ofGrammar g).precedence)
    (hne : (ParseTable.ofGraph (ofGrammar g) G).2 ≠ []) : OpenlyTied g G := by
  obtain ⟨n, hn, hrow⟩ := exists_row_of_conflict hne
  obtain ⟨t, p, x, hp, hbest, hundecided⟩ := exists_undecided h hg hn hrow
  exact ⟨n, hn, t, hbest.openlyTied hfalling hp hundecided⟩

end

end LexParse.Lr
