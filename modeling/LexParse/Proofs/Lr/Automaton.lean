import LexParse.Proofs.Lr.Construction

/-!
# Reading the automaton

What later proofs use of an automaton of a grammar, item by item. Moving forward, an item with a
symbol behind its mark has a transition over the symbol, to a state with the mark moved and no
lookahead lost. Moving back, every item with a moved mark comes from one in each state before.

## What is proved

* `IsAutomaton.exists_transition`, `IsAutomaton.exists_of_transition`: the two directions.
* `IsAutomaton.exists_path_of_situation`: where a nonterminal is needed after some symbols, these
  symbols spell a path from the first state to one in which its productions begin, with every
  terminal that can follow there as a lookahead.
* `IsAutomaton.exists_kernel_item`: what can come next in a state can come next behind the mark of
  an item of its kernel.
-/

namespace LexParse.Lr

open Context

variable {g : Grammar} {G : Graph} {n m k p : Nat} {X : Symbol} {i j : Item} {a : Nat}

/-- The end of the input stands behind the mark in the production of the whole input only. -/
theorem eq_whole_of_next? (hg : g.WellFormed) (hi : IsItem g i)
    (hX : (ofGrammar g).next? i = some .endOfInput) : i = ⟨0, 1⟩ := by
  obtain ⟨p, m⟩ := i
  obtain ⟨q, hq, -⟩ := hi
  have hmem : .endOfInput ∈ q.right := by
    rw [← production_eq_of_getElem? (i := ⟨p, m⟩) hq, right_eq_of_next? hX]
    simp
  cases p with
  | succ p => exact absurd hmem (hg.end_notMem q (List.mem_of_getElem? (i := p) hq))
  | zero =>
    have hlt := mark_lt_of_next? hX
    have hprod : (ofGrammar g).production ⟨0, m⟩ = g.wholeInput := rfl
    rw [hprod] at hlt
    match m, hlt with
    | 0, _ => simp [next?, behind, hprod, Grammar.wholeInput, Symbol.endOfInput] at hX
    | 1, _ => rfl

namespace IsAutomaton

theorem grounded_elements (h : IsAutomaton g G) (hg : g.WellFormed) (hn : n < G.size) :
    Grounded g (G.elements n) := by
  rw [(h.expanded n hn).elements]
  exact grounded_closure hg (h.grounded n hn)

/-- The elements of a state are closed. -/
theorem closed (h : IsAutomaton g G) (hg : g.WellFormed) (hn : n < G.size) :
    Closed g (· ∈ (G.elements n).core) fun i a => a ∈ (G.elements n).lookaheads i := by
  rw [(h.expanded n hn).elements]
  exact closed_closure hg (h.grounded n hn).proper

theorem mem_elements_of_mem_kernel (h : IsAutomaton g G) (hn : n < G.size)
    (hi : i ∈ (G.kernel n).core) : i ∈ (G.elements n).core := by
  rw [(h.expanded n hn).elements]
  exact mem_core_closure_of_mem (h.grounded n hn).proper hi

theorem mem_lookaheads_of_mem_kernel (h : IsAutomaton g G) (hn : n < G.size)
    (ha : a ∈ (G.kernel n).lookaheads i) : a ∈ (G.elements n).lookaheads i := by
  rw [(h.expanded n hn).elements]
  exact mem_lookaheads_closure_of_mem (h.grounded n hn).proper ha

/-- The first state has the item of the whole input. -/
theorem mem_elements_first (h : IsAutomaton g G) : ⟨0, 0⟩ ∈ (G.elements 0).core := by
  refine h.mem_elements_of_mem_kernel h.pos ?_
  rw [h.first]
  exact List.mem_singleton.2 rfl

/-- An item with a moved mark belongs to the kernel. -/
theorem mem_kernel_of_mark_pos (h : IsAutomaton g G) (hg : g.WellFormed) (hn : n < G.size)
    (hi : i ∈ (G.elements n).core) (hmark : 0 < i.mark) : i ∈ (G.kernel n).core := by
  rw [(h.expanded n hn).elements] at hi
  rcases mem_core_closure hg (h.grounded n hn).proper hi with hi | ⟨hz, -⟩
  · exact hi
  · omega

/-- What a transition leads to. -/
theorem isGoto_of_transition (h : IsAutomaton g G) (hg : g.WellFormed)
    (ht : (X, m) ∈ G.transitions n) :
    ∃ K, IsGoto (ofGrammar g) (G.elements n) X K ∧ Graph.Target .merged G m K := by
  have hn := Graph.lt_size_of_mem_transitions ht
  obtain ⟨⟨Y, K⟩, hK, hY, htarget⟩ := exists_mem_of_forall₂ (h.expanded n hn).transitions ht
  obtain rfl : X = Y := hY
  exact ⟨K, isGoto_of_mem_gotos (h.grounded_elements hg hn).proper.sorted hK, htarget⟩

theorem lt_of_transition (h : IsAutomaton g G) (hg : g.WellFormed)
    (ht : (X, m) ∈ G.transitions n) : 0 < m ∧ m < G.size := by
  obtain ⟨K, -, htarget⟩ := h.isGoto_of_transition hg ht
  exact ⟨htarget.pos, htarget.lt⟩

/-- No two transitions of a state are over one symbol. -/
theorem nodup_transitions (h : IsAutomaton g G) (hn : n < G.size) :
    ((G.transitions n).map (·.1)).Nodup := by
  have hkeys : (G.transitions n).map (·.1) = ((ofGrammar g).gotos (G.elements n)).map (·.1) :=
    map_eq_of_forall₂ (h.expanded n hn).transitions fun _ _ hk => hk.1
  exact hkeys ▸ nodup_gotos _ _

/-- There is one transition over a symbol. -/
theorem transition_unique (h : IsAutomaton g G) (ht : (X, m) ∈ G.transitions n)
    (ht' : (X, k) ∈ G.transitions n) : m = k := by
  have hnodup := h.nodup_transitions (Graph.lt_size_of_mem_transitions ht)
  have heq := List.inj_on_of_nodup_map hnodup ht ht' rfl
  exact congrArg Prod.snd heq

/-- **Forward.** An item with a symbol behind its mark has a transition over that symbol, and keeps
its lookaheads there. -/
theorem exists_transition (h : IsAutomaton g G) (hg : g.WellFormed) (hn : n < G.size)
    (hi : i ∈ (G.elements n).core) (hX : (ofGrammar g).next? i = some X) (hend : X ≠ .endOfInput) :
    ∃ m, (X, m) ∈ G.transitions n ∧ i.advance ∈ (G.elements m).core ∧
      ∀ a, a ∈ (G.elements n).lookaheads i → a ∈ (G.elements m).lookaheads i.advance := by
  obtain ⟨K, hK⟩ := exists_mem_gotos hi (⟨hend, hX, rfl⟩ : Leads (ofGrammar g) i X i.advance)
  obtain ⟨⟨Y, m⟩, ht, hY, htarget⟩ := exists_mem_of_forall₂ (h.expanded n hn).transitions.flip hK
  obtain rfl : Y = X := hY
  have hgoto := isGoto_of_mem_gotos (h.grounded_elements hg hn).proper.sorted hK
  refine ⟨m, ht, h.mem_elements_of_mem_kernel htarget.lt ?_, fun a ha => ?_⟩
  · rw [htarget.covers.core]
    exact (hgoto.core _).2 ⟨i, hi, hend, hX, rfl⟩
  · refine h.mem_lookaheads_of_mem_kernel htarget.lt (htarget.covers.lookaheads _ a ?_)
    exact (hgoto.lookaheads _ a).2 ⟨i, ha, hend, hX, rfl⟩

/-- **Back.** An item with a moved mark comes from one in each state with a transition to it. -/
theorem exists_of_transition (h : IsAutomaton g G) (hg : g.WellFormed)
    (ht : (X, m) ∈ G.transitions n) (hj : j ∈ (G.elements m).core) (hmark : 0 < j.mark) :
    ∃ i ∈ (G.elements n).core, (ofGrammar g).next? i = some X ∧ j = i.advance := by
  obtain ⟨K, hgoto, htarget⟩ := h.isGoto_of_transition hg ht
  have hjK := h.mem_kernel_of_mark_pos hg htarget.lt hj hmark
  rw [htarget.covers.core] at hjK
  obtain ⟨i, hi, -, hX, hadv⟩ := (hgoto.core j).1 hjK
  exact ⟨i, hi, hX, hadv⟩

/-- A transition leads over a symbol behind a mark, and that is not the end of the input. -/
theorem exists_leads_of_transition (h : IsAutomaton g G) (ht : (X, m) ∈ G.transitions n) :
    ∃ i ∈ (G.elements n).core, Leads (ofGrammar g) i X i.advance := by
  have hn := Graph.lt_size_of_mem_transitions ht
  obtain ⟨⟨Y, K⟩, hK, hY, -⟩ := exists_mem_of_forall₂ (h.expanded n hn).transitions ht
  obtain rfl : X = Y := hY
  exact exists_leads_of_mem_gotos hK

theorem within_of_transition (h : IsAutomaton g G) (hg : g.WellFormed)
    (ht : (X, m) ∈ G.transitions n) : X.Within g.nonterminals.size g.terminals.size := by
  obtain ⟨i, -, -, hX, -⟩ := h.exists_leads_of_transition ht
  refine within_behind hg i X ?_
  rw [behind_eq_of_next? hX]
  exact List.mem_cons_self ..

/-- Where a production other than that of the whole input begins, there is a transition over its
left side. -/
theorem exists_transition_of_start (h : IsAutomaton g G) (hg : g.WellFormed) (hn : n < G.size)
    {q : Production} (hp : ⟨p, 0⟩ ∈ (G.elements n).core) (hne : p ≠ 0)
    (hq : g.augmented[p]? = some q) : ∃ m, (.nonterminal q.left, m) ∈ G.transitions n := by
  have hp' := hp
  rw [(h.expanded n hn).elements] at hp'
  rcases mem_core_closure hg (h.grounded n hn).proper hp' with hk | ⟨-, j, k, hj, hX, hder⟩
  · -- no other production begins in a kernel
    rcases Nat.eq_zero_or_pos n with rfl | hpos
    · rw [h.first] at hk
      exact absurd (congrArg Item.production (List.mem_singleton.1 hk)) hne
    · exact absurd (h.later n hn hpos _ hk) (Nat.lt_irrefl 0)
  · rw [← (h.expanded n hn).elements] at hj
    obtain ⟨q', hq', rfl⟩ := (mem_derivationsOf_iff hg).1 hder
    obtain rfl : q = q' := Option.some.inj (hq.symm.trans hq')
    obtain ⟨m, ht, -⟩ := h.exists_transition hg hn hj hX nofun
    exact ⟨m, ht⟩

/-! ### Demands of a state -/

/-- The productions of a nonterminal begin in the state, with a terminal among their lookaheads. -/
def Demands (g : Grammar) (G : Graph) (n m a : Nat) : Prop :=
  ∀ p ∈ (ofGrammar g).derivationsOf m, ⟨p, 0⟩ ∈ (G.elements n).core ∧
    a ∈ (G.elements n).lookaheads ⟨p, 0⟩

/-- An item demands the productions of the nonterminal behind its mark. -/
theorem demands_of_next? (h : IsAutomaton g G) (hg : g.WellFormed) (hn : n < G.size)
    (hi : i ∈ (G.elements n).core) (hX : (ofGrammar g).next? i = some (.nonterminal m))
    (ha : Ahead g.augmented ((ofGrammar g).behind i.advance)
      (· ∈ (G.elements n).lookaheads i) a) : Demands g G n m a := by
  intro p hp
  have hcl := h.closed hg hn
  refine ⟨hcl.item hi hX hp, hcl.lookahead hi hX hp ?_⟩
  rwa [behind_eq_of_next? hX, List.tail_cons]

/-! ### Paths -/

theorem path_append {u v : List Symbol} (h : Path G n u m) (h' : Path G m v k) :
    Path G n (u ++ v) k := by
  induction h with
  | nil => exact h'
  | cons ht _ ih => exact .cons ht (ih h')

theorem lt_of_path (h : IsAutomaton g G) (hg : g.WellFormed) {u : List Symbol}
    (hpath : Path G n u m) (hn : n < G.size) : m < G.size := by
  induction hpath with
  | nil => exact hn
  | cons ht _ ih => exact ih (h.lt_of_transition hg ht).2

/-- An item with a moved mark comes from one in the state where the mark was at a place before. -/
theorem mem_core_of_path (h : IsAutomaton g G) (hg : g.WellFormed) {u : List Symbol}
    (hpath : Path G n u m) (hi : ⟨p, k + u.length⟩ ∈ (G.elements m).core) :
    ⟨p, k⟩ ∈ (G.elements n).core := by
  induction hpath generalizing k with
  | nil => exact hi
  | cons ht _ ih =>
    rw [List.length_cons, Nat.add_comm _ 1, ← Nat.add_assoc] at hi
    obtain ⟨i, hi, -, hadv⟩ := h.exists_of_transition hg ht (ih hi) (Nat.succ_pos k)
    obtain rfl : ⟨p, k⟩ = i := Item.advance_injective hadv
    exact hi

/-- From an item a path leads over all but the end of what stands behind the mark. -/
theorem exists_path_of_behind (h : IsAutomaton g G) (hg : g.WellFormed) {u v : List Symbol}
    (hn : n < G.size) (hi : i ∈ (G.elements n).core) (hu : (ofGrammar g).behind i = u ++ v)
    (hend : .endOfInput ∉ u) :
    ∃ m < G.size, Path G n u m ∧ ⟨i.production, i.mark + u.length⟩ ∈ (G.elements m).core ∧
      ∀ a, a ∈ (G.elements n).lookaheads i →
        a ∈ (G.elements m).lookaheads ⟨i.production, i.mark + u.length⟩ := by
  induction u generalizing n i with
  | nil => exact ⟨n, hn, .nil n, hi, fun _ ha => ha⟩
  | cons X u ih =>
    have hX := next?_of_behind hu
    obtain ⟨hne, hend⟩ := not_or.1 (mt List.mem_cons.2 hend)
    obtain ⟨m, ht, hadv, hlas⟩ := h.exists_transition hg hn hi hX (Ne.symm hne)
    have hbehind : (ofGrammar g).behind i.advance = u ++ v := by
      rw [behind_eq_of_next? hX] at hu
      exact (List.cons.inj hu).2
    obtain ⟨k, hk, hpath, hik, hlas'⟩ := ih (h.lt_of_transition hg ht).2 hadv hbehind hend
    have hmark : i.advance.mark + u.length = i.mark + (X :: u).length := by
      simp only [Item.advance, List.length_cons]
      omega
    rw [hmark] at hik hlas'
    exact ⟨k, hk, .cons ht hpath, hik, fun a ha => hlas' a (hlas a ha)⟩

/-- The end of the input stands only at the end of the production of the whole input. -/
theorem end_notMem_of_right_eq (hg : g.WellFormed) {q : Production} (hq : q ∈ g.augmented)
    {u v : List Symbol} (h : q.right = u ++ .nonterminal m :: v) : .endOfInput ∉ u := by
  intro hmem
  rcases List.mem_cons.1 hq with rfl | hq
  · cases u with
    | nil => cases hmem
    | cons X u =>
      have hlen := congrArg List.length h
      have hnil : u = [] :=
        List.eq_nil_of_length_eq_zero (by simp [Grammar.wholeInput] at hlen; omega)
      subst hnil
      simp [Grammar.wholeInput, Symbol.endOfInput] at h
  · exact hg.end_notMem q hq (h ▸ List.mem_append_left _ hmem)

/-- **Where a nonterminal is needed, a path leads to its productions.** -/
theorem exists_path_of_situation (h : IsAutomaton g G) (hg : g.WellFormed)
    {before after : List Symbol} (hs : Situation g.augmented before m after) :
    ∃ n < G.size, Path G 0 before n ∧
      (∀ p ∈ (ofGrammar g).derivationsOf m, ⟨p, 0⟩ ∈ (G.elements n).core) ∧
      ∀ a, Begins g.augmented after a → Demands g G n m a := by
  induction hs with
  | whole =>
    refine ⟨0, h.pos, .nil 0, fun p hp => ?_, fun a ha => nomatch ha⟩
    obtain ⟨q, hq, hleft⟩ := (mem_derivationsOf_iff hg).1 hp
    have hp : p = 0 := by
      cases p with
      | zero => rfl
      | succ p =>
        have := hg.left_pos q (List.mem_of_getElem? (i := p) hq)
        omega
    exact hp ▸ h.mem_elements_first
  | @inside before after u v left m q _ hq hleft hright ih =>
    obtain ⟨n, hn, hpath, hcore, hdemands⟩ := ih
    obtain ⟨k, hk⟩ := List.mem_iff_getElem?.1 hq
    have hk' : k ∈ (ofGrammar g).derivationsOf left := (mem_derivationsOf_iff hg).2 ⟨q, hk, hleft⟩
    have hbehind := (behind_start hk).trans hright
    obtain ⟨n', hn', hpath', hitem, hlas⟩ := h.exists_path_of_behind hg hn (hcore k hk') hbehind
      (end_notMem_of_right_eq hg hq hright)
    have hnext := behind_add hbehind
    have hX := next?_of_behind hnext
    have hv : (ofGrammar g).behind (Item.advance ⟨k, 0 + u.length⟩) = v := by
      rw [behind_eq_of_next? hX] at hnext
      exact (List.cons.inj hnext).2
    refine ⟨n', hn', path_append hpath hpath', fun p hp => ?_, fun a ha => ?_⟩
    · exact (h.closed hg hn').item hitem hX hp
    · refine h.demands_of_next? hg hn' hitem hX ?_
      rw [hv]
      rcases begins_append_iff.1 ha with hb | ⟨hvan, hb⟩
      · exact .inl hb
      · exact .inr ⟨hvan, hlas a (hdemands a hb k hk').2⟩

/-- **What can come next in a state can come next in its kernel.** -/
theorem exists_kernel_item (h : IsAutomaton g G) (hg : g.WellFormed) (hn : n < G.size)
    (hj : j ∈ (G.elements n).core)
    (ha : Ahead g.augmented ((ofGrammar g).behind j) (· ∈ (G.elements n).lookaheads j) a) :
    ∃ i ∈ (G.kernel n).core,
      Ahead g.augmented ((ofGrammar g).behind i) (· ∈ (G.kernel n).lookaheads i) a := by
  let P (b : Nat) : Prop := ∃ i ∈ (G.kernel n).core,
    Ahead g.augmented ((ofGrammar g).behind i) (· ∈ (G.kernel n).lookaheads i) b
  -- what an item begins with, and what follows it where the rest of it vanishes, is told by P
  let M (i : Item) : Prop := ∀ b, Begins g.augmented ((ofGrammar g).behind i) b → P b
  let F (i : Item) (b : Nat) : Prop := Vanishes g.augmented ((ofGrammar g).behind i) → P b
  have hright : ∀ {m p}, p ∈ (ofGrammar g).derivationsOf m →
      ∃ q ∈ g.augmented, q.left = m ∧ (ofGrammar g).behind ⟨p, 0⟩ = q.right := by
    intro m p hp
    obtain ⟨q, hq, hleft⟩ := (mem_derivationsOf_iff hg).1 hp
    exact ⟨q, List.mem_of_getElem? hq, hleft, behind_start hq⟩
  have hclosed : Closed g M F := by
    refine ⟨fun {i m p} hi hX hp b hb => ?_, fun {i m p b} hi hX hp hb hvan => ?_⟩
    · obtain ⟨q, hq, rfl, heq⟩ := hright hp
      refine hi b ?_
      rw [behind_eq_of_next? hX]
      exact .inside hq (heq ▸ hb)
    · obtain ⟨q, hq, rfl, heq⟩ := hright hp
      have hnull : Vanishes g.augmented [.nonterminal q.left] := .cons hq (heq ▸ hvan) .nil
      rw [behind_eq_of_next? hX, List.tail_cons] at hb
      rcases hb with hb | ⟨hv, hF⟩
      · refine hi b ?_
        rw [behind_eq_of_next? hX]
        exact .behind hnull hb
      · refine hF ?_
        rw [behind_eq_of_next? hX]
        exact vanishes_cons_iff.2 ⟨hnull, hv⟩
  obtain ⟨hM, hF⟩ := closure_least hg (h.grounded n hn).proper hclosed
    (fun i hi b hb => ⟨i, hi, .inl hb⟩)
    fun i b hb hvan => ⟨i, ItemSet.mem_core_of_mem_lookaheads hb, .inr ⟨hvan, hb⟩⟩
  rw [(h.expanded n hn).elements] at hj ha
  rcases ha with hb | ⟨hvan, hl⟩
  · exact hM j hj a hb
  · exact hF j a hl hvan

/-- The item of the whole input with its mark at the start is found in the first state only. -/
theorem eq_zero_of_whole_mem (h : IsAutomaton g G) (hg : g.WellFormed) (hn : n < G.size)
    (hm : ⟨0, 0⟩ ∈ (G.elements n).core) : n = 0 := by
  by_contra hne
  let M (i : Item) : Prop := i.production ≠ 0 ∨ 0 < i.mark
  have hclosed : Closed g M fun _ _ => True := by
    refine ⟨fun {i m p} hi hX hp => ?_, fun _ _ _ _ => trivial⟩
    by_contra hp0
    obtain rfl : p = 0 := by simpa [M] using hp0
    obtain ⟨q, hq, hleft⟩ := (mem_derivationsOf_iff hg).1 hp
    obtain rfl : g.wholeInput = q := by simpa [Grammar.augmented] using hq
    obtain rfl : 0 = m := hleft
    -- the origin stands behind a mark only at the start of the production of the whole input
    have hmem : Symbol.origin ∈ ((ofGrammar g).production i).right := by
      rw [right_eq_of_next? hX]
      simp [Symbol.origin]
    rw [production_eq] at hmem
    rcases Nat.eq_zero_or_pos i.production with hz | hpos
    · have hmark := hi.resolve_left (by simpa using hz)
      have hlt := mark_lt_of_next? hX
      have hprod : (ofGrammar g).production i = g.wholeInput :=
        production_eq_of_getElem? (by rw [hz]; rfl)
      have hone : i.mark = 1 := by
        simp [hprod, Grammar.wholeInput] at hlt
        omega
      simp [next?, behind, hprod, hone, Grammar.wholeInput, Symbol.endOfInput] at hX
    · obtain ⟨k, hk⟩ : ∃ k, i.production = k + 1 := ⟨_, (Nat.succ_pred_eq_of_pos hpos).symm⟩
      rw [hk] at hmem
      cases hq : g.augmented[k + 1]? with
      | none =>
        rw [hq] at hmem
        cases hmem
      | some q =>
        rw [hq] at hmem
        exact hg.origin_notMem q (List.mem_of_getElem? (i := k) hq) hmem
  have hM := (closure_least hg (h.grounded n hn).proper hclosed
    (fun i hi => .inr (h.later n hn (Nat.pos_of_ne_zero hne) i hi)) fun _ _ _ => trivial).1
  rw [(h.expanded n hn).elements] at hm
  rcases hM _ hm with hp | hmark
  · exact hp rfl
  · exact absurd hmark (Nat.lt_irrefl 0)

end IsAutomaton

end LexParse.Lr
