import LexParse.Proofs.Lr.Candidates

/-!
# What the precedences have decided

Where a state calls for a shift and for reductions on one terminal, the entry of the cell is found
by comparing them one after the other. Without a conflict every comparison has an outcome, and the
entry tells of all of them at once. A shift that is left has been kept against each reduction. A
reduction that is left would itself replace the shift, although it may have been compared with
another reduction instead: what was replaced on the way was replaced by a reduction of a higher
level.

## What is proved

* `judgeShift_eq_keep_iff`, `judgeShift_eq_replace_iff`: what the two outcomes say of the levels.
* `Context.Kept.row`: what every comparison keeps holds of the entries in a row without conflicts.
* `Context.row_prevails`: in such a row every entry prevails over what it has been compared with.
* `weighed_ofGraph`: the same of a whole table, said of the items that compete.
-/

namespace LexParse.Lr

/-! ### Outcomes of a comparison -/

section
variable {x y : Precedence} {terminal old new : Option Precedence}

theorem judgeShift_eq_keep_iff : judgeShift (some x) (some y) = .keep ↔
    y.level < x.level ∨ y.level = x.level ∧ y.assoc = .right := by
  rw [judgeShift]
  rcases lt_trichotomy x.level y.level with h | h | h
  · simp [h, h.not_gt, h.ne']
  · cases y.assoc <;> simp [h]
  · simp [h, h.not_gt]

theorem judgeShift_eq_replace_iff : judgeShift (some x) (some y) = .replace ↔
    x.level < y.level ∨ x.level = y.level ∧ y.assoc = .left := by
  rw [judgeShift]
  rcases lt_trichotomy x.level y.level with h | h | h
  · simp [h]
  · cases y.assoc <;> simp [h]
  · simp [h, h.not_gt, h.ne']

theorem judgeReductions_eq_replace_iff : judgeReductions old new = .replace ↔
    ∃ x y, old = some x ∧ new = some y ∧ x.level < y.level := by
  rcases old with _ | x
  · simp [judgeReductions]
  · rcases new with _ | y
    · simp [judgeReductions]
    · simp only [judgeReductions, Option.some.injEq]
      split
      · simp [*]
      · split <;> simp [*]

/-- What replaces a reduction that replaces the shift would replace the shift itself. -/
theorem judgeShift_of_judgeReductions (h : judgeShift terminal old = .replace)
    (h' : judgeReductions old new = .replace) : judgeShift terminal new = .replace := by
  obtain ⟨y, z, rfl, rfl, hlt⟩ := judgeReductions_eq_replace_iff.1 h'
  rcases terminal with _ | x
  · cases h
  · rw [judgeShift_eq_replace_iff] at h ⊢
    exact .inl (by omega)

end

/-! ### Entries -/

namespace Context

variable {c : Context} {order : List Nat} {s : State} {number t : Nat} {rs : List (Nat × Nat)}

/-- Compare a reduction with the shift over a terminal. -/
def judgeAt (c : Context) (order : List Nat) (t r : Nat) : Verdict :=
  judgeShift (c.grammar.terminalPrecedence t) (c.precedence (productionAt order r))

/-- An entry has been compared with some reductions: a shift has been kept against all of them, and
a reduction would replace the shift there is. -/
def Prevails (c : Context) (order : List Nat) (s : State) (rs : List (Nat × Nat)) (t : Nat) :
    Act Nat → Prop
  | .shift _ | .accept => ∀ r, (r, t) ∈ rs → c.judgeAt order t r = .keep
  | .reduce r => (∃ n, (.terminal t, n) ∈ s.transitions) → c.judgeAt order t r = .replace
  | .error => ¬ ∃ n, (.terminal t, n) ∈ s.transitions

/-- Before any reduction there is nothing to prevail over. -/
theorem prevails_shifts (ht : t < c.terminalCount) :
    Prevails c order s [] t ((c.shifts s).getD t .error) := by
  rcases (chosen_shifts c s).2 t ht with ⟨herr, hnil⟩ | hmem
  · rw [herr]
    rintro ⟨n, hn⟩
    have hshift : .shift n ∈ c.candidatesFrom s [] t := mem_candidatesFrom.2 (.inl ⟨n, hn, rfl⟩)
    rw [hnil] at hshift
    cases hshift
  · rcases mem_candidatesFrom.1 hmem with ⟨n, -, heq⟩ | ⟨-, -, heq⟩ | ⟨r, hr, -⟩
    · rw [heq]
      exact fun r hr => nomatch hr
    · rw [heq]
      exact fun r hr => nomatch hr
    · cases hr

/-- A reduction on another terminal does not matter. -/
theorem Prevails.skip {x : Act Nat} {e : Nat × Nat} (h : Prevails c order s rs t x)
    (he : e.2 ≠ t) : Prevails c order s (rs ++ [e]) t x := by
  have hmem : ∀ r, (r, t) ∈ rs ++ [e] → (r, t) ∈ rs := by
    intro r hr
    rcases List.mem_append.1 hr with hr | hr
    · exact hr
    · exact absurd (congrArg Prod.snd (List.mem_singleton.1 hr)).symm he
  cases x with
  | shift n => exact fun r hr => h r (hmem r hr)
  | accept => exact fun r hr => h r (hmem r hr)
  | reduce r => exact h
  | error => exact h

/-- An entry that is kept against a reduction. -/
theorem Prevails.keep {x : Act Nat} {r : Nat} (h : Prevails c order s rs t x)
    (hjudge : c.judge order t x r = .keep) : Prevails c order s (rs ++ [(r, t)]) t x := by
  have hall : (∀ r, (r, t) ∈ rs → c.judgeAt order t r = .keep) →
      c.judgeAt order t r = .keep → ∀ r', (r', t) ∈ rs ++ [(r, t)] →
        c.judgeAt order t r' = .keep := by
    intro hrs hr r' hmem
    rcases List.mem_append.1 hmem with hmem | hmem
    · exact hrs r' hmem
    · cases List.mem_singleton.1 hmem
      exact hr
  cases x with
  | shift n => exact hall h hjudge
  | accept => exact hall h hjudge
  | reduce r => exact h
  | error => exact h

/-- A reduction that replaces the entry prevails in its place. -/
theorem Prevails.replace {x : Act Nat} {r : Nat} (h : Prevails c order s rs t x)
    (hjudge : c.judge order t x r = .replace) :
    Prevails c order s (rs ++ [(r, t)]) t (.reduce r) := by
  intro htransition
  cases x with
  | shift n => exact hjudge
  | accept => exact hjudge
  | reduce old => exact judgeShift_of_judgeReductions (h htransition) hjudge
  | error => exact absurd htransition h

/-! ### What is kept about an entry -/

/-- A property of the entry of a cell that is kept while reductions are considered without a
conflict, said of those considered so far. -/
structure Kept (c : Context) (order : List Nat) (s : State) (t : Nat)
    (P : List (Nat × Nat) → Act Nat → Prop) : Prop where
  /-- It holds before any reduction is considered. -/
  start : P [] ((c.shifts s).getD t .error)
  /-- A reduction on another terminal does not matter. -/
  skip : ∀ {rs x e}, P rs x → e.2 ≠ t → P (rs ++ [e]) x
  /-- The entry is kept against a reduction. -/
  keep : ∀ {rs x r}, P rs x → c.judge order t x r = .keep → P (rs ++ [(r, t)]) x
  /-- A reduction replaces the entry. -/
  replace : ∀ {rs x r}, P rs x → c.judge order t x r = .replace → P (rs ++ [(r, t)]) (.reduce r)

variable {P : List (Nat × Nat) → Act Nat → Prop}

theorem Kept.consider (h : Kept c order s t P) {st : Array (Act Nat) × List Conflict}
    (e : Nat × Nat) (hsize : st.1.size = c.terminalCount) (ht : t < c.terminalCount)
    (hP : P rs (st.1.getD t .error)) (hnil : (c.consider order number s st e).2 = []) :
    P (rs ++ [e]) ((c.consider order number s st e).1.getD t .error) := by
  obtain ⟨r, t'⟩ := e
  simp only [Context.consider] at hnil ⊢
  cases hjudge : c.judge order t' (st.1.getD t' .error) r with
  | conflict kind =>
    rw [hjudge] at hnil
    simp at hnil
  | keep =>
    by_cases htt : t' = t
    · subst htt
      exact h.keep hP hjudge
    · exact h.skip hP htt
  | replace =>
    dsimp only
    by_cases htt : t' = t
    · subst htt
      have hnew : (st.1.setIfInBounds t' (.reduce r)).getD t' .error = .reduce r := by
        simp [hsize, ht]
      rw [hnew]
      exact h.replace hP hjudge
    · have hsame : (st.1.setIfInBounds t' (.reduce r)).getD t .error = st.1.getD t .error := by
        simp [htt]
      rw [hsame]
      exact h.skip hP htt

/-- Conflicts that have been found are not forgotten. -/
theorem snd_eq_nil_of_foldl {st : Array (Act Nat) × List Conflict} {rest : List (Nat × Nat)}
    (hnil : (rest.foldl (c.consider order number s) st).2 = []) : st.2 = [] := by
  induction rest generalizing st with
  | nil => exact hnil
  | cons e rest ih =>
    have hnext := ih hnil
    simp only [Context.consider] at hnext
    split at hnext
    · exact hnext
    · exact hnext
    · exact (List.append_eq_nil_iff.1 hnext).1

/-- **What each comparison keeps holds in the end**, if there has been no conflict. -/
theorem Kept.foldl (h : Kept c order s t P) {st : Array (Act Nat) × List Conflict}
    (rest : List (Nat × Nat)) (hchosen : Chosen c s rs st.1) (ht : t < c.terminalCount)
    (hP : P rs (st.1.getD t .error)) (hnil : (rest.foldl (c.consider order number s) st).2 = []) :
    P (rs ++ rest) ((rest.foldl (c.consider order number s) st).1.getD t .error) := by
  induction rest generalizing rs st with
  | nil => simpa using hP
  | cons e rest ih =>
    have hnext : (c.consider order number s st e).2 = [] := snd_eq_nil_of_foldl hnil
    simpa using ih (hchosen.consider number e) (h.consider e hchosen.1 ht hP hnext) hnil

theorem Kept.row (h : Kept c order s t P) (hnil : (c.row order number s).2 = [])
    (ht : t < c.terminalCount) :
    P (c.reductions order s) ((c.row order number s).1.getD t .error) :=
  h.foldl _ (chosen_shifts c s) ht h.start hnil

/-- Where there has been no conflict, each reduction has been compared with an entry of which the
property held, and that has decided. -/
theorem Kept.exists_judged (h : Kept c order s t P) (hnil : (c.row order number s).2 = [])
    (ht : t < c.terminalCount) {pre post : List (Nat × Nat)} {r : Nat}
    (hsplit : c.reductions order s = pre ++ (r, t) :: post) :
    ∃ x, P pre x ∧ ∀ kind, c.judge order t x r ≠ .conflict kind := by
  rw [Context.row, hsplit, List.foldl_append, List.foldl_cons] at hnil
  have hthere := snd_eq_nil_of_foldl hnil
  have hone : ([(r, t)].foldl (c.consider order number s)
      (pre.foldl (c.consider order number s) (c.shifts s, []))).2 = [] := hthere
  have hbefore := snd_eq_nil_of_foldl hone
  refine ⟨_, by simpa using h.foldl pre (chosen_shifts c s) ht h.start hbefore, ?_⟩
  intro kind hjudge
  simp [Context.consider, hjudge] at hthere

/-- A conflict has come up in comparing some reduction with an entry of which the property held. -/
theorem exists_conflict {P : Nat → List (Nat × Nat) → Act Nat → Prop}
    (h : ∀ t < c.terminalCount, Kept c order s t (P t)) (hne : (c.row order number s).2 ≠ []) :
    ∃ t < c.terminalCount, ∃ pre r post x kind, c.reductions order s = pre ++ (r, t) :: post ∧
      P t pre x ∧ c.judge order t x r = .conflict kind := by
  suffices hfold : ∀ rs, (rs.foldl (c.consider order number s) (c.shifts s, [])).2 = [] ∨
      ∃ t < c.terminalCount, ∃ pre r post x kind, rs = pre ++ (r, t) :: post ∧ P t pre x ∧
        c.judge order t x r = .conflict kind from (hfold _).resolve_left hne
  intro rs
  induction rs using List.reverseRecOn with
  | nil => exact .inl rfl
  | append_singleton rs e ih =>
    rcases ih with hnil | ⟨t, ht, pre, r, post, x, kind, rfl, hP, hjudge⟩
    · -- the first conflict, if it is one
      obtain ⟨r, t⟩ := e
      have hchosen : Chosen c s ([] ++ rs)
          (rs.foldl (c.consider order number s) (c.shifts s, [])).1 :=
        Chosen.foldl (c.shifts s, []) (chosen_shifts c s) number
      rw [List.nil_append] at hchosen
      rw [List.foldl_append, List.foldl_cons, List.foldl_nil]
      generalize hst : rs.foldl (c.consider order number s) (c.shifts s, []) = st at hnil hchosen ⊢
      cases hjudge : c.judge order t (st.1.getD t .error) r with
      | keep => exact .inl (by simp only [Context.consider, hjudge, hnil])
      | replace => exact .inl (by simp only [Context.consider, hjudge, hnil])
      | conflict kind =>
        have ht : t < c.terminalCount := by
          by_contra hge
          have herr : st.1.getD t .error = .error := by simp [hchosen.1, hge]
          rw [herr] at hjudge
          cases hjudge
        have hP := (h t ht).foldl rs (chosen_shifts c s) ht (h t ht).start (by rw [hst, hnil])
        rw [List.nil_append, hst] at hP
        exact .inr ⟨t, ht, rs, r, [], _, kind, rfl, hP, hjudge⟩
    · exact .inr ⟨t, ht, pre, r, post ++ [e], x, kind, by simp, hP, hjudge⟩

theorem kept_prevails (ht : t < c.terminalCount) :
    Kept c order s t fun rs x => Prevails c order s rs t x :=
  ⟨prevails_shifts ht, Prevails.skip, Prevails.keep, Prevails.replace⟩

/-- **Without conflicts every entry prevails.** -/
theorem row_prevails (hnil : (c.row order number s).2 = []) (ht : t < c.terminalCount) :
    Prevails c order s (c.reductions order s) t ((c.row order number s).1.getD t .error) :=
  (kept_prevails ht).row hnil ht

end Context

/-! ### The table as a whole -/

open Context

/-- Wherever a shift and a reduction compete their precedences have decided. -/
structure Weighed (g : Grammar) (G : Graph) (act : Nat → Nat → Act Nat) : Prop where
  shift : ∀ {s a n i}, s < G.size → act s a = .shift n → i ∈ (G.elements s).core →
    (ofGrammar g).isComplete i = true → a ∈ (G.elements s).lookaheads i →
    judgeShift (g.terminalPrecedence a) ((ofGrammar g).precedence i.production) = .keep
  reduce : ∀ {s a p n}, s < G.size → act s a = .reduce p → (.terminal a, n) ∈ G.transitions s →
    judgeShift (g.terminalPrecedence a) ((ofGrammar g).precedence p) = .replace

variable {g : Grammar} {G : Graph} {n t : Nat}

/-- In a table without conflicts every entry prevails. -/
theorem prevails_ofGraph {c : Context} (hnil : (ParseTable.ofGraph c G).2 = []) (hn : n < G.size)
    (ht : t < c.terminalCount) :
    Prevails c c.reductionOrder (G.state n) (c.reductions c.reductionOrder (G.state n)) t
      ((ParseTable.ofGraph c G).1.actionAt n t) := by
  rw [actionAt_ofGraph c hn]
  refine row_prevails ?_ ht
  simp only [ParseTable.ofGraph, List.flatMap_eq_nil_iff] at hnil
  have hs : G.states.toList[n]? = some (G.state n) := by
    rw [Array.getElem?_toList, Graph.getElem?_states hn]
  refine hnil _ (List.mem_of_getElem? (i := n) ?_)
  rw [List.getElem?_mapIdx, hs]
  rfl

/-- **In a table without conflicts precedences have decided** between every shift and the reductions
that compete with it. -/
theorem weighed_ofGraph (h : IsAutomaton g G) (hg : g.WellFormed)
    (hnil : (ParseTable.ofGraph (ofGrammar g) G).2 = []) : Weighed g G (policyOf g G) := by
  have hlic := licensed_ofGraph h hg
  refine ⟨fun {s a n i} hs hact hi hc ha => ?_, fun {s a p n} hs hact htransition => ?_⟩
  · have hlt := h.within_of_transition hg (hlic.shift hs hact)
    have hprevails := prevails_ofGraph hnil hs hlt
    rw [(policyOf_eq_iff (x := .shift n) nofun).1 hact] at hprevails
    have hground := h.grounded_elements hg hs
    have hmem := (mem_reductions (ofGrammar g).reductionOrder (c := ofGrammar g)
      (s := G.state s) hground.proper.sorted).2 ⟨i, hi, hc, ha, rfl⟩
    obtain ⟨q, hq, -⟩ := hground.item i hi
    have hjudge := hprevails _ hmem
    rwa [judgeAt, productionAt_idxOf (mem_reductionOrder hg hq)] at hjudge
  · have hlt := h.within_of_transition hg htransition
    obtain ⟨r, hr, rfl⟩ := policyOf_eq_reduce_iff.1 hact
    have hprevails := prevails_ofGraph hnil hs hlt
    rw [hr] at hprevails
    exact hprevails ⟨n, htransition⟩

end LexParse.Lr
