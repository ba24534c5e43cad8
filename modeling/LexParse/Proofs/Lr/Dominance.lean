import LexParse.Proofs.Lr.Conflicts

/-!
# The candidate that beats all others

The reductions of a row are compared with what has been chosen so far only, so the entry that is
left has not been compared with every other candidate for its cell. It beats them all the same. What
has been replaced on the way has been replaced by something of a higher level, and this is
transitive. One thing does not follow from comparisons: a reduction that has replaced the shift, and
one that the shift has been kept against before, have never been compared. If both have the level of
the terminal, then one of them groups to the left and the other one to the right. This cannot be
where precedences of one level have one associativity.

## What is proved

* `Cell.beats_of_judge`: a reduction that replaces the shift beats one that the shift is kept
  against.
* `IsDominant.unique`: at most one action is dominant in a cell.
* `isDominant_policyOf`: the entries of a table without conflicts are.
-/

namespace LexParse.Lr

open Context

/-! ### Candidates and what beats them -/

/-- What a state of an automaton calls for on a terminal, with reductions named by their
productions. -/
inductive Candidate (g : Grammar) (G : Graph) (n t : Nat) : Act Nat → Prop where
  /-- The state has a transition over the terminal. -/
  | shift {m : Nat} (h : (.terminal t, m) ∈ G.transitions n) : Candidate g G n t (.shift m)
  /-- The terminal is the end of the input, and an item of the state has it behind its mark. -/
  | accept {i : Item} (ht : t = 0) (hi : i ∈ (G.elements n).core)
      (hX : (ofGrammar g).next? i = some .endOfInput) : Candidate g G n t .accept
  /-- The terminal is a lookahead of a completed item of the state. -/
  | reduce {i : Item} (hi : i ∈ (G.elements n).core) (hc : (ofGrammar g).isComplete i = true)
      (ht : t ∈ (G.elements n).lookaheads i) : Candidate g G n t (.reduce i.production)

/-- The precedence of an action on a terminal: that of the terminal, or of the production that is
reduced. -/
def precedenceOf (g : Grammar) (t : Nat) : Act Nat → Option Precedence
  | .shift _ | .accept => g.terminalPrecedence t
  | .reduce p => (ofGrammar g).precedence p
  | .error => none

/-- The associativity with which an action beats another one of its level. -/
def decider? : Act Nat → Act Nat → Option Assoc
  | .reduce _, .shift _ | .reduce _, .accept => some .left
  | .shift _, .reduce _ | .accept, .reduce _ => some .right
  | _, _ => none

/-- An action beats another one: both have a precedence, and its level is higher, or they have one
level and its associativity decides for it. -/
def Beats (g : Grammar) (t : Nat) (x y : Act Nat) : Prop :=
  ∃ a b, precedenceOf g t x = some a ∧ precedenceOf g t y = some b ∧
    (b.level < a.level ∨ a.level = b.level ∧ decider? x y = some a.assoc)

/-- An action is the error where there are no candidates, and else the one that beats all others. -/
structure IsDominant (g : Grammar) (G : Graph) (n t : Nat) (x : Act Nat) : Prop where
  eq_error_iff : x = .error ↔ ∀ y, ¬ Candidate g G n t y
  candidate : x ≠ .error → Candidate g G n t x
  beats : ∀ y, Candidate g G n t y → y ≠ x → Beats g t x y

/-- Wherever a terminal and a production have one level they have one associativity. -/
def Graded (g : Grammar) : Prop :=
  ∀ ⦃t p a b⦄, g.terminalPrecedence t = some a → (ofGrammar g).precedence p = some b →
    a.level = b.level → a.assoc = b.assoc

section
variable {g : Grammar} {G : Graph} {n t p q : Nat} {x y : Act Nat} {a b : Precedence}

/-- An associativity decides between a reduction and an action with the precedence of the
terminal. -/
theorem Graded.assoc_eq (hgraded : Graded g) (ha : precedenceOf g t x = some a)
    (hb : precedenceOf g t y = some b) (hlevel : a.level = b.level)
    (hdecides : decider? x y ≠ none) : a.assoc = b.assoc := by
  cases x with
  | shift m =>
    cases y with
    | reduce p => exact hgraded ha hb hlevel
    | _ => exact absurd rfl hdecides
  | accept =>
    cases y with
    | reduce p => exact hgraded ha hb hlevel
    | _ => exact absurd rfl hdecides
  | reduce q =>
    cases y with
    | shift m => exact (hgraded hb ha hlevel.symm).symm
    | accept => exact (hgraded hb ha hlevel.symm).symm
    | _ => exact absurd rfl hdecides
  | error => cases ha

/-- No associativity decides for both. -/
theorem decider?_ne {s : Assoc} (h : decider? x y = some s) : decider? y x ≠ some s := by
  revert h
  cases x <;> cases y <;> cases s <;> simp [decider?]

/-- Of two actions at most one beats the other one. -/
theorem Beats.asymm (hgraded : Graded g) (h : Beats g t x y) : ¬ Beats g t y x := by
  rintro ⟨b, a, hb, ha, h'⟩
  obtain ⟨a', b', ha', hb', h⟩ := h
  obtain rfl := Option.some.inj (ha.symm.trans ha')
  obtain rfl := Option.some.inj (hb.symm.trans hb')
  rcases h with hlt | ⟨hlevel, hx⟩
  · rcases h' with hlt' | ⟨hlevel', -⟩ <;> omega
  · obtain ⟨-, hy⟩ := h'.resolve_left (by omega)
    have hassoc := hgraded.assoc_eq ha hb hlevel (by simp [hx])
    rw [hassoc] at hx
    exact decider?_ne hx hy

/-- Only one action is dominant in a cell. -/
theorem IsDominant.unique (hgraded : Graded g) (hx : IsDominant g G n t x)
    (hy : IsDominant g G n t y) : x = y := by
  by_cases hne : x = .error
  · rw [hne, hy.eq_error_iff.2 (hx.eq_error_iff.1 hne)]
  · have hne' : y ≠ .error := fun h => hne (hx.eq_error_iff.2 (hy.eq_error_iff.1 h))
    by_contra hxy
    have hbeats := hx.beats y (hy.candidate hne') (Ne.symm hxy)
    exact hbeats.asymm hgraded (hy.beats x (hx.candidate hne) hxy)

/-! ### What the comparisons tell -/

theorem beats_reduce_iff :
    Beats g t (.reduce p) (.reduce q) ↔ (cellOf g G n t).Beats p q := by
  rw [Cell.beats_iff]
  constructor
  · rintro ⟨a, b, ha, hb, hlt | ⟨-, hnone⟩⟩
    · exact ⟨a, b, ha, hb, hlt⟩
    · cases hnone
  · rintro ⟨a, b, ha, hb, hlt⟩
    exact ⟨a, b, ha, hb, .inl hlt⟩

/-- What replaces the shift beats it. -/
theorem beats_of_judge_eq_replace (h : (cellOf g G n t).judge p = .replace)
    (hy : precedenceOf g t y = g.terminalPrecedence t)
    (hdecider : decider? (.reduce p) y = some .left) : Beats g t (.reduce p) y := by
  obtain ⟨b, a, hb, ha, hlevel⟩ := Cell.judge_eq_replace_iff.1 h
  refine ⟨a, b, ha, hy.trans hb, hlevel.imp id fun ⟨heq, hleft⟩ => ⟨heq.symm, ?_⟩⟩
  rw [hdecider, hleft]

/-- The shift beats what it is kept against. -/
theorem beats_of_judge_eq_keep (hgraded : Graded g)
    (h : (cellOf g G n t).judge q = .keep) (hx : precedenceOf g t x = g.terminalPrecedence t)
    (hdecider : decider? x (.reduce q) = some .right) : Beats g t x (.reduce q) := by
  obtain ⟨a, b, ha, hb, hlevel⟩ := Cell.judge_eq_keep_iff.1 h
  refine ⟨a, b, hx.trans ha, hb, hlevel.imp id fun ⟨heq, hright⟩ => ⟨heq.symm, ?_⟩⟩
  rw [hdecider, hgraded ha hb heq.symm, hright]

/-- **A reduction that replaces the shift beats one that the shift is kept against**, although the
two have not been compared. -/
theorem Cell.beats_of_judge {c : Cell} (hp : c.judge p = .replace) (hq : c.judge q = .keep)
    (hassoc : ∀ r a b, c.terminal = some a → c.precedence r = some b → a.level = b.level →
      a.assoc = b.assoc) : c.Beats p q := by
  obtain ⟨a, b, ha, hb, hreplace⟩ := judge_eq_replace_iff.1 hp
  obtain ⟨a', b', ha', hb', hkeep⟩ := judge_eq_keep_iff.1 hq
  obtain rfl := Option.some.inj (ha.symm.trans ha')
  refine beats_iff.2 ⟨b, b', hb, hb', ?_⟩
  rcases hreplace with hlt | ⟨heq, hleft⟩
  · rcases hkeep with hlt' | ⟨heq', -⟩ <;> omega
  · rcases hkeep with hlt' | ⟨heq', hright⟩
    · omega
    · -- the terminal would group to both sides
      have hsame := (hassoc p a b ha hb heq).symm.trans (hassoc q a b' ha hb' heq'.symm)
      rw [hleft, hright] at hsame
      cases hsame

/-! ### Candidates of one cell -/

/-- Where a shift or the acceptance is a candidate the cell holds one. -/
theorem Candidate.held (h : IsAutomaton g G) (hx : Candidate g G n t x)
    (hxp : ∀ p, x ≠ .reduce p) : (cellOf g G n t).held := by
  cases hx with
  | shift hm =>
    obtain ⟨i, hi, -, hX, -⟩ := h.exists_leads_of_transition hm
    exact ⟨i, hi, hX⟩
  | accept ht hi hX =>
    subst ht
    exact ⟨_, hi, hX⟩
  | reduce hi hc ht => exact absurd rfl (hxp _)

theorem reduces_iff : (cellOf g G n t).reduces p ↔ Candidate g G n t (.reduce p) := by
  constructor
  · rintro ⟨i, hi, hc, ht, rfl⟩
    exact .reduce hi hc ht
  · intro h
    cases h with
    | reduce hi hc ht => exact ⟨_, hi, hc, ht, rfl⟩

/-- A state shifts a terminal to one state, or accepts, but not both. -/
theorem Candidate.eq_of_held (h : IsAutomaton g G) (hx : Candidate g G n t x)
    (hy : Candidate g G n t y) (hxp : ∀ p, x ≠ .reduce p) (hyp : ∀ p, y ≠ .reduce p) : x = y := by
  -- the end of the input is not shifted
  have hshift : ∀ {m}, (.terminal t, m) ∈ G.transitions n → t ≠ 0 := by
    rintro m hm rfl
    obtain ⟨i, -, hleads⟩ := h.exists_leads_of_transition hm
    exact hleads.1 rfl
  cases hx with
  | reduce hi hc ht => exact absurd rfl (hxp _)
  | shift hm =>
    cases hy with
    | reduce hi hc ht => exact absurd rfl (hyp _)
    | shift hm' => rw [h.transition_unique hm hm']
    | accept ht hi hX => exact absurd ht (hshift hm)
  | accept ht hi hX =>
    cases hy with
    | reduce hi hc ht => exact absurd rfl (hyp _)
    | shift hm' => exact absurd ht (hshift hm')
    | accept ht' hi' hX' => rfl

/-! ### The entries of a table -/

/-- An action with its reduction named by its production. -/
def named (g : Grammar) : Act Nat → Act Nat
  | .reduce r => .reduce (productionAt (ofGrammar g).reductionOrder r)
  | x => x

theorem policyOf_eq_named : policyOf g G n t = named g ((tableOf g G).actionAt n t) := by
  unfold policyOf named
  cases (tableOf g G).actionAt n t <;> rfl

/-- An entry that is no error is a candidate. -/
theorem candidate_policyOf (h : IsAutomaton g G) (hg : g.WellFormed) (hn : n < G.size)
    (hne : policyOf g G n t ≠ .error) : Candidate g G n t (policyOf g G n t) := by
  have hlic := licensed_ofGraph h hg
  cases hx : policyOf g G n t with
  | error => exact absurd hx hne
  | shift m => exact .shift (hlic.shift hn hx)
  | accept =>
    obtain ⟨ht, i, hi, hX⟩ := hlic.accept hn hx
    exact .accept ht hi hX
  | reduce p =>
    obtain ⟨i, hi, rfl, hc, ht⟩ := hlic.reduce hn hx
    exact .reduce hi hc ht

/-- A shift or an acceptance that has been kept beats all other candidates. -/
theorem beats_of_kept (h : IsAutomaton g G) (hgraded : Graded g)
    (hx : Candidate g G n t x) (hxp : ∀ p, x ≠ .reduce p)
    (hkeep : ∀ p, (cellOf g G n t).reduces p → (cellOf g G n t).judge p = .keep)
    (hy : Candidate g G n t y) (hne : y ≠ x) : Beats g t x y := by
  cases y with
  | reduce q =>
    have hq := hkeep q (reduces_iff.2 hy)
    cases hx with
    | reduce hi hc ht => exact absurd rfl (hxp _)
    | shift hm => exact beats_of_judge_eq_keep hgraded hq rfl rfl
    | accept ht hi hX => exact beats_of_judge_eq_keep hgraded hq rfl rfl
  | shift m => exact absurd (hy.eq_of_held h hx nofun hxp) hne
  | accept => exact absurd (hy.eq_of_held h hx nofun hxp) hne
  | error => cases hy

/-- The best reduction beats all other candidates. -/
theorem beats_of_best (h : IsAutomaton g G) (hgraded : Graded g)
    (hbest : (cellOf g G n t).Best (cellOf g G n t).reduces (some p))
    (hy : Candidate g G n t y) (hne : y ≠ .reduce p) : Beats g t (.reduce p) y := by
  obtain ⟨-, hreplace, hall⟩ := hbest
  cases y with
  | shift m => exact beats_of_judge_eq_replace (hreplace (hy.held h nofun)) rfl rfl
  | accept => exact beats_of_judge_eq_replace (hreplace (hy.held h nofun)) rfl rfl
  | error => cases hy
  | reduce q =>
    have hqp : q ≠ p := fun heq => hne (congrArg Act.reduce heq)
    apply (beats_reduce_iff (G := G) (n := n)).2
    rcases hall q (reduces_iff.2 hy) hqp with ⟨hheld, hkeep⟩ | hbeats
    · exact Cell.beats_of_judge (hreplace hheld) hkeep fun r a b ha hb => hgraded ha hb
    · exact hbeats

/-- What the comparisons of a row have left, said of the candidates. -/
theorem tops_policyOf (h : IsAutomaton g G) (hg : g.WellFormed)
    (hnil : (ParseTable.ofGraph (ofGrammar g) G).2 = []) (hn : n < G.size)
    (ht : t < g.terminals.size) :
    match policyOf g G n t with
    | .reduce p => (cellOf g G n t).Best (cellOf g G n t).reduces (some p)
    | .shift _ | .accept =>
      ∀ p, (cellOf g G n t).reduces p → (cellOf g G n t).judge p = .keep
    | .error => ¬ (cellOf g G n t).held ∧ ∀ p, ¬ (cellOf g G n t).reduces p := by
  have htops := (kept_tops_ofGraph h hg hn ht).row (snd_ofGraph_eq_nil_iff.1 hnil n hn) ht
  have hreductions : ∀ {P : Nat → Prop}, (∀ r, (r, t) ∈ (ofGrammar g).reductions
      (ofGrammar g).reductionOrder (G.state n) → P (productionAt (ofGrammar g).reductionOrder r)) →
      ∀ p, (cellOf g G n t).reduces p → P p := by
    intro P hP p hp
    obtain ⟨r, hr, rfl⟩ := exists_mem_reductions h hg hn hp
    exact hP r hr
  rw [← actionAt_ofGraph (ofGrammar g) hn] at htops
  rw [policyOf_eq_named, tableOf]
  cases hx : (ParseTable.ofGraph (ofGrammar g) G).1.actionAt n t with
  | shift m =>
    rw [hx] at htops
    exact hreductions htops.2
  | accept =>
    rw [hx] at htops
    exact hreductions htops.2
  | error =>
    rw [hx] at htops
    exact ⟨htops.1, hreductions htops.2⟩
  | reduce r =>
    rw [hx] at htops
    obtain ⟨hmem, hreplace, hall⟩ := htops
    obtain ⟨p, hp, -, hat⟩ := (mem_reductions_iff h hg hn).1 hmem
    refine ⟨hat ▸ hp, hreplace, hreductions fun r' hr' hne => hall r' hr' fun heq => hne ?_⟩
    rw [heq]

/-- **Without conflicts every entry beats all other candidates for its cell**, and there is an error
just where there are none. -/
theorem isDominant_policyOf (h : IsAutomaton g G) (hg : g.WellFormed) (hgraded : Graded g)
    (hnil : (ParseTable.ofGraph (ofGrammar g) G).2 = []) (hn : n < G.size)
    (ht : t < g.terminals.size) : IsDominant g G n t (policyOf g G n t) := by
  have htops := tops_policyOf h hg hnil hn ht
  have hcandidate := candidate_policyOf (t := t) h hg hn
  generalize policyOf g G n t = x at htops hcandidate
  have hnone : x = .error → ∀ y, ¬ Candidate g G n t y := by
    rintro rfl y hy
    obtain ⟨hheld, hreduces⟩ := htops
    cases y with
    | shift m => exact hheld (hy.held h nofun)
    | accept => exact hheld (hy.held h nofun)
    | reduce p => exact hreduces p (reduces_iff.2 hy)
    | error => cases hy
  refine ⟨⟨hnone, fun hno => ?_⟩, hcandidate, fun y hy hne => ?_⟩
  · by_contra hx
    exact hno x (hcandidate hx)
  · cases x with
    | error => exact absurd hy (hnone rfl y)
    | shift m => exact beats_of_kept h hgraded (hcandidate nofun) nofun htops hy hne
    | accept => exact beats_of_kept h hgraded (hcandidate nofun) nofun htops hy hne
    | reduce p => exact beats_of_best h hgraded htops hy hne

end

end LexParse.Lr
