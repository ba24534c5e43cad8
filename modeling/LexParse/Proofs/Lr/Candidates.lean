import LexParse.Lr.Table
import LexParse.Proofs.Lr.Automaton
import Mathlib.Data.List.Basic

/-!
# Entries and their candidates

A state calls for actions on a terminal: it has a transition over it, or it can accept there, or the
terminal is a lookahead of a completed item. These are the *candidates* of a cell of the table. The
entry of the cell is found by comparing them one after the other.

## What is proved

* `Context.row_chosen`: an entry is one of its candidates, or there are none and it is the error.
  Precedences can only choose between them.
* `Context.snd_row_eq_nil`: where no cell has two candidates nothing is ever compared, and no
  conflict is reported.
* `licensed_ofGraph`, `obeyed_ofGraph`: the same read off the whole table, for a parser that looks
  at items. Every action has an item that calls for it; where no cell has two candidates, whatever
  an item calls for is done.
-/

namespace LexParse.Lr

/-! ### Writing into a row -/

/-- Write values into a row one after the other, each at its place if it has one. -/
def fill {α β : Type} (key : β → Option Nat) (value : β → α) (l : List β) (row : Array α) :
    Array α :=
  l.foldl (fun row b => ((key b).map fun k => row.setIfInBounds k (value b)).getD row) row

section
variable {α β : Type} {key : β → Option Nat} {value : β → α} {b : β} {rest : List β}
  {row : Array α}

theorem fill_cons_of_none (h : key b = none) :
    fill key value (b :: rest) row = fill key value rest row := by
  simp [fill, h]

theorem fill_cons_of_some {k : Nat} (h : key b = some k) :
    fill key value (b :: rest) row = fill key value rest (row.setIfInBounds k (value b)) := by
  simp [fill, h]

/-- A row into which values are written holds the value of one that was written at a place, and the
old value where none was. -/
theorem getElem?_fill (key : β → Option Nat) (value : β → α) (l : List β) (row : Array α) {t : Nat}
    (ht : t < row.size) :
    (∃ b ∈ l, key b = some t ∧ (fill key value l row)[t]? = some (value b)) ∨
      (∀ b ∈ l, key b ≠ some t) ∧ (fill key value l row)[t]? = row[t]? := by
  induction l generalizing row with
  | nil => exact .inr ⟨by simp, rfl⟩
  | cons b rest ih =>
    cases hkey : key b with
    | none =>
      rw [fill_cons_of_none hkey]
      rcases ih row ht with ⟨c, hc, hk, heq⟩ | ⟨hnone, heq⟩
      · exact .inl ⟨c, List.mem_cons_of_mem _ hc, hk, heq⟩
      · refine .inr ⟨fun c hc => ?_, heq⟩
        rcases List.mem_cons.1 hc with rfl | hc
        · simp [hkey]
        · exact hnone c hc
    | some k =>
      rw [fill_cons_of_some hkey]
      rcases ih (row.setIfInBounds k (value b)) (by simpa using ht) with
        ⟨c, hc, hk, heq⟩ | ⟨hnone, heq⟩
      · exact .inl ⟨c, List.mem_cons_of_mem _ hc, hk, heq⟩
      · by_cases hkt : k = t
        · subst hkt
          refine .inl ⟨b, List.mem_cons_self .., hkey, heq.trans ?_⟩
          simp [ht]
        · refine .inr ⟨fun c hc => ?_, heq.trans (Array.getElem?_setIfInBounds_ne hkt)⟩
          rcases List.mem_cons.1 hc with rfl | hc
          · simpa [hkey] using hkt
          · exact hnone c hc

theorem size_fill (key : β → Option Nat) (value : β → α) (l : List β) (row : Array α) :
    (fill key value l row).size = row.size := by
  induction l generalizing row with
  | nil => rfl
  | cons b rest ih =>
    cases hkey : key b with
    | none => rw [fill_cons_of_none hkey, ih]
    | some k => rw [fill_cons_of_some hkey, ih, Array.size_setIfInBounds]

end

/-- The column of a transition over a terminal. -/
def terminalColumn (e : Symbol × Nat) : Option Nat :=
  match e.1 with
  | .terminal t => some t
  | .nonterminal _ => none

/-- The column of a transition over a nonterminal. -/
def nonterminalColumn (e : Symbol × Nat) : Option Nat :=
  match e.1 with
  | .terminal _ => none
  | .nonterminal n => some n

theorem terminalColumn_eq_some_iff {e : Symbol × Nat} {t : Nat} :
    terminalColumn e = some t ↔ e.1 = .terminal t := by
  obtain ⟨s, n⟩ := e
  cases s <;> simp [terminalColumn]

theorem nonterminalColumn_eq_some_iff {e : Symbol × Nat} {m : Nat} :
    nonterminalColumn e = some m ↔ e.1 = .nonterminal m := by
  obtain ⟨s, n⟩ := e
  cases s <;> simp [nonterminalColumn]

namespace Context

variable {c : Context} {order : List Nat} {s : State} {t : Nat}

/-! ### Candidates -/

/-- The actions that a state calls for on a terminal, with the reductions taken from a list. -/
def candidatesFrom (c : Context) (s : State) (reductions : List (Nat × Nat)) (t : Nat) :
    List (Act Nat) :=
  ((s.transitions.filter fun e => e.1 == .terminal t).map (.shift ·.2)) ++
    (if t = 0 ∧ c.itemsBefore s .endOfInput ≠ [] then [.accept] else []) ++
    ((reductions.filter fun e => e.2 == t).map (.reduce ·.1))

/-- The actions that a state calls for on a terminal. -/
def candidates (c : Context) (order : List Nat) (s : State) (t : Nat) : List (Act Nat) :=
  c.candidatesFrom s (c.reductions order s) t

theorem mem_candidatesFrom {rs : List (Nat × Nat)} {x : Act Nat} :
    x ∈ c.candidatesFrom s rs t ↔ (∃ n, (.terminal t, n) ∈ s.transitions ∧ x = .shift n) ∨
      (t = 0 ∧ c.itemsBefore s .endOfInput ≠ [] ∧ x = .accept) ∨
      ∃ r, (r, t) ∈ rs ∧ x = .reduce r := by
  simp only [candidatesFrom, List.mem_append, List.mem_map, List.mem_filter, beq_iff_eq, or_assoc]
  refine or_congr ⟨?_, ?_⟩ (or_congr ?_ ⟨?_, ?_⟩)
  · rintro ⟨⟨_, n⟩, ⟨hm, rfl⟩, rfl⟩
    exact ⟨n, hm, rfl⟩
  · rintro ⟨n, hm, rfl⟩
    exact ⟨_, ⟨hm, rfl⟩, rfl⟩
  · by_cases h : t = 0 ∧ c.itemsBefore s .endOfInput ≠ []
    · simp [h]
    · rw [if_neg h]
      simp only [List.not_mem_nil, false_iff]
      tauto
  · rintro ⟨⟨r, _⟩, ⟨hm, rfl⟩, rfl⟩
    exact ⟨r, hm, rfl⟩
  · rintro ⟨r, hm, rfl⟩
    exact ⟨_, ⟨hm, rfl⟩, rfl⟩

theorem candidatesFrom_append (rs rs' : List (Nat × Nat)) :
    c.candidatesFrom s (rs ++ rs') t =
      c.candidatesFrom s rs t ++ (rs'.filter fun e => e.2 == t).map (.reduce ·.1) := by
  simp only [candidatesFrom, List.filter_append, List.map_append, List.append_assoc]

/-- An entry is one of its candidates, or there are none and it is the error. -/
def Chosen (c : Context) (s : State) (rs : List (Nat × Nat)) (row : Array (Act Nat)) : Prop :=
  row.size = c.terminalCount ∧ ∀ t < c.terminalCount,
    row.getD t .error = .error ∧ c.candidatesFrom s rs t = [] ∨
      row.getD t .error ∈ c.candidatesFrom s rs t

/-- The shifts of a state, before the acceptance. -/
def shiftRow (c : Context) (s : State) : Array (Act Nat) :=
  fill terminalColumn (fun e => .shift e.2) s.transitions (Array.replicate c.terminalCount .error)

theorem shifts_eq : c.shifts s =
    if (c.itemsBefore s .endOfInput).isEmpty then c.shiftRow s
    else (c.shiftRow s).setIfInBounds 0 .accept := by
  refine congrArg (fun row : Array (Act Nat) =>
    if (c.itemsBefore s .endOfInput).isEmpty then row else row.setIfInBounds 0 .accept)
    (List.foldl_ext _ _ _ fun row e _ => ?_)
  obtain ⟨symbol, n⟩ := e
  cases symbol <;> rfl

theorem successors_eq : c.successors s = fill nonterminalColumn (fun e => some e.2) s.transitions
    (Array.replicate c.grammar.nonterminals.size none) := by
  refine List.foldl_ext _ _ _ fun row e _ => ?_
  obtain ⟨symbol, n⟩ := e
  cases symbol <;> rfl

/-- The shifts are the transitions over terminals. -/
theorem shiftRow_cases (ht : t < c.terminalCount) :
    (c.shiftRow s).getD t .error = .error ∧ (∀ n, (.terminal t, n) ∉ s.transitions) ∨
      ∃ n, (.terminal t, n) ∈ s.transitions ∧ (c.shiftRow s).getD t .error = .shift n := by
  rcases getElem?_fill terminalColumn (fun e : Symbol × Nat => Act.shift e.2) s.transitions
    (Array.replicate c.terminalCount .error) (t := t) (by simpa using ht) with
    ⟨⟨X, n⟩, hm, hk, heq⟩ | ⟨hnone, heq⟩
  · obtain rfl : X = .terminal t := terminalColumn_eq_some_iff.1 hk
    exact .inr ⟨n, hm, by simp [shiftRow, heq]⟩
  · refine .inl ⟨by simp [shiftRow, heq, ht], fun n hm => ?_⟩
    exact hnone _ hm (terminalColumn_eq_some_iff.2 rfl)

/-- Where acceptance is not called for, an entry is chosen among the shifts. -/
theorem chosen_shift (ht : t < c.terminalCount)
    (hno : ¬ (t = 0 ∧ c.itemsBefore s .endOfInput ≠ [])) :
    (c.shiftRow s).getD t .error = .error ∧ c.candidatesFrom s [] t = [] ∨
      (c.shiftRow s).getD t .error ∈ c.candidatesFrom s [] t := by
  rcases shiftRow_cases (s := s) ht with ⟨heq, hnone⟩ | ⟨n, hm, heq⟩
  · refine .inl ⟨heq, List.eq_nil_iff_forall_not_mem.2 fun x hx => ?_⟩
    rcases mem_candidatesFrom.1 hx with ⟨n, hm, -⟩ | ⟨hz, hne, -⟩ | ⟨r, hr, -⟩
    · exact hnone n hm
    · exact hno ⟨hz, hne⟩
    · cases hr
  · exact .inr (mem_candidatesFrom.2 (.inl ⟨n, hm, heq⟩))

/-- The row without reductions. -/
theorem chosen_shifts (c : Context) (s : State) : Chosen c s [] (c.shifts s) := by
  have hsize : (c.shiftRow s).size = c.terminalCount := by simp [shiftRow, size_fill]
  rw [shifts_eq]
  split
  · rename_i hempty
    exact ⟨hsize, fun t ht => chosen_shift ht fun h => h.2 (by simpa using hempty)⟩
  · rename_i hempty
    refine ⟨by simpa using hsize, fun t ht => ?_⟩
    by_cases hz : t = 0
    · subst hz
      refine .inr (mem_candidatesFrom.2 (.inr (.inl ⟨rfl, by simpa using hempty, ?_⟩)))
      simp [hsize, ht]
    · have hsame : ((c.shiftRow s).setIfInBounds 0 .accept).getD t .error =
          (c.shiftRow s).getD t .error := by
        simp [Ne.symm hz]
      rw [hsame]
      exact chosen_shift ht fun h => hz h.1

/-- Considering a reduction writes it, or leaves the row as it is; where the entry is the error so
far, it writes it and reports nothing. -/
theorem consider_cases (c : Context) (order : List Nat) (number : Nat) (s : State)
    (st : Array (Act Nat) × List Conflict) (e : Nat × Nat) :
    c.consider order number s st e = (st.1.setIfInBounds e.2 (.reduce e.1), st.2) ∨
      st.1.getD e.2 .error ≠ .error ∧ (c.consider order number s st e).1 = st.1 := by
  obtain ⟨r, t⟩ := e
  simp only [consider]
  cases hv : c.judge order t (st.1.getD t .error) r with
  | replace => exact .inl rfl
  | keep =>
    refine .inr ⟨fun herr => ?_, rfl⟩
    rw [herr] at hv
    cases hv
  | conflict kind =>
    refine .inr ⟨fun herr => ?_, rfl⟩
    rw [herr] at hv
    cases hv

theorem Chosen.consider {rs : List (Nat × Nat)} {st : Array (Act Nat) × List Conflict}
    (h : Chosen c s rs st.1) (number : Nat) (e : Nat × Nat) :
    Chosen c s (rs ++ [e]) (c.consider order number s st e).1 := by
  obtain ⟨hsize, h⟩ := h
  have hold : ∀ t < c.terminalCount, st.1.getD t .error ≠ .error ∨ t ≠ e.2 →
      st.1.getD t .error = .error ∧ c.candidatesFrom s (rs ++ [e]) t = [] ∨
        st.1.getD t .error ∈ c.candidatesFrom s (rs ++ [e]) t := by
    intro t ht hor
    rw [candidatesFrom_append]
    rcases h t ht with ⟨herr, hnil⟩ | hmem
    · have hne : e.2 ≠ t := (hor.resolve_left (not_not.2 herr)).symm
      refine .inl ⟨herr, ?_⟩
      simp [hnil, hne]
    · exact .inr (List.mem_append_left _ hmem)
  rcases consider_cases c order number s st e with heq | ⟨herr, heq⟩
  · rw [heq]
    refine ⟨by simpa using hsize, fun t ht => ?_⟩
    by_cases hte : t = e.2
    · subst hte
      right
      rw [candidatesFrom_append]
      simp [hsize, ht]
    · have hsame : (st.1.setIfInBounds e.2 (.reduce e.1)).getD t .error = st.1.getD t .error := by
        simp [Ne.symm hte]
      rw [hsame]
      exact hold t ht (.inr hte)
  · rw [heq]
    refine ⟨hsize, fun t ht => hold t ht ?_⟩
    by_cases hte : t = e.2
    · exact .inl (hte ▸ herr)
    · exact .inr hte

theorem Chosen.foldl {rs rest : List (Nat × Nat)} (st : Array (Act Nat) × List Conflict)
    (h : Chosen c s rs st.1) (number : Nat) :
    Chosen c s (rs ++ rest) (rest.foldl (c.consider order number s) st).1 := by
  induction rest generalizing rs st with
  | nil => simpa using h
  | cons e rest ih => simpa using ih _ (h.consider number e)

/-- **An entry is one of its candidates**, or there are none and it is the error. -/
theorem row_chosen (c : Context) (order : List Nat) (number : Nat) (s : State) :
    Chosen c s (c.reductions order s) (c.row order number s).1 :=
  Chosen.foldl (c.shifts s, []) (chosen_shifts c s) number

/-- **Where no cell has two candidates nothing conflicts.** -/
theorem snd_row_eq_nil (number : Nat)
    (hone : ∀ t < c.terminalCount, (c.candidates order s t).length ≤ 1) :
    (c.row order number s).2 = [] := by
  suffices hfold : ∀ rest rs (st : Array (Act Nat) × List Conflict),
      rs ++ rest = c.reductions order s → Chosen c s rs st.1 → st.2 = [] →
      (rest.foldl (c.consider order number s) st).2 = [] from
    hfold _ [] _ rfl (chosen_shifts c s) rfl
  intro rest
  induction rest with
  | nil => exact fun rs st _ _ hnil => hnil
  | cons e rest ih =>
    intro rs st hrs hchosen hnil
    have herr : st.1.getD e.2 .error = .error := by
      by_cases he : e.2 < c.terminalCount
      · -- the reduction is a candidate, so there was none before it
        have hnone : c.candidatesFrom s rs e.2 = [] := by
          have hlen := hone e.2 he
          rw [candidates, ← hrs, candidatesFrom_append] at hlen
          simp only [List.filter_cons, beq_self_eq_true, if_true, List.map_cons,
            List.length_append, List.length_cons] at hlen
          exact List.eq_nil_of_length_eq_zero (by omega)
        rcases hchosen.2 e.2 he with ⟨herr, -⟩ | hmem
        · exact herr
        · rw [hnone] at hmem
          cases hmem
      · simp [hchosen.1, he]
    refine ih (rs ++ [e]) _ (by simpa using hrs) (hchosen.consider number e) ?_
    rcases consider_cases c order number s st e with heq | ⟨hne, -⟩
    · rw [heq]
      exact hnil
    · exact absurd herr hne

theorem mem_reductions (order : List Nat) (hs : s.elements.Sorted) {r : Nat} :
    (r, t) ∈ c.reductions order s ↔
    ∃ i ∈ s.elements.core, c.isComplete i = true ∧ t ∈ s.elements.lookaheads i ∧
      r = order.idxOf i.production := by
  simp only [reductions, List.mem_flatMap, List.mem_filter, List.mem_map, NatSet.mem_toList,
    Prod.mk.injEq]
  constructor
  · rintro ⟨⟨i, las⟩, ⟨hm, hc⟩, t, ht, rfl, rfl⟩
    exact ⟨i, ItemSet.mem_core_of_mem hm, hc, (hs.lookaheads_eq hm).symm ▸ ht, rfl⟩
  · rintro ⟨i, hi, hc, ht, rfl⟩
    exact ⟨_, ⟨hs.mem_lookaheads hi, hc⟩, t, ht, rfl, rfl⟩

theorem itemsBefore_ne_nil_iff {X : Symbol} :
    c.itemsBefore s X ≠ [] ↔ ∃ i ∈ s.elements.core, c.next? i = some X := by
  rw [itemsBefore, ne_eq, List.filter_eq_nil_iff]
  simp

/-- Every production has a reduction. -/
theorem mem_reductionOrder {g : Grammar} (hg : g.WellFormed) {p : Nat} {q : Production}
    (h : g.augmented[p]? = some q) : p ∈ (ofGrammar g).reductionOrder := by
  refine List.mem_flatMap.2 ⟨q.left, List.mem_range.2 ?_, (mem_derivationsOf_iff hg).2 ⟨q, h, rfl⟩⟩
  exact (hg.within_augmented q (List.mem_of_getElem? h)).left

end Context

/-! ### The table as a whole -/

open Context

/-- A precedence is that of a declared production. -/
theorem exists_production_of_precedence {g : Grammar} {n : Nat} {x : Precedence}
    (h : (ofGrammar g).precedence n = some x) :
    ∃ m q, n = m + 1 ∧ g.productions[m]? = some q ∧ q.precedence = some x := by
  have h : ((ofGrammar g).production ⟨n, 0⟩).precedence = some x := h
  rw [production_eq] at h
  cases n with
  | zero => cases h
  | succ m =>
    dsimp only [Grammar.augmented, List.getElem?_cons_succ] at h
    cases hq : g.productions[m]? with
    | none =>
      rw [hq] at h
      cases h
    | some q =>
      rw [hq] at h
      exact ⟨m, q, rfl, hq, h⟩

theorem productionAt_idxOf {order : List Nat} {p : Nat} (h : p ∈ order) :
    productionAt order (order.idxOf p) = p := by
  have hlt := List.idxOf_lt_length_of_mem h
  rw [productionAt, List.getD_eq_getElem?_getD, List.getElem?_eq_getElem hlt, List.getElem_idxOf]
  rfl

/-- No cell of the table has two candidates. -/
def ConflictFree (c : Context) (G : Graph) : Prop :=
  ∀ s ∈ G.states, ∀ t < c.terminalCount, (c.candidates c.reductionOrder s t).length ≤ 1

instance (c : Context) (G : Graph) : Decidable (ConflictFree c G) :=
  inferInstanceAs (Decidable (∀ s ∈ G.states, ∀ t < c.terminalCount,
    (c.candidates c.reductionOrder s t).length ≤ 1))

/-- Every action has an item that calls for it. -/
structure Licensed (g : Grammar) (G : Graph) (act : Nat → Nat → Act Nat) : Prop where
  shift : ∀ {s a n}, s < G.size → act s a = .shift n → (.terminal a, n) ∈ G.transitions s
  reduce : ∀ {s a p}, s < G.size → act s a = .reduce p → ∃ i ∈ (G.elements s).core,
    i.production = p ∧ (ofGrammar g).isComplete i = true ∧ a ∈ (G.elements s).lookaheads i
  accept : ∀ {s a}, s < G.size → act s a = .accept → a = 0 ∧
    ∃ i ∈ (G.elements s).core, (ofGrammar g).next? i = some .endOfInput

/-- Whatever an item calls for is done. -/
structure Obeyed (g : Grammar) (G : Graph) (act : Nat → Nat → Act Nat) : Prop where
  shift : ∀ {s a n}, s < G.size → (.terminal a, n) ∈ G.transitions s → act s a = .shift n
  reduce : ∀ {s a i}, s < G.size → i ∈ (G.elements s).core →
    (ofGrammar g).isComplete i = true → a ∈ (G.elements s).lookaheads i →
    act s a = .reduce i.production
  accept : ∀ {s i}, s < G.size → i ∈ (G.elements s).core →
    (ofGrammar g).next? i = some .endOfInput → act s 0 = .accept

/-- The table of an automaton of a grammar. -/
abbrev tableOf (g : Grammar) (G : Graph) : ParseTable := (ParseTable.ofGraph (ofGrammar g) G).1

/-- The actions of that table, with reductions named by their productions. -/
def policyOf (g : Grammar) (G : Graph) (s a : Nat) : Act Nat :=
  match (tableOf g G).actionAt s a with
  | .reduce r => .reduce (productionAt (ofGrammar g).reductionOrder r)
  | act => act

section
variable {g : Grammar} {G : Graph} {n t m : Nat}

/-- But for the names of reductions the policy is the table. -/
theorem policyOf_eq_iff {s a : Nat} {x : Act Nat} (hx : ∀ p, x ≠ .reduce p) :
    policyOf g G s a = x ↔ (tableOf g G).actionAt s a = x := by
  unfold policyOf
  split
  · rename_i hr
    rw [hr]
    exact ⟨fun h => absurd h.symm (hx _), fun h => absurd h.symm (hx _)⟩
  · rfl

theorem policyOf_eq_reduce_iff {s a p : Nat} : policyOf g G s a = .reduce p ↔
    ∃ r, (tableOf g G).actionAt s a = .reduce r ∧
      productionAt (ofGrammar g).reductionOrder r = p := by
  unfold policyOf
  split
  · rename_i r hr
    simp [hr]
  · rename_i hnot
    exact ⟨fun h => absurd h (hnot p), fun ⟨r, hr, _⟩ => absurd hr (hnot r)⟩

theorem actionAt_ofGraph (c : Context) (hn : n < G.size) :
    (ParseTable.ofGraph c G).1.actionAt n t =
      (c.row c.reductionOrder n (G.state n)).1.getD t .error := by
  have hs : G.states.toList[n]? = some (G.state n) := by
    rw [Array.getElem?_toList, Graph.getElem?_states hn]
  simp only [ParseTable.actionAt, ParseTable.ofGraph, List.getElem?_toArray, List.getElem?_map,
    List.getElem?_mapIdx, hs]
  simp

/-- An entry is the error, or one of its candidates. -/
theorem actionAt_mem_candidates (c : Context) (hn : n < G.size)
    (h : (ParseTable.ofGraph c G).1.actionAt n t ≠ .error) :
    (ParseTable.ofGraph c G).1.actionAt n t ∈ c.candidates c.reductionOrder (G.state n) t := by
  rw [actionAt_ofGraph c hn] at h ⊢
  have hrow := row_chosen c c.reductionOrder n (G.state n)
  by_cases ht : t < c.terminalCount
  · rcases hrow.2 t ht with ⟨herr, -⟩ | hmem
    · exact absurd herr h
    · exact hmem
  · refine absurd ?_ h
    simp [hrow.1, ht]

/-- Where there is one candidate it is the entry. -/
theorem actionAt_eq_of_mem_candidates {c : Context} (hn : n < G.size) (ht : t < c.terminalCount)
    (hfree : ConflictFree c G) {x : Act Nat}
    (hx : x ∈ c.candidates c.reductionOrder (G.state n) t) :
    (ParseTable.ofGraph c G).1.actionAt n t = x := by
  have hone := hfree _ (Array.mem_of_getElem? (Graph.getElem?_states hn)) t ht
  rw [actionAt_ofGraph c hn]
  rcases (row_chosen c c.reductionOrder n (G.state n)).2 t ht with ⟨-, hnil⟩ | hmem
  · rw [candidates, hnil] at hx
    cases hx
  · change _ ∈ c.candidates c.reductionOrder (G.state n) t at hmem
    obtain ⟨y, hy⟩ := List.length_eq_one_iff.1 (le_antisymm hone (List.length_pos_of_mem hx))
    rw [hy] at hmem hx
    rw [List.mem_singleton.1 hmem, List.mem_singleton.1 hx]

/-- A table without two candidates for a cell is built without a conflict. -/
theorem ConflictFree.snd_ofGraph {c : Context} (hfree : ConflictFree c G) :
    (ParseTable.ofGraph c G).2 = [] := by
  simp only [ParseTable.ofGraph, List.flatMap_eq_nil_iff]
  intro row hrow
  obtain ⟨i, hi, rfl⟩ := List.mem_mapIdx.1 hrow
  exact snd_row_eq_nil i fun t ht => hfree _ (by simp) t ht

/-- The reduction of a production. -/
def Production.toReduction (g : Grammar) (q : Production) : Reduction :=
  { size := q.right.length, left := q.left, action := q.action, text := g.renderProduction q }

theorem reductions_ofGraph (hg : g.WellFormed) {p : Nat} {q : Production}
    (h : g.augmented[p]? = some q) :
    (tableOf g G).reductions.getD
      ((ofGrammar g).reductionOrder.idxOf p) default = Production.toReduction g q := by
  have hlt := List.idxOf_lt_length_of_mem (mem_reductionOrder hg h)
  have hq : (ofGrammar g).productions.getD p default = q :=
    production_eq_of_getElem? (i := ⟨p, 0⟩) h
  rw [Array.getD_eq_getD_getElem?] at hq
  simp only [tableOf, ParseTable.ofGraph, Array.getD_eq_getD_getElem?, List.getElem?_toArray,
    List.getElem?_map, List.getElem?_eq_getElem hlt, List.getElem_idxOf, Option.map_some, hq]
  rfl

/-- A reduction in the table is that of a completed item. -/
theorem exists_item_of_actionAt (h : IsAutomaton g G) (hg : g.WellFormed) (hn : n < G.size)
    {r : Nat} (hr : (tableOf g G).actionAt n t = .reduce r) :
    ∃ i ∈ (G.elements n).core, ∃ q, g.augmented[i.production]? = some q ∧
      (ofGrammar g).isComplete i = true ∧ t ∈ (G.elements n).lookaheads i ∧
      productionAt (ofGrammar g).reductionOrder r = i.production ∧
      (tableOf g G).reductions.getD r default =
        Production.toReduction g q := by
  have hmem := actionAt_mem_candidates (ofGrammar g) hn (t := t) (by rw [hr]; nofun)
  rw [hr] at hmem
  rcases mem_candidatesFrom.1 hmem with ⟨n', -, heq⟩ | ⟨-, -, heq⟩ | ⟨r', hr', heq⟩
  · cases heq
  · cases heq
  · cases heq
    have hground := h.grounded_elements hg hn
    obtain ⟨i, hi, hc, ht, rfl⟩ := (mem_reductions _ hground.proper.sorted).1 hr'
    obtain ⟨q, hq, -⟩ := hground.item i hi
    exact ⟨i, hi, q, hq, hc, ht, productionAt_idxOf (mem_reductionOrder hg hq),
      reductions_ofGraph hg hq⟩

/-- **Every action of the table has an item that calls for it.** -/
theorem licensed_ofGraph (h : IsAutomaton g G) (hg : g.WellFormed) :
    Licensed g G (policyOf g G) := by
  have hcand : ∀ {s a}, s < G.size → (tableOf g G).actionAt s a ≠ .error →
      _ := fun {s a} hs hne => mem_candidatesFrom.1 (actionAt_mem_candidates (ofGrammar g) hs hne)
  refine ⟨fun {s a n} hs hact => ?_, fun {s a p} hs hact => ?_, fun {s a} hs hact => ?_⟩
  · have hact := (policyOf_eq_iff (x := .shift n) nofun).1 hact
    rcases hcand hs (a := a) (by rw [hact]; nofun) with ⟨n', hm, heq⟩ | ⟨-, -, heq⟩ | ⟨r, -, heq⟩
    · rw [hact] at heq
      cases heq
      exact hm
    · rw [hact] at heq
      cases heq
    · rw [hact] at heq
      cases heq
  · obtain ⟨r, hr, rfl⟩ := policyOf_eq_reduce_iff.1 hact
    obtain ⟨i, hi, q, -, hc, ht, hprod, -⟩ := exists_item_of_actionAt h hg hs hr
    exact ⟨i, hi, hprod.symm, hc, ht⟩
  · have hact := (policyOf_eq_iff (x := .accept) nofun).1 hact
    rcases hcand hs (a := a) (by rw [hact]; nofun) with ⟨n', -, heq⟩ | ⟨ha, hne, -⟩ | ⟨r, -, heq⟩
    · rw [hact] at heq
      cases heq
    · exact ⟨ha, itemsBefore_ne_nil_iff.1 hne⟩
    · rw [hact] at heq
      cases heq

/-- The end of the input is not shifted. -/
theorem Licensed.ne_zero_of_shift {act : Nat → Nat → Act Nat} (hlic : Licensed g G act)
    (h : IsAutomaton g G) {s a : Nat} (hs : s < G.size) (hact : act s a = .shift n) : a ≠ 0 := by
  rintro rfl
  obtain ⟨i, -, hl⟩ := h.exists_leads_of_transition (hlic.shift hs hact)
  exact hl.1 rfl

/-- **Where no cell has two candidates, the table does whatever an item calls for.** -/
theorem obeyed_ofGraph (h : IsAutomaton g G) (hg : g.WellFormed)
    (hfree : ConflictFree (ofGrammar g) G) :
    Obeyed g G (policyOf g G) := by
  have hact : ∀ {s a x}, s < G.size → a < g.terminals.size →
      x ∈ (ofGrammar g).candidates (ofGrammar g).reductionOrder (G.state s) a →
      (tableOf g G).actionAt s a = x :=
    fun hs ha hx => actionAt_eq_of_mem_candidates hs ha hfree hx
  refine ⟨fun {s a n} hs ht => ?_, fun {s a i} hs hi hc ha => ?_, fun {s i} hs hi hX => ?_⟩
  · have ha : a < g.terminals.size := h.within_of_transition hg ht
    exact (policyOf_eq_iff (x := .shift n) nofun).2
      (hact hs ha (mem_candidatesFrom.2 (.inl ⟨n, ht, rfl⟩)))
  · have hground := h.grounded_elements hg hs
    have hr := (mem_reductions (ofGrammar g).reductionOrder (c := ofGrammar g)
      (s := G.state s) hground.proper.sorted).2 ⟨i, hi, hc, ha, rfl⟩
    obtain ⟨q, hq, -⟩ := hground.item i hi
    exact policyOf_eq_reduce_iff.2 ⟨_, hact hs (hground.proper.bounded i a ha)
      (mem_candidatesFrom.2 (.inr (.inr ⟨_, hr, rfl⟩))),
      productionAt_idxOf (mem_reductionOrder hg hq)⟩
  · exact (policyOf_eq_iff (x := .accept) nofun).2 (hact hs hg.terminals_pos
      (mem_candidatesFrom.2 (.inr (.inl ⟨rfl, itemsBefore_ne_nil_iff.2 ⟨i, hi, hX⟩, rfl⟩))))

/-- The successors in the table are the transitions over nonterminals. -/
theorem gotoAt?_ofGraph (h : IsAutomaton g G) (hg : g.WellFormed) (hn : n < G.size) {k : Nat} :
    (tableOf g G).gotoAt? n m = some k ↔
      (.nonterminal m, k) ∈ G.transitions n := by
  have hgoto : (tableOf g G).gotoAt? n m =
      (((ofGrammar g).successors (G.state n))[m]?).join := by
    simp [ParseTable.gotoAt?, tableOf, ParseTable.ofGraph, Graph.getElem?_states hn]
  rw [hgoto, successors_eq]
  by_cases hm : m < g.nonterminals.size
  · rcases getElem?_fill nonterminalColumn (fun e : Symbol × Nat => some e.2)
      (G.state n).transitions (Array.replicate (ofGrammar g).grammar.nonterminals.size none)
      (t := m) (by simpa [ofGrammar] using hm) with ⟨⟨X, k'⟩, hmem, hk, heq⟩ | ⟨hnone, heq⟩
    · obtain rfl : X = .nonterminal m := nonterminalColumn_eq_some_iff.1 hk
      rw [heq]
      simp only [Option.join_some, Option.some.injEq]
      constructor
      · rintro rfl
        exact hmem
      · intro hmem'
        exact h.transition_unique hmem hmem'
    · rw [heq]
      constructor
      · intro hsome
        simp [hm, ofGrammar] at hsome
      · intro hmem
        exact absurd (nonterminalColumn_eq_some_iff.2 rfl) (hnone _ hmem)
  · constructor
    · intro hsome
      rw [Array.getElem?_eq_none] at hsome
      · cases hsome
      · rw [size_fill, Array.size_replicate]
        exact Nat.not_lt.1 hm
    · intro hmem
      exact absurd (h.within_of_transition hg hmem) hm

end

end LexParse.Lr
