import LexParse.Grammar.First
import Mathlib.Data.Finset.Option
import Mathlib.Data.Finset.Prod
import Mathlib.Logic.Function.Iterate

/-!
# What the first terminals mean

The table of first terminals is found by rounds that add what the productions demand. Here it is
compared with two relations that know nothing of rounds: a string *vanishes* if all its symbols can
be replaced by nothing, and it *begins* with a terminal if the symbols before some place vanish and
the symbol at that place leads to the terminal.

## What is proved

* `FirstTable.round_compute`: the limit of the rounds is high enough, so the computed table demands
  no more. Every round but the last adds a fact, and there are only `nonterminals * (terminals + 1)`
  facts to add.
* `FirstTable.nullable_compute_iff` and `FirstTable.mem_terminals_compute_iff`: the entry of a
  string says that it vanishes exactly when it does, and lists exactly the terminals it begins
  with.
-/

namespace LexParse

/-- A string of symbols can be replaced by nothing. -/
inductive Vanishes (productions : List Production) : List Symbol → Prop where
  /-- The empty string is nothing. -/
  | nil : Vanishes productions []
  /-- A nonterminal in front is replaced by a right side that vanishes. -/
  | cons {p : Production} {rest : List Symbol} : p ∈ productions → Vanishes productions p.right →
      Vanishes productions rest → Vanishes productions (.nonterminal p.left :: rest)

/-- A string of symbols can be replaced by one with a terminal in front. -/
inductive Begins (productions : List Production) : List Symbol → Nat → Prop where
  /-- The terminal stands in front. -/
  | terminal {a : Nat} {rest : List Symbol} : Begins productions (.terminal a :: rest) a
  /-- The nonterminal in front is replaced by a right side that begins with the terminal. -/
  | inside {p : Production} {rest : List Symbol} {a : Nat} : p ∈ productions →
      Begins productions p.right a → Begins productions (.nonterminal p.left :: rest) a
  /-- The nonterminal in front vanishes, and the rest begins with the terminal. -/
  | behind {n : Nat} {rest : List Symbol} {a : Nat} : Vanishes productions [.nonterminal n] →
      Begins productions rest a → Begins productions (.nonterminal n :: rest) a

section
variable {productions : List Production}

theorem not_vanishes_terminal {a : Nat} {rest : List Symbol} :
    ¬ Vanishes productions (.terminal a :: rest) := by
  intro h
  cases h

theorem vanishes_append_iff {u v : List Symbol} :
    Vanishes productions (u ++ v) ↔ Vanishes productions u ∧ Vanishes productions v := by
  constructor
  · intro h
    induction u with
    | nil => exact ⟨.nil, h⟩
    | cons s rest ih =>
      cases h with
      | cons hp hright hrest => exact ⟨.cons hp hright (ih hrest).1, (ih hrest).2⟩
  · rintro ⟨hu, hv⟩
    induction hu with
    | nil => exact hv
    | cons hp hright _ _ ih => exact .cons hp hright ih

theorem vanishes_cons_iff {s : Symbol} {rest : List Symbol} :
    Vanishes productions (s :: rest) ↔ Vanishes productions [s] ∧ Vanishes productions rest :=
  vanishes_append_iff (u := [s])

theorem begins_append_iff {u v : List Symbol} {a : Nat} :
    Begins productions (u ++ v) a ↔
      Begins productions u a ∨ Vanishes productions u ∧ Begins productions v a := by
  constructor
  · intro h
    induction u with
    | nil => exact .inr ⟨.nil, h⟩
    | cons s rest ih =>
      cases h with
      | terminal => exact .inl .terminal
      | inside hp hright => exact .inl (.inside hp hright)
      | behind hn hrest =>
        rcases ih hrest with hb | ⟨hv, hb⟩
        · exact .inl (.behind hn hb)
        · exact .inr ⟨vanishes_cons_iff.2 ⟨hn, hv⟩, hb⟩
  · rintro (hu | ⟨hu, hv⟩)
    · induction hu with
      | terminal => exact .terminal
      | inside hp hright _ => exact .inside hp hright
      | behind hn _ ih => exact .behind hn ih
    · induction hu with
      | nil => exact hv
      | cons hp hright _ _ ih => exact .behind (.cons hp hright .nil) ih

/-- A nonterminal in front begins with what it does alone, unless it vanishes. -/
theorem begins_nonterminal_cons_iff {n a : Nat} {rest : List Symbol} :
    Begins productions (.nonterminal n :: rest) a ↔ Begins productions [.nonterminal n] a ∨
      Vanishes productions [.nonterminal n] ∧ Begins productions rest a :=
  begins_append_iff (u := [.nonterminal n])

end

/-! ### What may come first -/

/-- The terminals that may come first where a string of symbols is to come, and behind it what
begins with a terminal of `after`. -/
def Ahead (productions : List Production) (s : List Symbol) (after : Nat → Prop) (a : Nat) : Prop :=
  Begins productions s a ∨ Vanishes productions s ∧ after a

theorem Ahead.mono {productions : List Production} {s : List Symbol} {after after' : Nat → Prop}
    {a : Nat} (h : Ahead productions s after a) (hsub : ∀ b, after b → after' b) :
    Ahead productions s after' a :=
  h.imp_right fun ⟨hv, ha⟩ => ⟨hv, hsub a ha⟩

theorem ahead_append_iff {productions : List Production} {u v : List Symbol}
    {after : Nat → Prop} {a : Nat} : Ahead productions (u ++ v) after a ↔
      Ahead productions u (Ahead productions v after) a := by
  simp only [Ahead, begins_append_iff, vanishes_append_iff]
  tauto

/-- In front of a production's right side may stand what stands in front of its left side. -/
theorem Ahead.fold {productions : List Production} {p : Production} (hp : p ∈ productions)
    {rest : List Symbol} {after : Nat → Prop} {a : Nat}
    (h : Ahead productions (p.right ++ rest) after a) :
    Ahead productions (.nonterminal p.left :: rest) after a := by
  rcases ahead_append_iff.1 h with hb | ⟨hv, hrest⟩
  · exact .inl (.inside hp hb)
  · refine ahead_append_iff (u := [_]) |>.2 (.inr ⟨.cons hp hv .nil, hrest⟩)

/-! ### Numbers within bounds -/

/-- The number of a symbol is below the number of symbols of its sort. -/
def Symbol.Within (nonterminals terminals : Nat) : Symbol → Prop
  | .terminal a => a < terminals
  | .nonterminal n => n < nonterminals

/-- All numbers of a production are below the number of symbols of their sort. -/
structure Production.Within (nonterminals terminals : Nat) (p : Production) : Prop where
  left : p.left < nonterminals
  right : ∀ s ∈ p.right, s.Within nonterminals terminals

instance (nonterminals terminals : Nat) (s : Symbol) :
    Decidable (s.Within nonterminals terminals) :=
  match s with
  | .terminal a => inferInstanceAs (Decidable (a < terminals))
  | .nonterminal n => inferInstanceAs (Decidable (n < nonterminals))

instance (nonterminals terminals : Nat) (p : Production) :
    Decidable (p.Within nonterminals terminals) :=
  decidable_of_iff (p.left < nonterminals ∧ ∀ s ∈ p.right, s.Within nonterminals terminals)
    ⟨fun h => ⟨h.1, h.2⟩, fun h => ⟨h.left, h.right⟩⟩

/-- Pairs of a row with nothing or with a column: what can be said of a table whose rows may be
present and may have each column. -/
def factSpace (rows columns : Nat) : Finset (Nat × Option Nat) :=
  Finset.range rows ×ˢ (Finset.range columns).insertNone

theorem card_factSpace (rows columns : Nat) :
    (factSpace rows columns).card = rows * (columns + 1) := by
  simp [factSpace, Finset.card_insertNone]

namespace FirstTable

variable {productions : List Production} {t : FirstTable}

/-! ### The entry of a string -/

/-- Every terminal in the table is below a bound. -/
def Bounded (terminals : Nat) (t : FirstTable) : Prop :=
  ∀ n a, a ∈ (t.entry n).terminals → a < terminals

theorem lt_of_mem_ofString {nonterminals terminals : Nat} (ht : Bounded terminals t)
    {s : List Symbol} (hs : ∀ x ∈ s, x.Within nonterminals terminals) {a : Nat}
    (ha : a ∈ (t.ofString s).terminals) : a < terminals := by
  induction s with
  | nil => simp [ofString] at ha
  | cons x rest ih =>
    have hrest := ih fun y hy => hs y (by simp [hy])
    cases x with
    | terminal b =>
      have hb : b < terminals := hs (.terminal b) (by simp)
      simp only [ofString, NatSet.mem_single] at ha
      exact ha ▸ hb
    | nonterminal n =>
      rw [ofString] at ha
      split at ha
      · rcases NatSet.mem_union.1 ha with ha | ha
        · exact ht n a ha
        · exact hrest ha
      · exact ht n a ha

/-- The entries say nothing that the productions do not bear out. -/
structure Sound (productions : List Production) (t : FirstTable) : Prop where
  vanishes : ∀ n, (t.entry n).nullable = true → Vanishes productions [.nonterminal n]
  begins : ∀ n a, a ∈ (t.entry n).terminals → Begins productions [.nonterminal n] a

theorem Sound.ofString (h : Sound productions t) (s : List Symbol) :
    ((t.ofString s).nullable = true → Vanishes productions s) ∧
      ∀ a, a ∈ (t.ofString s).terminals → Begins productions s a := by
  induction s with
  | nil => exact ⟨fun _ => .nil, fun a ha => by simp [FirstTable.ofString] at ha⟩
  | cons x rest ih =>
    cases x with
    | terminal b =>
      refine ⟨fun hn => by simp [FirstTable.ofString] at hn, fun a ha => ?_⟩
      simp only [FirstTable.ofString, NatSet.mem_single] at ha
      exact ha ▸ .terminal
    | nonterminal n =>
      rw [FirstTable.ofString]
      split
      · rename_i hn
        have hv := h.vanishes n hn
        refine ⟨fun hr => vanishes_cons_iff.2 ⟨hv, ih.1 hr⟩, fun a ha => ?_⟩
        rcases NatSet.mem_union.1 ha with ha | ha
        · exact begins_nonterminal_cons_iff.2 (.inl (h.begins n a ha))
        · exact .behind hv (ih.2 a ha)
      · refine ⟨fun hr => by simp at hr, fun a ha => ?_⟩
        exact begins_nonterminal_cons_iff.2 (.inl (h.begins n a ha))

/-- The entries hold all that the productions bear out. -/
structure Complete (productions : List Production) (t : FirstTable) : Prop where
  vanishes : ∀ n, Vanishes productions [.nonterminal n] → (t.entry n).nullable = true
  begins : ∀ n a, Begins productions [.nonterminal n] a → a ∈ (t.entry n).terminals

theorem Complete.ofString (h : Complete productions t) (s : List Symbol) :
    (Vanishes productions s → (t.ofString s).nullable = true) ∧
      ∀ a, Begins productions s a → a ∈ (t.ofString s).terminals := by
  induction s with
  | nil => exact ⟨fun _ => rfl, fun a ha => by cases ha⟩
  | cons x rest ih =>
    cases x with
    | terminal b =>
      refine ⟨fun hv => absurd hv not_vanishes_terminal, fun a ha => ?_⟩
      cases ha
      simp [FirstTable.ofString]
    | nonterminal n =>
      rw [FirstTable.ofString]
      constructor
      · intro hv
        obtain ⟨hn, hr⟩ := vanishes_cons_iff.1 hv
        simp [h.vanishes n hn, ih.1 hr]
      · intro a ha
        rcases begins_nonterminal_cons_iff.1 ha with ha | ⟨hn, ha⟩
        · have := h.begins n a ha
          split
          · exact NatSet.mem_union.2 (.inl this)
          · exact this
        · rw [if_pos (h.vanishes n hn)]
          exact NatSet.mem_union.2 (.inr (ih.2 a ha))

/-! ### One round -/

theorem nullable_foldl_join_iff {entries : List FirstEntry} {e : FirstEntry} :
    (entries.foldl FirstEntry.join e).nullable = true ↔
      e.nullable = true ∨ ∃ x ∈ entries, x.nullable = true := by
  induction entries generalizing e with
  | nil => simp
  | cons x rest ih => simp [ih, FirstEntry.join, or_assoc]

theorem mem_terminals_foldl_join_iff {entries : List FirstEntry} {e : FirstEntry} {a : Nat} :
    a ∈ (entries.foldl FirstEntry.join e).terminals ↔
      a ∈ e.terminals ∨ ∃ x ∈ entries, a ∈ x.terminals := by
  induction entries generalizing e with
  | nil => simp
  | cons x rest ih => simp [ih, FirstEntry.join, or_assoc]

theorem improve_eq_foldl_join (n : Nat) :
    t.improve productions n = ((productions.filter (·.left == n)).map fun p =>
      t.ofString p.right).foldl FirstEntry.join (t.entry n) := by
  rw [improve, List.foldl_map]

theorem nullable_improve_iff {n : Nat} : (t.improve productions n).nullable = true ↔
    (t.entry n).nullable = true ∨
      ∃ p ∈ productions, p.left = n ∧ (t.ofString p.right).nullable = true := by
  rw [improve_eq_foldl_join, nullable_foldl_join_iff]
  simp [and_assoc]

theorem mem_terminals_improve_iff {n a : Nat} : a ∈ (t.improve productions n).terminals ↔
    a ∈ (t.entry n).terminals ∨
      ∃ p ∈ productions, p.left = n ∧ a ∈ (t.ofString p.right).terminals := by
  rw [improve_eq_foldl_join, mem_terminals_foldl_join_iff]
  simp [and_assoc]

@[simp] theorem size_round : (t.round productions).size = t.size := by
  simp [round]

theorem entry_round_of_lt {n : Nat} (h : n < t.size) :
    (t.round productions).entry n = t.improve productions n := by
  simp [entry, round, Array.getD, h]

theorem entry_eq_of_le {n : Nat} (h : t.size ≤ n) : t.entry n = {} := by
  simp [entry, Array.getD, Nat.not_lt.2 h]

theorem Sound.improve (h : Sound productions t) (n : Nat) :
    ((t.improve productions n).nullable = true → Vanishes productions [.nonterminal n]) ∧
      ∀ a, a ∈ (t.improve productions n).terminals → Begins productions [.nonterminal n] a := by
  constructor
  · intro hn
    rcases nullable_improve_iff.1 hn with hold | ⟨p, hp, rfl, hnew⟩
    · exact h.vanishes n hold
    · exact .cons hp ((h.ofString p.right).1 hnew) .nil
  · intro a ha
    rcases mem_terminals_improve_iff.1 ha with hold | ⟨p, hp, rfl, hnew⟩
    · exact h.begins n a hold
    · exact .inside hp ((h.ofString p.right).2 a hnew)

theorem Sound.round (h : Sound productions t) : Sound productions (t.round productions) := by
  constructor
  · intro n hn
    rcases Nat.lt_or_ge n t.size with hlt | hge
    · rw [entry_round_of_lt hlt] at hn
      exact (h.improve n).1 hn
    · rw [entry_eq_of_le (by simpa using hge)] at hn
      cases hn
  · intro n a ha
    rcases Nat.lt_or_ge n t.size with hlt | hge
    · rw [entry_round_of_lt hlt] at ha
      exact (h.improve n).2 a ha
    · rw [entry_eq_of_le (by simpa using hge)] at ha
      simp at ha

theorem Bounded.round {nonterminals terminals : Nat} (h : Bounded terminals t)
    (hp : ∀ p ∈ productions, p.Within nonterminals terminals) :
    Bounded terminals (t.round productions) := by
  intro n a ha
  rcases Nat.lt_or_ge n t.size with hlt | hge
  · rw [entry_round_of_lt hlt] at ha
    rcases mem_terminals_improve_iff.1 ha with ha | ⟨p, hpm, -, ha⟩
    · exact h n a ha
    · exact lt_of_mem_ofString h (hp p hpm).right ha
  · rw [entry_eq_of_le (by simpa using hge)] at ha
    simp at ha

/-- The table holds what a production demands of its left side. -/
structure Meets (t : FirstTable) (p : Production) : Prop where
  vanishes : (t.ofString p.right).nullable = true → (t.entry p.left).nullable = true
  begins : ∀ a, a ∈ (t.ofString p.right).terminals → a ∈ (t.entry p.left).terminals

/-- A table that meets all demands holds all that the productions bear out. -/
theorem complete_of_meets (h : ∀ p ∈ productions, Meets t p) : Complete productions t := by
  have hv : ∀ s, Vanishes productions s → (t.ofString s).nullable = true := by
    intro s hs
    induction hs with
    | nil => rfl
    | @cons p rest hp _ _ ihright ihrest =>
      simp [FirstTable.ofString, (h p hp).vanishes ihright, ihrest]
  have hb : ∀ s a, Begins productions s a → a ∈ (t.ofString s).terminals := by
    intro s a hs
    induction hs with
    | terminal => simp [FirstTable.ofString]
    | @inside p rest a hp _ ih =>
      have := (h p hp).begins a ih
      rw [FirstTable.ofString]
      split
      · exact NatSet.mem_union.2 (.inl this)
      · exact this
    | @behind n rest a hn _ ih =>
      have hnull' : (t.entry n).nullable = true := by
        have := hv _ hn
        by_contra hne
        simp [FirstTable.ofString, hne] at this
      simp only [FirstTable.ofString, hnull', if_true]
      exact NatSet.mem_union.2 (.inr ih)
  constructor
  · intro n hn
    have := hv _ hn
    by_contra hne
    simp [FirstTable.ofString, hne] at this
  · intro n a ha
    have := hb _ a ha
    simp only [FirstTable.ofString] at this
    split at this
    · simpa using this
    · exact this

/-- A table that a round does not change meets all demands. -/
theorem meets_of_round_eq (hround : t.round productions = t) {p : Production}
    (hp : p ∈ productions) (hlt : p.left < t.size) : Meets t p := by
  have hentry : t.entry p.left = t.improve productions p.left := by
    rw [← entry_round_of_lt hlt, hround]
  constructor
  · intro hn
    rw [hentry]
    exact nullable_improve_iff.2 (.inr ⟨p, hp, rfl, hn⟩)
  · intro a ha
    rw [hentry]
    exact mem_terminals_improve_iff.2 (.inr ⟨p, hp, rfl, ha⟩)

/-! ### All rounds -/

/-- What a table can say: that a nonterminal vanishes, or that it begins with a terminal. -/
def Fact (t : FirstTable) : Nat × Option Nat → Prop
  | (n, none) => (t.entry n).nullable = true
  | (n, some a) => a ∈ (t.entry n).terminals

instance (t : FirstTable) : DecidablePred (Fact t) := fun
  | (n, none) => inferInstanceAs (Decidable ((t.entry n).nullable = true))
  | (n, some a) => inferInstanceAs (Decidable (a ∈ (t.entry n).terminals))

/-- What a table does say. -/
def facts (nonterminals terminals : Nat) (t : FirstTable) : Finset (Nat × Option Nat) :=
  (factSpace nonterminals terminals).filter (Fact t)

theorem card_facts_le (nonterminals terminals : Nat) (t : FirstTable) :
    (facts nonterminals terminals t).card ≤ nonterminals * (terminals + 1) := by
  calc (facts nonterminals terminals t).card
      ≤ (factSpace nonterminals terminals).card := Finset.card_filter_le _ _
    _ = nonterminals * (terminals + 1) := card_factSpace _ _

theorem Fact.round {f : Nat × Option Nat} (h : Fact t f) : Fact (t.round productions) f := by
  obtain ⟨n, what⟩ := f
  rcases Nat.lt_or_ge n t.size with hlt | hge
  · cases what with
    | none =>
      show ((t.round productions).entry n).nullable = true
      rw [entry_round_of_lt hlt]
      exact nullable_improve_iff.2 (.inl h)
    | some a =>
      show a ∈ ((t.round productions).entry n).terminals
      rw [entry_round_of_lt hlt]
      exact mem_terminals_improve_iff.2 (.inl h)
  · -- a table says nothing beyond its size
    cases what with
    | none => simp [Fact, entry_eq_of_le hge] at h
    | some a => simp [Fact, entry_eq_of_le hge] at h

/-- Tables of one size that say the same are equal. -/
theorem ext_fact {t u : FirstTable} (hsize : t.size = u.size) (h : ∀ f, Fact t f ↔ Fact u f) :
    t = u := by
  refine Array.ext hsize fun i hi hj => ?_
  have ht : t.entry i = t[i] := by simp [entry, Array.getD, hi]
  have hu : u.entry i = u[i] := by simp [entry, Array.getD, hj]
  rw [← ht, ← hu]
  have hterms : (t.entry i).terminals = (u.entry i).terminals :=
    NatSet.ext_mem fun a => h (i, some a)
  have hnull : (t.entry i).nullable = (u.entry i).nullable :=
    Bool.eq_iff_iff.2 (h (i, none))
  calc t.entry i = ⟨(t.entry i).terminals, (t.entry i).nullable⟩ := rfl
    _ = ⟨(u.entry i).terminals, (u.entry i).nullable⟩ := by rw [hterms, hnull]
    _ = u.entry i := rfl

theorem mem_factSpace_of_fact {terminals : Nat} (hb : Bounded terminals t) {f : Nat × Option Nat}
    (h : Fact t f) : f ∈ factSpace t.size terminals := by
  obtain ⟨n, what⟩ := f
  have hn : n < t.size := by
    by_contra hge
    have he := entry_eq_of_le (Nat.not_lt.1 hge)
    cases what with
    | none => simp [Fact, he] at h
    | some a => simp [Fact, he] at h
  cases what with
  | none => simp [factSpace, hn]
  | some a => simpa [factSpace, hn] using hb n a h

/-- A table of the same size says all that another one says. -/
structure Extends (t u : FirstTable) : Prop where
  size : u.size = t.size
  fact : ∀ f, Fact t f → Fact u f

theorem Extends.refl (t : FirstTable) : Extends t t := ⟨rfl, fun _ h => h⟩

theorem Extends.trans {u v : FirstTable} (h : Extends t u) (h' : Extends u v) : Extends t v :=
  ⟨h'.size.trans h.size, fun f hf => h'.fact f (h.fact f hf)⟩

theorem Extends.antisymm {u : FirstTable} (h : Extends t u) (h' : Extends u t) : u = t :=
  ext_fact h.size fun f => ⟨h'.fact f, h.fact f⟩

theorem extends_round : Extends t (t.round productions) := ⟨size_round, fun _ => Fact.round⟩

/-- A table that says more has more facts. -/
theorem card_facts_lt {terminals : Nat} {u : FirstTable} (h : Extends t u)
    (hb : Bounded terminals u) (hne : u ≠ t) :
    (facts t.size terminals t).card < (facts t.size terminals u).card := by
  apply Finset.card_lt_card
  rw [Finset.ssubset_iff_of_subset]
  · by_contra hno
    push Not at hno
    refine hne (h.antisymm ⟨h.size.symm, fun f hf => ?_⟩)
    have hmem : f ∈ facts t.size terminals u :=
      Finset.mem_filter.2 ⟨h.size ▸ mem_factSpace_of_fact hb hf, hf⟩
    exact (Finset.mem_filter.1 (hno f hmem)).2
  · intro f hf
    obtain ⟨hu, hf⟩ := Finset.mem_filter.1 hf
    exact Finset.mem_filter.2 ⟨hu, h.fact f hf⟩

/-- What only adds facts to tables changes nothing any more once it has been done as often as there
are facts to add. -/
theorem iterate_fixed {terminals : Nat} {f : FirstTable → FirstTable}
    (hext : ∀ t, Extends t (f t)) (hbounded : ∀ t, Bounded terminals t → Bounded terminals (f t))
    {k : Nat} (hb : Bounded terminals t)
    (hk : t.size * (terminals + 1) ≤ k + (facts t.size terminals t).card) :
    f (f^[k] t) = f^[k] t := by
  induction k generalizing t with
  | zero =>
    by_contra hne
    have := card_facts_lt (hext t) (hbounded t hb) hne
    have := card_facts_le t.size terminals (f t)
    omega
  | succ k ih =>
    rw [Function.iterate_succ_apply]
    by_cases h : f t = t
    · rw [h, Function.iterate_fixed h, h]
    · have := card_facts_lt (hext t) (hbounded t hb) h
      refine ih (hbounded t hb) ?_
      rw [(hext t).size]
      omega

theorem iterate_eq (rounds : Nat) :
    iterate productions rounds t = (round productions)^[rounds] t := by
  induction rounds generalizing t with
  | zero => rfl
  | succ rounds ih =>
    rw [iterate, Function.iterate_succ_apply]
    split
    · rename_i h
      rw [h, Function.iterate_fixed h]
    · exact ih

theorem size_iterate (rounds : Nat) : (iterate productions rounds t).size = t.size := by
  induction rounds generalizing t with
  | zero => rfl
  | succ rounds ih =>
    rw [iterate]
    split
    · rfl
    · rw [ih, size_round]

theorem Sound.iterate (h : Sound productions t) (rounds : Nat) :
    Sound productions (iterate productions rounds t) := by
  induction rounds generalizing t with
  | zero => exact h
  | succ rounds ih =>
    rw [FirstTable.iterate]
    split
    · exact h
    · exact ih h.round

theorem Bounded.iterate {nonterminals terminals : Nat} (h : Bounded terminals t)
    (hp : ∀ p ∈ productions, p.Within nonterminals terminals) (rounds : Nat) :
    Bounded terminals (iterate productions rounds t) := by
  induction rounds generalizing t with
  | zero => exact h
  | succ rounds ih =>
    rw [FirstTable.iterate]
    split
    · exact h
    · exact ih (h.round hp)

/-! ### The computed table -/

theorem entry_replicate (nonterminals n : Nat) :
    entry (Array.replicate nonterminals {}) n = {} := by
  simp only [entry, Array.getD]
  split <;> simp

theorem bounded_replicate (nonterminals terminals : Nat) :
    Bounded terminals (Array.replicate nonterminals {}) := by
  intro n a ha
  rw [entry_replicate] at ha
  simp at ha

theorem sound_replicate (nonterminals : Nat) :
    Sound productions (Array.replicate nonterminals {}) := by
  constructor
  · intro n hn
    rw [entry_replicate] at hn
    cases hn
  · intro n a ha
    rw [entry_replicate] at ha
    simp at ha

section
variable {nonterminals terminals : Nat}

theorem sound_compute : Sound productions (compute productions nonterminals terminals) :=
  (sound_replicate nonterminals).iterate _

variable (hp : ∀ p ∈ productions, p.Within nonterminals terminals)
include hp

/-- The computed table demands no more. -/
theorem round_compute : (compute productions nonterminals terminals).round productions =
    compute productions nonterminals terminals := by
  rw [compute, iterate_eq]
  refine iterate_fixed (fun _ => extends_round) (fun _ h => h.round hp) (bounded_replicate _ _) ?_
  rw [Array.size_replicate]
  omega

theorem complete_compute : Complete productions (compute productions nonterminals terminals) := by
  refine complete_of_meets fun p hpm => meets_of_round_eq (round_compute hp) hpm ?_
  rw [compute, size_iterate, Array.size_replicate]
  exact (hp p hpm).left

/-- The computed entry of a string says that it vanishes exactly when it does. -/
theorem nullable_compute_iff {s : List Symbol} :
    ((compute productions nonterminals terminals).ofString s).nullable = true ↔
      Vanishes productions s :=
  ⟨(sound_compute.ofString s).1, ((complete_compute hp).ofString s).1⟩

/-- The computed entry of a string lists exactly the terminals that it begins with. -/
theorem mem_terminals_compute_iff {s : List Symbol} {a : Nat} :
    a ∈ ((compute productions nonterminals terminals).ofString s).terminals ↔
      Begins productions s a :=
  ⟨(sound_compute.ofString s).2 a, ((complete_compute hp).ofString s).2 a⟩

theorem bounded_compute : Bounded terminals (compute productions nonterminals terminals) :=
  (bounded_replicate _ _).iterate hp _

end

end FirstTable

end LexParse
