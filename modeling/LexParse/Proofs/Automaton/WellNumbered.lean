import LexParse.Proofs.Automaton.Minimal

/-!
# Well-numbered tables

A table is run by its numbers: a state is the number of a row, a class the place of an entry, and
the entry the number of a row again. No number may lead outside. The scanner also relies on two
states: the dead one, where nothing matches and which is not left, and the start, to which nothing
comes back.

All this follows from what the machine does, however its states are numbered. It holds of the
subset machine, and then also of the machine of the groups, because the start has a group of its
own.

## What is proved

* `wellNumbered_tabulate`: the table of a machine for some rules is well numbered.
* `Nfa.wellNumbered_table`, `Table.WellNumbered.minimize`: so is the table of an automaton, and the
  smaller one.
-/

namespace LexParse.Automaton

variable {σ : Type} {m : Machine σ} {P : σ → Prop} {limit : Nat}

/-- A machine that matches some of a number of rules, but none in the dead state, and that does not
come back to its start. -/
structure Machine.Scans (m : Machine σ) (P : σ → Prop) (rules : Nat) : Prop
    extends m.Stays P where
  rule_lt : ∀ s r, P s → m.rule s = some r → r < rules
  rule_dead : m.rule m.dead = none
  dead_ne_start : m.dead ≠ m.start
  next_ne_start : ∀ s c, P s → c < m.classes → m.next s c ≠ m.start

/-- A table for a number of classes and a number of rules whose numbers do not lead outside, whose
dead state matches nothing and is not left, and whose start is not come back to. -/
structure Table.WellNumbered (t : Table) (classes rules : Nat) : Prop where
  /-- The start has a row. -/
  start_lt : t.start < t.rows.size
  /-- The dead state has a row. -/
  dead_lt : t.dead < t.rows.size
  /-- Every row has one entry for each class. -/
  size_row : ∀ row ∈ t.rows, row.size = classes
  /-- Every entry is the number of a row. -/
  entry_lt : ∀ row ∈ t.rows, ∀ j ∈ row, j < t.rows.size
  /-- For every row there is what its state matches. -/
  size_accepting : t.accepting.size = t.rows.size
  /-- What a state matches is the number of a rule. -/
  rule_lt : ∀ r, some r ∈ t.accepting → r < rules
  /-- The dead state matches nothing. -/
  accepting_dead : t.accepting[t.dead]? = some none
  /-- The dead state is not the start. -/
  dead_ne_start : t.dead ≠ t.start
  /-- The dead state leads to itself. -/
  row_dead : t.rows[t.dead]? = some (Array.replicate classes t.dead)
  /-- Nothing leads to the start. -/
  start_notMem : ∀ row ∈ t.rows, t.start ∉ row

/-! ### Tables of machines -/

section Tabulate

variable [BEq σ] [LawfulBEq σ] [Hashable σ]

/-- An entry of a table stands for a successor. -/
theorem exists_next_of_mem (hm : m.Stays P) (hlimit : AtMost limit P) {row : Array Nat} {j : Nat}
    (hrow : row ∈ (m.tabulate limit).rows) (hj : j ∈ row) :
    ∃ s c, P s ∧ c < m.classes ∧ (m.visited limit).found.values[j]? = some (m.next s c) := by
  obtain ⟨i, hi⟩ := Array.mem_iff_getElem?.1 hrow
  obtain ⟨c, hc⟩ := Array.mem_iff_getElem?.1 hj
  obtain ⟨s, hs, hP⟩ := exists_value_tabulate hm hlimit (Array.getElem?_eq_some_iff.1 hi).1
  have hclass : c < m.classes :=
    even_tabulate m limit row hrow ▸ (Array.getElem?_eq_some_iff.1 hc).1
  have hentry : (m.tabulate limit).next? i c = some j := by
    rw [Table.next?, hi, Option.bind_some, hc]
  obtain ⟨k, hk, hnext⟩ := (simulates_tabulate hm hlimit).next hs hclass
  obtain rfl := Option.some.inj (hentry.symm.trans hk)
  exact ⟨s, c, hP, hclass, hnext⟩

/-- The row of the dead state has only the number of the dead state. -/
theorem row_dead_tabulate (hm : m.Stays P) (hlimit : AtMost limit P) :
    (m.tabulate limit).rows[(m.tabulate limit).dead]? =
      some (Array.replicate m.classes (m.tabulate limit).dead) := by
  have hsim := simulates_tabulate hm hlimit
  have hrow := Array.getElem?_eq_getElem (hsim.lt_size hsim.dead)
  have hsize := even_tabulate m limit _ (Array.mem_of_getElem? hrow)
  rw [hrow, Option.some.injEq]
  refine Array.ext (by simpa using hsize) fun c hc _ => ?_
  have hclass : c < m.classes := hsize ▸ hc
  obtain ⟨k, hk, hR⟩ := hsim.next hsim.dead hclass
  rw [hm.next_dead c hclass] at hR
  obtain rfl := hsim.unique hR hsim.dead
  rw [Table.next?, hrow, Option.bind_some, Array.getElem?_eq_getElem hc] at hk
  rw [Array.getElem_replicate]
  exact Option.some.inj hk

/-- **The table of a machine for some rules is well numbered.** -/
theorem wellNumbered_tabulate {rules : Nat} (hm : m.Scans P rules) (hlimit : AtMost limit P) :
    (m.tabulate limit).WellNumbered m.classes rules := by
  have hsim := simulates_tabulate hm.toStays hlimit
  obtain ⟨hexp, hsize, -, -⟩ := explored_visited hm.toStays hlimit
  have hdead : (m.visited limit).found.values[(m.tabulate limit).dead]? = some m.dead := hsim.dead
  constructor
  case start_lt => exact hsim.lt_size hsim.start
  case dead_lt => exact hsim.lt_size hsim.dead
  case size_row => exact even_tabulate m limit
  case entry_lt =>
    intro row hrow j hj
    obtain ⟨s, c, -, -, hnext⟩ := exists_next_of_mem hm.toStays hlimit hrow hj
    exact hsim.lt_size hnext
  case size_accepting =>
    show ((m.visited limit).found.values.map m.rule).size = (m.visited limit).rows.size
    rw [hsize, Array.size_map, Numbering.size]
  case rule_lt =>
    intro r hr
    obtain ⟨s, hs, hrule⟩ := Array.mem_map.1 hr
    exact hm.rule_lt s r (hexp.inside s hs) hrule
  case accepting_dead =>
    show ((m.visited limit).found.values.map m.rule)[_]? = _
    rw [Array.getElem?_map, hdead, Option.map_some, hm.rule_dead]
  case dead_ne_start =>
    intro heq
    rw [heq] at hdead
    exact hm.dead_ne_start (Option.some.inj (hdead.symm.trans hsim.start))
  case row_dead => exact row_dead_tabulate hm.toStays hlimit
  case start_notMem =>
    intro row hrow hstart
    obtain ⟨s, c, hP, hc, hnext⟩ := exists_next_of_mem hm.toStays hlimit hrow hstart
    exact hm.next_ne_start s c hP hc (Option.some.inj (hnext.symm.trans hsim.start))

end Tabulate

/-! ### The table of an automaton -/

namespace Nfa

variable {rules : List Regex}

/-- A set of states matches one of the rules. -/
theorem lt_length_of_rule {k : SymbolClasses} {S : NatSet} {r : Nat}
    (h : ((ofRules rules).subsets k).rule S = some r) : r < rules.length := by
  have hrule : ((ofRules rules).subsets k).rule S =
      if S = ((ofRules rules).subsets k).start then none
      else ((ofRules rules).accepting.find? (·.1 ∈ S)).map (·.2) := rfl
  rw [hrule] at h
  split at h
  · cases h
  · obtain ⟨e, he, rfl⟩ := Option.map_eq_some_iff.1 h
    have hmem := List.mem_map_of_mem (f := Prod.snd) (List.mem_of_find?_eq_some he)
    rw [ofRules, map_snd_accepting, List.mem_range'_1] at hmem
    omega

theorem scans_subsets (rules : List Regex) (k : SymbolClasses) :
    ((ofRules rules).subsets k).Scans (ofRules rules).Holds rules.length where
  toStays := stays_subsets (bounded_ofRules rules) k
  rule_lt := fun _ _ _ => lt_length_of_rule
  rule_dead := rule_dead_subsets _ k
  dead_ne_start := by
    intro heq
    have hzero : 0 ∈ ((ofRules rules).subsets k).start :=
      (mem_closure_iff (bounded_ofRules rules)).2 .refl
    rw [← heq] at hzero
    exact NatSet.not_mem_empty 0 hzero
  next_ne_start := fun _ _ hS hc => next_ne_start hc hS

/-- **The table of an automaton is well numbered.** -/
theorem wellNumbered_table (rules : List Regex) (k : SymbolClasses) :
    ((ofRules rules).table k).WellNumbered k.count rules.length :=
  wellNumbered_tabulate (scans_subsets rules k) (atMost_holds _)

end Nfa

/-! ### The smaller table -/

namespace Table

variable {t : Table} {classes rules i c r : Nat}

/-- The start has a group of its own. -/
theorem eq_start_of_group_eq (hi : i < t.size) (hstart : t.start < t.size)
    (h : t.partition.group i = t.partition.group t.start) : i = t.start := by
  have hsplits := (Partition.splits_initial t).stabilize (Nat.le_add_right t.size _)
  have hkey : Partition.initialKey t i = Partition.initialKey t t.start :=
    hsplits.1.initial hi hstart h
  by_contra hne
  simp [Partition.initialKey, hne] at hkey

namespace WellNumbered

/-- There is an entry for every state and every class. -/
theorem exists_next? (h : t.WellNumbered classes rules) (hi : i < t.size) (hc : c < classes) :
    ∃ row ∈ t.rows, ∃ j ∈ row, t.next? i c = some j := by
  have hrow : t.rows[i]? = some t.rows[i] := Array.getElem?_eq_getElem hi
  have hmem := Array.mem_of_getElem? hrow
  have hlt : c < t.rows[i].size := h.size_row _ hmem ▸ hc
  refine ⟨t.rows[i], hmem, t.rows[i][c], Array.getElem_mem hlt, ?_⟩
  rw [next?, hrow, Option.bind_some, Array.getElem?_eq_getElem hlt]

theorem total (h : t.WellNumbered classes rules) : t.Total classes where
  start := h.start_lt
  dead := h.dead_lt
  next := by
    intro i hi c hc
    obtain ⟨row, hrow, j, hj, hnext⟩ := h.exists_next? hi hc
    exact ⟨j, h.entry_lt row hrow j hj, hnext⟩
  next_dead := by
    intro c hc
    rw [Table.next, next?, h.row_dead, Option.bind_some, Array.getElem?_replicate, if_pos hc]
    rfl

theorem leavesStart (h : t.WellNumbered classes rules) : t.LeavesStart classes := by
  intro i hi c hc heq
  obtain ⟨row, hrow, j, hj, hnext⟩ := h.exists_next? hi hc
  rw [Table.next, hnext, Option.getD_some] at heq
  exact h.start_notMem row hrow (heq ▸ hj)

theorem lt_of_rule (h : t.WellNumbered classes rules) (hr : t.rule i = some r) : r < rules :=
  h.rule_lt r (Array.mem_of_getElem? (Option.join_eq_some_iff.1 hr))

theorem rule_dead (h : t.WellNumbered classes rules) : t.rule t.dead = none := by
  rw [rule, h.accepting_dead]
  rfl

theorem scans_quotient (h : t.WellNumbered classes rules) :
    (t.quotient classes t.partition).Scans (· < t.partition.count) rules := by
  obtain ⟨hcovers, hfollows⟩ := follows_partition h.total
  constructor
  case toStays => exact stays_quotient h.total hcovers hfollows
  case rule_lt => exact fun g r _ hr => h.lt_of_rule hr
  case rule_dead => exact (hfollows.rule t.dead h.dead_lt).trans h.rule_dead
  case dead_ne_start =>
    exact fun heq => h.dead_ne_start (eq_start_of_group_eq h.dead_lt h.start_lt heq)
  case next_ne_start =>
    intro g c hg hc heq
    have hrep := (hcovers.group_representatives hg).1
    have hnext := eq_start_of_group_eq (h.total.next_lt hrep hc) h.start_lt heq
    exact h.leavesStart _ hrep c hc hnext

/-- **Merging states keeps a table well numbered.** -/
theorem minimize (h : t.WellNumbered classes rules) :
    (t.minimize classes).WellNumbered classes rules :=
  wellNumbered_tabulate h.scans_quotient (atMost_lt _)

end WellNumbered

end Table

end LexParse.Automaton
