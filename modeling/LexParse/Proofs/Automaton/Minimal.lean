import LexParse.Proofs.Automaton.Minimize
import LexParse.Proofs.Automaton.Subset

/-!
# The smaller table is the smallest one

A refinement splits a group only where some class leads to states that are apart already, so states
of different groups are always told apart by a word (`Partition.Justified`). Only the start is kept
apart without such a word. It does not split other groups, because nothing leads back to it.

A table is numbered by following its rows from the start, so there is a way from the start to every
state, but for a dead state that nothing leads to.

## What is proved

* `exists_word_tabulate`: every state of a table but the dead one can be reached from the start.
* `Nfa.leavesStart_table`: nothing leads back to the start.
* `Table.Merged.next`, `Table.Merged.rule_eq`: merged states lead to merged states, and match what
  has been merged into them.
* `Table.apart_minimize`: two states of the smaller table, neither of them the start, are told apart
  by a word.
-/

namespace LexParse.Automaton

variable {σ : Type} {m : Machine σ} {P : σ → Prop}

/-- Nothing leads back to the start. -/
def Table.LeavesStart (t : Table) (classes : Nat) : Prop :=
  ∀ i < t.size, ∀ c < classes, t.next i c ≠ t.start

/-! ### States that can be reached -/

/-- The machine comes to a state from its start. -/
def Machine.Reaches (m : Machine σ) (s : σ) : Prop :=
  ∃ cs : List Nat, (∀ c ∈ cs, c < m.classes) ∧ cs.foldl m.next m.start = s

theorem Machine.Reaches.next {s : σ} {c : Nat} (h : m.Reaches s) (hc : c < m.classes) :
    m.Reaches (m.next s c) := by
  obtain ⟨cs, hcs, rfl⟩ := h
  refine ⟨cs ++ [c], fun d hd => ?_, by simp⟩
  rcases List.mem_append.1 hd with hd | hd
  · exact hcs d hd
  · exact List.mem_singleton.1 hd ▸ hc

/-- A machine stays among the states that it can come to, and the dead one. -/
theorem Machine.Stays.reaches (hm : m.Stays P) :
    m.Stays fun s => P s ∧ (s = m.dead ∨ m.Reaches s) where
  start := ⟨hm.start, .inr ⟨[], nofun, rfl⟩⟩
  dead := ⟨hm.dead, .inl rfl⟩
  next := by
    rintro s c ⟨hP, hs⟩ hc
    refine ⟨hm.next s c hP hc, ?_⟩
    rcases hs with rfl | hs
    · exact .inl (hm.next_dead c hc)
    · exact .inr (hs.next hc)
  next_dead := hm.next_dead

variable [BEq σ] [LawfulBEq σ] [Hashable σ] {limit : Nat}

/-- A state of a table stands for a state that the machine does not leave its set by. -/
theorem exists_value_tabulate (hm : m.Stays P) (hlimit : AtMost limit P) {i : Nat}
    (hi : i < (m.tabulate limit).size) :
    ∃ s, (m.visited limit).found.values[i]? = some s ∧ P s := by
  obtain ⟨s, hs⟩ := (simulates_tabulate hm hlimit).total hi
  exact ⟨s, hs, (explored_visited hm hlimit).1.inside s (Array.mem_of_getElem? hs)⟩

/-- **Every state of a table but the dead one can be reached from the start.** -/
theorem exists_word_tabulate (hm : m.Stays P) (hlimit : AtMost limit P) {i : Nat}
    (hi : i < (m.tabulate limit).size) (hdead : i ≠ (m.tabulate limit).dead) :
    ∃ cs : List Nat, (∀ c ∈ cs, c < m.classes) ∧
      cs.foldl (m.tabulate limit).next (m.tabulate limit).start = i := by
  have hsim := simulates_tabulate hm hlimit
  have hfewer : AtMost limit fun s => P s ∧ (s = m.dead ∨ m.Reaches s) :=
    fun l hl hall => hlimit l hl fun s hs => (hall s hs).1
  obtain ⟨s, hs, -, rfl | ⟨cs, hcs, rfl⟩⟩ := exists_value_tabulate hm.reaches hfewer hi
  · exact absurd (hsim.unique hs hsim.dead) hdead
  · exact ⟨cs, hcs, hsim.unique (hsim.run hsim.start hcs) hs⟩

/-- Nothing leads a table back to the start if nothing leads its machine back there. -/
theorem leavesStart_tabulate (hm : m.Stays P) (hlimit : AtMost limit P)
    (hstart : ∀ s c, P s → c < m.classes → m.next s c ≠ m.start) :
    (m.tabulate limit).LeavesStart m.classes := by
  have hsim := simulates_tabulate hm hlimit
  intro i hi c hc heq
  obtain ⟨s, hs, hP⟩ := exists_value_tabulate hm hlimit hi
  have hnext := hsim.next_eq hs hc
  rw [heq] at hnext
  exact hstart s c hP hc (Option.some.inj (hnext.symm.trans hsim.start))

theorem Nfa.leavesStart_table (rules : List Regex) (k : SymbolClasses) :
    ((Nfa.ofRules rules).table k).LeavesStart k.count :=
  leavesStart_tabulate (stays_subsets (bounded_ofRules rules) k) (atMost_holds _)
    fun _ _ hS hc => next_ne_start hc hS

/-! ### States that are told apart -/

namespace Table

variable {t : Table} {classes i j : Nat}

/-- A word of classes after which two states match different rules. -/
def Apart (t : Table) (classes i j : Nat) : Prop :=
  ∃ cs : List Nat, (∀ c ∈ cs, c < classes) ∧ t.rule (cs.foldl t.next i) ≠ t.rule (cs.foldl t.next j)

/-- States are apart if a class leads to states that are. -/
theorem Apart.of_next {c : Nat} (hc : c < classes)
    (h : t.Apart classes (t.next i c) (t.next j c)) : t.Apart classes i j := by
  obtain ⟨cs, hcs, hne⟩ := h
  exact ⟨c :: cs, List.forall_mem_cons.2 ⟨hc, hcs⟩, hne⟩

end Table

namespace Partition

variable {t : Table} {p : Partition} {classes : Nat}

/-- Two states have the same key when they are in one group and their successors are. -/
theorem refinedKey_eq (hrows : Even classes t.rows)
    {i j : Nat} (hi : i < t.size) (hj : j < t.size) (hgroup : p.group i = p.group j)
    (hnext : ∀ c < classes, p.group (t.next i c) = p.group (t.next j c)) :
    refinedKey t p i = refinedKey t p j := by
  have hrow : ∀ i < t.size, ((t.rows.getD i #[]).map p.group).toList =
      (List.range classes).map fun c => p.group (t.next i c) := by
    intro i hi
    have hget : t.rows[i]? = some t.rows[i] := Array.getElem?_eq_getElem hi
    have hsize := hrows _ (Array.getElem_mem hi)
    apply List.ext_getElem
    · simp [hget, hsize]
    · intro c hc _
      have hc : c < t.rows[i].size := by simpa [hget] using hc
      simp [Table.next, Table.next?, hget, hc]
  rw [refinedKey, refinedKey, hgroup, hrow i hi, hrow j hj]
  congr 1
  exact List.map_congr_left fun c hc => hnext c (List.mem_range.1 hc)

/-- States of different groups, neither of them the start, are told apart by a word. -/
def Justified (t : Table) (classes : Nat) (p : Partition) : Prop :=
  ∀ ⦃i j : Nat⦄, i < t.size → j < t.size → i ≠ t.start → j ≠ t.start → p.group i ≠ p.group j →
    t.Apart classes i j

theorem justified_initial (t : Table) (classes : Nat) : Justified t classes (initial t) := by
  intro i j hi hj his hjs hne
  refine ⟨[], nofun, fun hrule => hne ?_⟩
  apply (group_ofKeys_eq_iff (initialKey t) hi hj).2
  simpa [initialKey, his, hjs] using hrule

/-- **A round of refinement splits only states that are told apart by a word**, because nothing
leads back to the start. -/
theorem Justified.refine (h : Justified t classes p) (ht : t.Total classes)
    (hrows : Even classes t.rows) (hstart : t.LeavesStart classes) :
    Justified t classes (p.refine t) := by
  intro i j hi hj his hjs hne
  by_cases hgroup : p.group i = p.group j
  · -- some class leads to states of different groups
    obtain ⟨c, hc, hnext⟩ : ∃ c < classes, p.group (t.next i c) ≠ p.group (t.next j c) := by
      by_contra hall
      simp only [not_exists, not_and, not_not] at hall
      apply hne
      apply (group_ofKeys_eq_iff (refinedKey t p) hi hj).2
      exact refinedKey_eq hrows hi hj hgroup hall
    exact .of_next hc (h (ht.next_lt hi hc) (ht.next_lt hj hc) (hstart i hi c hc)
      (hstart j hj c hc) hnext)
  · exact h hi hj his hjs hgroup

theorem Justified.stabilize (rounds : Nat) (h : Justified t classes p) (ht : t.Total classes)
    (hrows : Even classes t.rows) (hstart : t.LeavesStart classes) :
    Justified t classes (stabilize t rounds p) := by
  induction rounds generalizing p with
  | zero => exact h
  | succ rounds ih =>
    rw [Partition.stabilize]
    split
    · exact h
    · exact ih (h.refine ht hrows hstart)

end Partition

namespace Table

variable {t : Table} {classes i j p q c : Nat}

/-- States of different groups are told apart by a word, unless one of them is the start. -/
theorem justified_partition (ht : t.Total classes) (hrows : Even classes t.rows)
    (hstart : t.LeavesStart classes) : t.partition.Justified t classes :=
  (Partition.justified_initial t classes).stabilize t.size ht hrows hstart

/-! ### What is merged into one state -/

/-- A state of the smaller table that a state has been merged into, maybe with others. -/
def Merged (t : Table) (classes i p : Nat) : Prop :=
  i < t.size ∧ ((t.quotient classes t.partition).visited t.partition.count).found.values[p]? =
    some (t.partition.group i)

theorem simulates_partition (ht : t.Total classes) :
    Simulates (t.quotient classes t.partition) (t.minimize classes) fun p g =>
      ((t.quotient classes t.partition).visited t.partition.count).found.values[p]? = some g := by
  obtain ⟨hcovers, hfollows⟩ := follows_partition ht
  exact simulates_tabulate (stays_quotient ht hcovers hfollows) (atMost_lt _)

theorem merged_start (ht : t.Total classes) :
    t.Merged classes t.start (t.minimize classes).start :=
  ⟨ht.start, (simulates_partition ht).start⟩

theorem merged_dead (ht : t.Total classes) : t.Merged classes t.dead (t.minimize classes).dead :=
  ⟨ht.dead, (simulates_partition ht).dead⟩

/-- Every state of the smaller table comes from merging. -/
theorem exists_merged (ht : t.Total classes) (hp : p < (t.minimize classes).size) :
    ∃ i, t.Merged classes i p := by
  obtain ⟨hcovers, hfollows⟩ := follows_partition ht
  obtain ⟨g, hg, hlt⟩ :=
    exists_value_tabulate (stays_quotient ht hcovers hfollows) (atMost_lt _) hp
  obtain ⟨i, hi, rfl⟩ := hcovers.exists_group g hlt
  exact ⟨i, hi, hg⟩

/-- States of one group are merged into one state. -/
theorem Merged.eq_of_group_eq (hp : t.Merged classes i p) (hq : t.Merged classes j q)
    (hgroup : t.partition.group i = t.partition.group j) : p = q :=
  Numbering.eq_of_values_eq hp.2 (hgroup ▸ hq.2)

/-- Merged states lead to merged states. -/
theorem Merged.next (ht : t.Total classes) (h : t.Merged classes i p) (hc : c < classes) :
    ∃ k, (t.minimize classes).next? p c = some k ∧ t.Merged classes (t.next i c) k := by
  obtain ⟨k, hk, hR⟩ := (simulates_partition ht).next h.2 hc
  rw [(follows_partition ht).2.next i h.1 c hc] at hR
  exact ⟨k, hk, ht.next_lt h.1 hc, hR⟩

theorem Merged.rule_eq (ht : t.Total classes) (h : t.Merged classes i p) :
    (t.minimize classes).rule p = t.rule i := by
  rw [(simulates_partition ht).rule h.2]
  exact (follows_partition ht).2.rule i h.1

/-- Along a word the smaller table goes from merged state to merged state. -/
theorem Merged.run (ht : t.Total classes) (h : t.Merged classes i p) {cs : List Nat}
    (hcs : ∀ c ∈ cs, c < classes) :
    t.Merged classes (cs.foldl t.next i) (cs.foldl (t.minimize classes).next p) := by
  induction cs generalizing i p with
  | nil => exact h
  | cons c cs ih =>
    obtain ⟨k, hk, hmerged⟩ := h.next ht (hcs c (List.mem_cons_self ..))
    have hnext : (t.minimize classes).next p c = k := by
      rw [Table.next, hk]
      rfl
    rw [List.foldl_cons, List.foldl_cons, hnext]
    exact ih hmerged fun d hd => hcs d (List.mem_cons_of_mem _ hd)

/-- **Every state of the smaller table but the dead one can be reached from the start.** -/
theorem exists_word_minimize (ht : t.Total classes) (hp : p < (t.minimize classes).size)
    (hdead : p ≠ (t.minimize classes).dead) : ∃ cs : List Nat, (∀ c ∈ cs, c < classes) ∧
      cs.foldl (t.minimize classes).next (t.minimize classes).start = p := by
  obtain ⟨hcovers, hfollows⟩ := follows_partition ht
  exact exists_word_tabulate (stays_quotient ht hcovers hfollows) (atMost_lt _) hp hdead

/-- **Two states of the smaller table, neither of them the start, are told apart by a word.** -/
theorem apart_minimize (ht : t.Total classes) (hrows : Even classes t.rows)
    (hstart : t.LeavesStart classes) (hp : p < (t.minimize classes).size)
    (hq : q < (t.minimize classes).size) (hne : p ≠ q) (hps : p ≠ (t.minimize classes).start)
    (hqs : q ≠ (t.minimize classes).start) : (t.minimize classes).Apart classes p q := by
  obtain ⟨i, hi⟩ := exists_merged ht hp
  obtain ⟨j, hj⟩ := exists_merged ht hq
  have his : i ≠ t.start := by
    rintro rfl
    exact hps (hi.eq_of_group_eq (merged_start ht) rfl)
  have hjs : j ≠ t.start := by
    rintro rfl
    exact hqs (hj.eq_of_group_eq (merged_start ht) rfl)
  have hgroup : t.partition.group i ≠ t.partition.group j :=
    fun heq => hne (hi.eq_of_group_eq hj heq)
  obtain ⟨cs, hcs, hrule⟩ := justified_partition ht hrows hstart hi.1 hj.1 his hjs hgroup
  refine ⟨cs, hcs, ?_⟩
  rwa [(hi.run ht hcs).rule_eq ht, (hj.run ht hcs).rule_eq ht]

end Table

end LexParse.Automaton
