import LexParse.Automaton.Minimize
import LexParse.Proofs.Automaton.Machine
import Mathlib.Data.Fintype.EquivFin

/-!
# Merging states changes no match

A refinement only splits groups, so the number of groups grows until nothing splits, and there are
no more groups than states: after as many rounds as there are states the partition is *stable*
(`Partition.Splits.stabilize`). In a stable partition states of one group match the same rule and
lead to the same groups, so it does not matter which of them stands for the group.

## What is proved

* `Partition.Covers.group_representatives`: the state that stands for a group is in the group.
* `Table.rule_run_minimize`: after a word the smaller table matches what the table matches.
-/

namespace LexParse.Automaton

namespace Partition

variable {p q : Partition} {n i j g : Nat}

/-! ### Groups -/

/-- A partition of the first `n` states: every group has a state, and groups are numbered in the
order of their first states. -/
structure Covers (p : Partition) (n : Nat) : Prop where
  size_groups : p.groups.size = n
  group_lt : ∀ i < n, p.group i < p.count
  exists_group : ∀ g < p.count, ∃ i < n, p.group i = g
  inOrder : InOrder p.groups.toList

theorem getElem?_groups (h : p.groups.size = n) (hi : i < n) : p.groups[i]? = some (p.group i) := by
  subst h
  simp [group, hi]

section Keys

variable {κ : Type} [BEq κ] [LawfulBEq κ] [Hashable κ] (key : Nat → κ)

/-- The group of a state is the number of its key. -/
theorem getElem?_ofKeys (hi : i < n) :
    ∃ g, (ofKeys ((List.range n).map key)).groups[i]? = some g ∧
      ((∅ : Numbering κ).addAll ((List.range n).map key)).2.values[g]? = some (key i) := by
  have hkey : ((List.range n).map key)[i]? = some (key i) := by simp [hi]
  exact Numbering.exists_getElem?_addAll hkey

theorem covers_ofKeys : (ofKeys ((List.range n).map key)).Covers n := by
  have hcounts := Numbering.counts_addAll ((List.range n).map key)
  have hsize : (ofKeys ((List.range n).map key)).groups.size = n := by
    simpa [ofKeys] using Numbering.size_addAll (∅ : Numbering κ) ((List.range n).map key)
  refine ⟨hsize, fun i hi => ?_, fun g hg => ?_, hcounts.inOrder⟩
  · obtain ⟨g, hg, hv⟩ := getElem?_ofKeys key hi
    rw [getElem?_groups hsize hi] at hg
    rw [Option.some.inj hg]
    exact (Array.getElem?_eq_some_iff.1 hv).1
  · obtain ⟨i, hi⟩ := hcounts.given g hg
    have hgroup : (ofKeys ((List.range n).map key)).groups[i]? = some g := by
      simpa [ofKeys] using hi
    have hlt : i < n := hsize ▸ (Array.getElem?_eq_some_iff.1 hgroup).1
    exact ⟨i, hlt, Option.some.inj ((getElem?_groups hsize hlt).symm.trans hgroup)⟩

/-- Two states are in one group when they have the same key. -/
theorem group_ofKeys_eq_iff (hi : i < n) (hj : j < n) :
    (ofKeys ((List.range n).map key)).group i = (ofKeys ((List.range n).map key)).group j ↔
      key i = key j := by
  have hsize := (covers_ofKeys key (n := n)).size_groups
  obtain ⟨g, hg, hv⟩ := getElem?_ofKeys key hi
  obtain ⟨g', hg', hv'⟩ := getElem?_ofKeys key hj
  rw [getElem?_groups hsize hi] at hg
  rw [getElem?_groups hsize hj] at hg'
  rw [Option.some.inj hg, Option.some.inj hg']
  constructor
  · rintro rfl
    exact Option.some.inj (hv.symm.trans hv')
  · intro heq
    exact Numbering.eq_of_values_eq hv (heq ▸ hv')

end Keys

/-! ### Refinement -/

/-- States of one group of `q` are in one group of `p`. -/
def Refines (n : Nat) (q p : Partition) : Prop :=
  ∀ ⦃i j : Nat⦄, i < n → j < n → q.group i = q.group j → p.group i = p.group j

/-- Every group of the finer partition lies in a group of the coarser one, and all of these are
met. -/
theorem Refines.exists_surjective (h : Refines n q p) (hq : q.Covers n) (hp : p.Covers n) :
    ∃ f : Fin q.count → Fin p.count, Function.Surjective f ∧
      ∀ i (hi : i < n), f ⟨q.group i, hq.group_lt i hi⟩ = ⟨p.group i, hp.group_lt i hi⟩ := by
  choose first hfirst hgroup using hq.exists_group
  have hmap : ∀ i (hi : i < n),
      p.group (first (q.group i) (hq.group_lt i hi)) = p.group i := by
    intro i hi
    exact h (hfirst _ _) hi (hgroup _ _)
  refine ⟨fun g => ⟨p.group (first g g.2), hp.group_lt _ (hfirst _ _)⟩, fun g => ?_, fun i hi => ?_⟩
  · obtain ⟨i, hi, heq⟩ := hp.exists_group g g.2
    refine ⟨⟨q.group i, hq.group_lt i hi⟩, Fin.ext ?_⟩
    exact (hmap i hi).trans heq
  · exact Fin.ext (hmap i hi)

theorem Refines.count_le (h : Refines n q p) (hq : q.Covers n) (hp : p.Covers n) :
    p.count ≤ q.count := by
  obtain ⟨f, hf, -⟩ := h.exists_surjective hq hp
  simpa using Fintype.card_le_of_surjective f hf

/-- **A refinement with no more groups splits none.** -/
theorem Refines.of_count_eq (h : Refines n q p) (hq : q.Covers n) (hp : p.Covers n)
    (hcount : q.count = p.count) : Refines n p q := by
  obtain ⟨f, hf, hgroup⟩ := h.exists_surjective hq hp
  have hbij : Function.Bijective f :=
    (Fintype.bijective_iff_surjective_and_card f).2 ⟨hf, by simpa using hcount⟩
  intro i j hi hj heq
  have hsame : f ⟨q.group i, hq.group_lt i hi⟩ = f ⟨q.group j, hq.group_lt j hj⟩ := by
    rw [hgroup i hi, hgroup j hj]
    exact Fin.ext heq
  exact Fin.mk.inj (hbij.1 hsame)

/-- There are no more groups than states. -/
theorem Covers.count_le (hp : p.Covers n) : p.count ≤ n := by
  have hsurj : Function.Surjective fun i : Fin n =>
      (⟨p.group i, hp.group_lt i i.2⟩ : Fin p.count) := by
    intro g
    obtain ⟨i, hi, heq⟩ := hp.exists_group g g.2
    exact ⟨⟨i, hi⟩, Fin.ext heq⟩
  simpa using Fintype.card_le_of_surjective _ hsurj

variable {t : Table}

/-- What a partition keeps apart while it is refined: states that the first partition tells
apart. -/
structure Splits (t : Table) (p : Partition) : Prop where
  covers : p.Covers t.size
  initial : ∀ ⦃i j : Nat⦄, i < t.size → j < t.size → p.group i = p.group j →
    initialKey t i = initialKey t j

/-- States of one group lead to the same groups. -/
def Stable (t : Table) (p : Partition) : Prop :=
  ∀ ⦃i j : Nat⦄, i < t.size → j < t.size → p.group i = p.group j →
    refinedKey t p i = refinedKey t p j

theorem splits_initial (t : Table) : Splits t (initial t) where
  covers := covers_ofKeys (initialKey t)
  initial := fun _ _ hi hj => (group_ofKeys_eq_iff (initialKey t) hi hj).1

theorem refines_refine (t : Table) (p : Partition) : Refines t.size (refine t p) p := by
  intro i j hi hj heq
  have hkey := (group_ofKeys_eq_iff (refinedKey t p) hi hj).1 heq
  exact (List.cons.inj hkey).1

theorem Splits.refine (h : Splits t p) : Splits t (p.refine t) where
  covers := covers_ofKeys (refinedKey t p)
  initial := fun _ _ hi hj heq => h.initial hi hj (refines_refine t p hi hj heq)

/-- When a round adds no group, nothing was left to split. -/
theorem Splits.stable_of_count_eq (h : Splits t p)
    (hcount : (Partition.refine t p).count = p.count) : Stable t p := by
  intro i j hi hj heq
  have hback := (refines_refine t p).of_count_eq h.refine.covers h.covers hcount
  exact (group_ofKeys_eq_iff (refinedKey t p) hi hj).1 (hback hi hj heq)

/-- **Refinement ends in a stable partition.** -/
theorem Splits.stabilize {rounds : Nat} (h : Splits t p) (hrounds : t.size ≤ rounds + p.count) :
    Splits t (stabilize t rounds p) ∧ Stable t (stabilize t rounds p) := by
  have hgrow := (refines_refine t p).count_le h.refine.covers h.covers
  induction rounds generalizing p with
  | zero =>
    have hle := h.refine.covers.count_le
    exact ⟨h, h.stable_of_count_eq (by omega)⟩
  | succ rounds ih =>
    rw [Partition.stabilize]
    split
    · rename_i hcount
      exact ⟨h, h.stable_of_count_eq hcount⟩
    · rename_i hcount
      exact ih h.refine (by omega)
        ((refines_refine t _).count_le h.refine.refine.covers h.refine.covers)

/-! ### Representatives -/

/-- Take a state for its group when the group is the next to be found. -/
def takeFirst (firsts : Array Nat) (e : Nat × Nat) : Array Nat :=
  if e.2 = firsts.size then firsts.push e.1 else firsts

/-- The states taken are in their groups, and every group met has one. -/
theorem foldl_takeFirst {l : List Nat} (h : InOrder l) :
    (∀ g : Nat, g < ((l.mapIdx Prod.mk).foldl takeFirst #[]).size →
      ∃ i : Nat, ((l.mapIdx Prod.mk).foldl takeFirst #[])[g]? = some i ∧ l[i]? = some g) ∧
    ∀ g ∈ l, g < ((l.mapIdx Prod.mk).foldl takeFirst #[]).size := by
  induction l using List.reverseRecOn with
  | nil => simp
  | append_singleton l a ih =>
    obtain ⟨hfirst, hmet⟩ := ih h.of_append
    rw [List.mapIdx_append, List.foldl_append]
    simp only [List.mapIdx_cons, List.mapIdx_nil, List.foldl_cons, List.foldl_nil]
    generalize (l.mapIdx Prod.mk).foldl takeFirst #[] = firsts at hfirst hmet ⊢
    have hold : ∀ g < firsts.size, ∃ i : Nat, firsts[g]? = some i ∧ (l ++ [a])[i]? = some g := by
      intro g hg
      obtain ⟨i, hi, hl⟩ := hfirst g hg
      refine ⟨i, hi, ?_⟩
      rw [List.getElem?_append_left (List.getElem?_eq_some_iff.1 hl).1, hl]
    by_cases ha : a = firsts.size
    · -- the group is met for the first time
      rw [takeFirst, if_pos ha, Array.size_push]
      refine ⟨fun g hg => ?_, fun g hg => ?_⟩
      · rcases Nat.lt_or_eq_of_le (Nat.le_of_lt_succ hg) with hg | rfl
        · obtain ⟨i, hi, hl⟩ := hold g hg
          refine ⟨i, ?_, hl⟩
          rw [Array.getElem?_push, if_neg (Nat.ne_of_lt hg), hi]
        · exact ⟨l.length, by simp, by simp [ha]⟩
      · rcases List.mem_append.1 hg with hg | hg
        · exact Nat.lt_succ_of_lt (hmet g hg)
        · obtain rfl := List.mem_singleton.1 hg
          omega
    · rw [takeFirst, if_neg ha]
      refine ⟨hold, fun g hg => ?_⟩
      rcases List.mem_append.1 hg with hg | hg
      · exact hmet g hg
      · obtain rfl := List.mem_singleton.1 hg
        -- a later group would have been met after all before it
        refine Nat.lt_of_le_of_ne (Nat.le_of_not_lt fun hlt => ?_) ha
        have hlast : (l ++ [g])[l.length]? = some g := by simp
        obtain ⟨j, hj, hl⟩ := h hlast firsts.size hlt
        rw [List.getElem?_append_left hj] at hl
        exact Nat.lt_irrefl _ (hmet _ (List.mem_of_getElem? hl))

/-- **The state that stands for a group is in the group.** -/
theorem Covers.group_representatives (hp : p.Covers n) (hg : g < p.count) :
    p.representatives.getD g 0 < n ∧ p.group (p.representatives.getD g 0) = g := by
  have heq : p.representatives = (p.groups.toList.mapIdx Prod.mk).foldl takeFirst #[] := by
    rw [representatives, ← Array.foldl_toList, Array.toList_mapIdx]
    rfl
  obtain ⟨hfirst, hmet⟩ := foldl_takeFirst hp.inOrder
  rw [← heq] at hfirst hmet
  obtain ⟨i, hi, rfl⟩ := hp.exists_group g hg
  have hgroup : p.groups[i]? = some (p.group i) := getElem?_groups hp.size_groups hi
  obtain ⟨j, hj, hl⟩ := hfirst _ (hmet _ (Array.mem_toList_iff.2 (Array.mem_of_getElem? hgroup)))
  rw [Array.getElem?_toList] at hl
  have hlt : j < n := hp.size_groups ▸ (Array.getElem?_eq_some_iff.1 hl).1
  have hget : p.representatives.getD (p.group i) 0 = j := by
    rw [Array.getD_eq_getD_getElem?, hj]
    rfl
  rw [hget]
  exact ⟨hlt, Option.some.inj ((getElem?_groups hp.size_groups hlt).symm.trans hl)⟩

end Partition

namespace Table

variable {t : Table} {p : Partition} {classes i c : Nat}

/-! ### The merged table -/

theorem rule_eq_of_initialKey_eq {i j : Nat}
    (h : Partition.initialKey t i = Partition.initialKey t j) : t.rule i = t.rule j := by
  unfold Partition.initialKey at h
  split at h <;> split at h <;> simp_all

/-- States with the same successor groups lead to the same groups. -/
theorem group_next_eq (ht : t.Total classes) {i j : Nat} (hi : i < t.size) (hj : j < t.size)
    (hc : c < classes) (h : Partition.refinedKey t p i = Partition.refinedKey t p j) :
    p.group (t.next i c) = p.group (t.next j c) := by
  have hcell : ∀ i < t.size,
      (Partition.refinedKey t p i)[c + 1]? = some (p.group (t.next i c)) := by
    intro i hi
    obtain ⟨k, -, hk⟩ := ht.next i hi c hc
    obtain ⟨row, hrow, hcell⟩ := Option.bind_eq_some_iff.1 hk
    simp [Partition.refinedKey, next, hk, hrow, hcell]
  exact Option.some.inj ((hcell i hi).symm.trans (h ▸ hcell j hj))

/-- The quotient by a stable partition follows the table. -/
structure Follows (t : Table) (classes : Nat) (p : Partition) : Prop where
  next : ∀ i < t.size, ∀ c < classes,
    (t.quotient classes p).next (p.group i) c = p.group (t.next i c)
  rule : ∀ i < t.size, (t.quotient classes p).rule (p.group i) = t.rule i

theorem follows_of_stable (ht : t.Total classes) (hp : p.Splits t) (hstable : p.Stable t) :
    Follows t classes p := by
  constructor
  · intro i hi c hc
    obtain ⟨hlt, hgroup⟩ := hp.covers.group_representatives (hp.covers.group_lt i hi)
    exact group_next_eq ht hlt hi hc (hstable hlt hi hgroup)
  · intro i hi
    obtain ⟨hlt, hgroup⟩ := hp.covers.group_representatives (hp.covers.group_lt i hi)
    exact rule_eq_of_initialKey_eq (hp.initial hlt hi hgroup)

theorem follows_partition (ht : t.Total classes) :
    t.partition.Covers t.size ∧ Follows t classes t.partition := by
  obtain ⟨hsplits, hstable⟩ := (Partition.splits_initial t).stabilize (Nat.le_add_right t.size _)
  exact ⟨hsplits.covers, follows_of_stable ht hsplits hstable⟩

theorem stays_quotient (ht : t.Total classes) (hp : p.Covers t.size) (hf : Follows t classes p) :
    (t.quotient classes p).Stays (· < p.count) where
  start := hp.group_lt _ ht.start
  dead := hp.group_lt _ ht.dead
  next := by
    intro g c hg hc
    exact hp.group_lt _ (ht.next_lt (hp.group_representatives hg).1 hc)
  next_dead := by
    intro c hc
    show (t.quotient classes p).next (p.group t.dead) c = p.group t.dead
    rw [hf.next _ ht.dead c hc, ht.next_dead c hc]

theorem simulates_minimize (ht : t.Total classes) :
    (t.quotient classes t.partition).Stays (· < t.partition.count) ∧
      ∃ R, Simulates (t.quotient classes t.partition) (t.minimize classes) R := by
  obtain ⟨hcovers, hfollows⟩ := follows_partition ht
  have hstays := stays_quotient ht hcovers hfollows
  exact ⟨hstays, _, simulates_tabulate hstays (atMost_lt _)⟩

theorem total_minimize (ht : t.Total classes) : (t.minimize classes).Total classes := by
  obtain ⟨hstays, R, hsim⟩ := simulates_minimize ht
  exact hsim.total_table hstays

theorem rule_dead_minimize (ht : t.Total classes) :
    (t.minimize classes).rule (t.minimize classes).dead = t.rule t.dead := by
  obtain ⟨-, R, hsim⟩ := simulates_minimize ht
  rw [hsim.rule hsim.dead]
  exact (follows_partition ht).2.rule _ ht.dead

/-- Along a word of classes the quotient goes from group to group as the table goes from state to
state. -/
theorem Follows.run (hf : Follows t classes p) (ht : t.Total classes) (hi : i < t.size)
    {cs : List Nat} (hcs : ∀ c ∈ cs, c < classes) :
    cs.foldl t.next i < t.size ∧
      cs.foldl (t.quotient classes p).next (p.group i) = p.group (cs.foldl t.next i) := by
  induction cs generalizing i with
  | nil => exact ⟨hi, rfl⟩
  | cons c rest ih =>
    have hc := hcs c (List.mem_cons_self ..)
    rw [List.foldl_cons, List.foldl_cons, hf.next i hi c hc]
    exact ih (ht.next_lt hi hc) fun d hd => hcs d (List.mem_cons_of_mem _ hd)

/-- **After a word the smaller table matches what the table matches.** -/
theorem rule_run_minimize (ht : t.Total classes) {cs : List Nat} (hcs : ∀ c ∈ cs, c < classes) :
    (t.minimize classes).rule (cs.foldl (t.minimize classes).next (t.minimize classes).start) =
      t.rule (cs.foldl t.next t.start) := by
  obtain ⟨-, R, hsim⟩ := simulates_minimize ht
  have hfollows := (follows_partition ht).2
  obtain ⟨hlt, hrun⟩ := hfollows.run ht ht.start hcs
  rw [hsim.rule_run hcs, ← hfollows.rule _ hlt, ← hrun]
  rfl

end Table

end LexParse.Automaton
