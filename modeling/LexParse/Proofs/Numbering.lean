import LexParse.Numbering
import Mathlib.Data.List.Nodup

/-!
# What numbering keeps

A value has one number and keeps it when others are added. The numbers given to a list of values
come in order for the first time, so the first value with a new number can be told by counting.

## What is proved

* `Numbering.mem_addAll_iff`: what is numbered after some values have been added.
* `Numbering.exists_getElem?_addAll`: the number given to a value leads back to it.
* `Numbering.counts_addAll`: the numbers given to values are used from zero on, in order.
-/

namespace LexParse

/-! ### Adding values -/

namespace Numbering

variable {α : Type} [BEq α] [Hashable α] {n : Numbering α} {a b : α} {i j : Nat}

theorem number?_eq_some_iff : n.number? a = some i ↔ n.values[i]? = some a :=
  n.numbers_eq_some_iff a i

/-- A value has one number. -/
theorem eq_of_values_eq (hi : n.values[i]? = some a) (hj : n.values[j]? = some a) : i = j :=
  Option.some.inj ((number?_eq_some_iff.2 hi).symm.trans (number?_eq_some_iff.2 hj))

theorem nodup_values (n : Numbering α) : n.values.toList.Nodup := by
  rw [List.nodup_iff_getElem?_ne_getElem?]
  intro i j hij hj heq
  rw [Array.getElem?_toList, Array.getElem?_toList] at heq
  have hvalue : n.values[j]? = some n.values[j] :=
    Array.getElem?_eq_getElem (by simpa using hj)
  exact Nat.ne_of_lt hij (eq_of_values_eq (heq.trans hvalue) hvalue)

variable [LawfulBEq α]

theorem values_empty : (∅ : Numbering α).values = #[] := rfl

theorem number?_empty (a : α) : (∅ : Numbering α).number? a = none := by
  rw [Option.eq_none_iff_forall_ne_some]
  intro i hi
  rw [number?_eq_some_iff, values_empty] at hi
  simp at hi

/-- A value that has a number is not given another one. -/
theorem add_of_number? (h : n.number? a = some i) : n.add a = (i, n) := by
  unfold add
  split
  · rename_i j hj
    rw [Option.some.inj (hj.symm.trans h)]
  · rename_i hnone
    rw [number?, hnone] at h
    cases h

/-- A value that has no number is put behind the others. -/
theorem add_of_number?_eq_none (h : n.number? a = none) :
    (n.add a).1 = n.size ∧ (n.add a).2.values = n.values.push a := by
  unfold add
  split
  · rename_i j hj
    rw [number?, hj] at h
    cases h
  · exact ⟨rfl, rfl⟩

theorem mem_add_iff : b ∈ (n.add a).2.values ↔ b ∈ n.values ∨ b = a := by
  unfold add
  split
  · rename_i i hi
    have ha := Array.mem_of_getElem? ((n.numbers_eq_some_iff a i).1 hi)
    exact ⟨.inl, fun h => h.elim id (· ▸ ha)⟩
  · exact Array.mem_push

theorem mem_foldl_addNext_iff {st : Array Nat × Numbering α} {l : List α} :
    b ∈ (l.foldl addNext st).2.values ↔ b ∈ st.2.values ∨ b ∈ l := by
  induction l generalizing st with
  | nil => simp
  | cons a rest ih =>
    rw [List.foldl_cons, ih, List.mem_cons, ← or_assoc]
    exact or_congr_left mem_add_iff

theorem values_foldl_addNext (st : Array Nat × Numbering α) {l : List α}
    (h : st.2.values[i]? = some b) : (l.foldl addNext st).2.values[i]? = some b := by
  induction l generalizing st with
  | nil => exact h
  | cons a rest ih => exact ih _ (values_add_of_eq_some a h)

/-- What is numbered after some values have been added. -/
theorem mem_addAll_iff {l : List α} :
    b ∈ (n.addAll l).2.values ↔ b ∈ n.values ∨ b ∈ l :=
  mem_foldl_addNext_iff

/-- Values keep their numbers. -/
theorem values_addAll {l : List α} (h : n.values[i]? = some b) :
    (n.addAll l).2.values[i]? = some b :=
  values_foldl_addNext (#[], n) h

/-- The number given to a value leads back to it. -/
theorem exists_getElem?_addAll {l : List α} (h : l[j]? = some b) :
    ∃ i, (n.addAll l).1[j]? = some i ∧ (n.addAll l).2.values[i]? = some b := by
  have hvalues : ((n.addAll l).1.toList.map fun i => (n.addAll l).2.values[i]?) = l.map some :=
    valuesAt_addAll n l
  have hj := congrArg (·[j]?) hvalues
  simp only [List.getElem?_map, h, Option.map_some, Array.getElem?_toList] at hj
  obtain ⟨i, hi, hv⟩ := Option.map_eq_some_iff.1 hj
  exact ⟨i, hi, hv⟩

/-- Every value is given a number. -/
theorem size_addAll (n : Numbering α) (l : List α) : (n.addAll l).1.size = l.length := by
  have hlength := congrArg List.length (valuesAt_addAll n l)
  simpa [valuesAt] using hlength

/-- A value that has a number gets it again and again. -/
theorem addAll_of_forall_eq (ha : n.number? a = some i) {l : List α} (hl : ∀ b ∈ l, b = a) :
    n.addAll l = (Array.replicate l.length i, n) := by
  suffices hfold : ∀ row : Array Nat, l.foldl addNext (row, n) =
      (row ++ Array.replicate l.length i, n) by
    simpa [addAll] using hfold #[]
  induction l with
  | nil => simp
  | cons b l ih =>
    obtain ⟨rfl, hl⟩ := List.forall_mem_cons.1 hl
    intro row
    have hadd : addNext (row, n) b = (row.push i, n) := by rw [addNext, add_of_number? ha]
    rw [List.foldl_cons, hadd, ih hl]
    rw [Prod.mk.injEq, ← Array.toList_inj]
    simp [List.replicate_succ]

end Numbering

/-! ### Numbers in the order of first use -/

/-- Numbers that come in order for the first time: before a number come all that are smaller. -/
def InOrder (l : List Nat) : Prop :=
  ∀ ⦃k g : Nat⦄, l[k]? = some g → ∀ h < g, ∃ j < k, l[j]? = some h

theorem InOrder.of_append {l : List Nat} {g : Nat} (h : InOrder (l ++ [g])) : InOrder l := by
  intro k a ha b hb
  have hk := (List.getElem?_eq_some_iff.1 ha).1
  have happend : (l ++ [g])[k]? = some a := by rw [List.getElem?_append_left hk, ha]
  obtain ⟨j, hj, heq⟩ := h happend b hb
  rw [List.getElem?_append_left (by omega)] at heq
  exact ⟨j, hj, heq⟩

theorem InOrder.append {l : List Nat} {g : Nat} (h : InOrder l)
    (hg : ∀ h < g, ∃ j : Nat, l[j]? = some h) : InOrder (l ++ [g]) := by
  intro k a ha b hb
  rcases Nat.lt_trichotomy k l.length with hk | rfl | hk
  · rw [List.getElem?_append_left hk] at ha
    obtain ⟨j, hj, heq⟩ := h ha b hb
    refine ⟨j, hj, ?_⟩
    rw [List.getElem?_append_left (by omega), heq]
  · obtain rfl : g = a := by simpa using ha
    obtain ⟨j, hj⟩ := hg b hb
    have hlt := (List.getElem?_eq_some_iff.1 hj).1
    refine ⟨j, hlt, ?_⟩
    rw [List.getElem?_append_left hlt, hj]
  · have hlen := (List.getElem?_eq_some_iff.1 ha).1
    simp at hlen
    omega

namespace Numbering

variable {α : Type} [BEq α] [Hashable α] [LawfulBEq α]

/-- Numbers given out so far: each of them has been given, and they came in order. -/
structure Counts (st : Array Nat × Numbering α) : Prop where
  given : ∀ g < st.2.size, ∃ j : Nat, st.1.toList[j]? = some g
  inOrder : InOrder st.1.toList

theorem Counts.addNext {st : Array Nat × Numbering α} (h : Counts st) (a : α) :
    Counts (addNext st a) := by
  have hold : ∀ g < st.2.size, ∀ i : Nat, ∃ j : Nat, (st.1.toList ++ [i])[j]? = some g := by
    intro g hg i
    obtain ⟨j, hj⟩ := h.given g hg
    refine ⟨j, ?_⟩
    rw [List.getElem?_append_left (List.getElem?_eq_some_iff.1 hj).1, hj]
  cases hnum : st.2.number? a with
  | some i =>
    have hadd : Numbering.addNext st a = (st.1.push i, st.2) := by
      rw [Numbering.addNext, add_of_number? hnum]
    rw [hadd]
    have hi : i < st.2.size := lt_size_of_number? hnum
    refine ⟨fun g hg => ?_, ?_⟩
    · rw [Array.toList_push]
      exact hold g hg i
    · rw [Array.toList_push]
      exact h.inOrder.append fun b hb => h.given b (by omega)
  | none =>
    obtain ⟨hnumber, hvalues⟩ := add_of_number?_eq_none hnum
    have hsize : (Numbering.addNext st a).2.size = st.2.size + 1 := by
      show (st.2.add a).2.values.size = _
      rw [hvalues, Array.size_push, size]
    have hlist : (Numbering.addNext st a).1.toList = st.1.toList ++ [st.2.size] := by
      show (st.1.push (st.2.add a).1).toList = _
      rw [hnumber, Array.toList_push]
    refine ⟨fun g hg => ?_, ?_⟩
    · rw [hlist]
      rcases Nat.lt_or_eq_of_le (Nat.le_of_lt_succ (hsize ▸ hg)) with hg | rfl
      · exact hold g hg _
      · exact ⟨st.1.toList.length, by simp⟩
    · rw [hlist]
      exact h.inOrder.append h.given

/-- The numbers given to values are used from zero on, in order. -/
theorem counts_addAll (l : List α) : Counts ((∅ : Numbering α).addAll l) := by
  suffices hfold : ∀ st : Array Nat × Numbering α, Counts st → Counts (l.foldl addNext st) from
    hfold (#[], ∅) ⟨fun g hg => absurd hg (Nat.not_lt_zero g), fun k g hk => by simp at hk⟩
  induction l with
  | nil => exact fun st hst => hst
  | cons a rest ih => exact fun st hst => ih _ (hst.addNext a)

end Numbering

end LexParse
