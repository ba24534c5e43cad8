import Std.Data.HashMap

/-!
# Numbered values

Values are numbered from zero on in the order in which they come, and a value that comes again keeps
its number. The numbers are looked up in a hash table, so numbering takes a time in proportion to
the number of values. The main statement is `Numbering.valuesAt_addAll`: the numbers given to some
values lead back to these values.
-/

namespace LexParse

/-- Values and their numbers. -/
structure Numbering (α : Type) [BEq α] [Hashable α] where
  /-- The values, by number. -/
  values : Array α
  /-- The numbers of the values. -/
  numbers : Std.HashMap α Nat
  /-- A number is that of the value that stands at its place. -/
  numbers_eq_some_iff : ∀ (a : α) (i : Nat), numbers[a]? = some i ↔ values[i]? = some a

namespace Numbering

variable {α : Type} [BEq α] [Hashable α]

/-- How many values there are. -/
def size (n : Numbering α) : Nat := n.values.size

/-- The number of a value. -/
def number? (n : Numbering α) (a : α) : Option Nat := n.numbers[a]?

/-- Different values have different numbers. -/
theorem number?_inj {n : Numbering α} {a b : α} {i : Nat} (ha : n.number? a = some i)
    (hb : n.number? b = some i) : a = b := by
  have h1 := (n.numbers_eq_some_iff a i).1 ha
  have h2 := (n.numbers_eq_some_iff b i).1 hb
  exact Option.some.inj (h1.symm.trans h2)

/-- Numbers lie below the size. -/
theorem lt_size_of_number? {n : Numbering α} {a : α} {i : Nat} (h : n.number? a = some i) :
    i < n.size :=
  (Array.getElem?_eq_some_iff.1 ((n.numbers_eq_some_iff a i).1 h)).1

variable [LawfulBEq α]

/-- No values. -/
def empty : Numbering α := ⟨#[], ∅, by simp⟩

instance : EmptyCollection (Numbering α) := ⟨empty⟩

/-- A new value stands behind all others. -/
theorem numbers_push {n : Numbering α} {a : α} (h : n.numbers[a]? = none) (b : α) (i : Nat) :
    (n.numbers.insert a n.values.size)[b]? = some i ↔ (n.values.push a)[i]? = some b := by
  have hb := n.numbers_eq_some_iff b i
  rw [Std.HashMap.getElem?_insert, Array.getElem?_push]
  by_cases hab : a = b
  · subst hab
    simp only [beq_self_eq_true, if_true, Option.some.injEq]
    constructor
    · rintro rfl
      simp
    · intro hi
      split at hi
      · rename_i h'
        exact h'.symm
      · rw [hb.2 hi] at h
        cases h
  · simp only [beq_eq_false_iff_ne.2 hab, Bool.false_eq_true, if_false, hb]
    split
    · rename_i h'
      subst h'
      simp [hab]
    · rfl

/-- The number of a value, which is given one if it has none. -/
def add (n : Numbering α) (a : α) : Nat × Numbering α :=
  match h : n.numbers[a]? with
  | some i => (i, n)
  | none =>
    (n.values.size, ⟨n.values.push a, n.numbers.insert a n.values.size, numbers_push h⟩)

/-- Put the number of a value behind other numbers. -/
def addNext (st : Array Nat × Numbering α) (a : α) : Array Nat × Numbering α :=
  let (i, n) := st.2.add a
  (st.1.push i, n)

/-- The numbers of some values, which are given them in order. -/
def addAll (n : Numbering α) (l : List α) : Array Nat × Numbering α := l.foldl addNext (#[], n)

/-- The numbers of the values of a list, and how many different ones there are. -/
def ofList (l : List α) : Array Nat × Nat :=
  let (numbers, n) := addAll ∅ l
  (numbers, n.size)

/-! ### What the numbers say -/

/-- A value that was added stands at its number. -/
theorem values_add_self (n : Numbering α) (a : α) :
    (n.add a).2.values[(n.add a).1]? = some a := by
  unfold add
  split
  · rename_i i h
    exact (n.numbers_eq_some_iff a i).1 h
  · simp

/-- Values keep their numbers. -/
theorem values_add_of_eq_some {n : Numbering α} (a : α) {b : α} {i : Nat}
    (h : n.values[i]? = some b) : (n.add a).2.values[i]? = some b := by
  unfold add
  split
  · exact h
  · have hi := (Array.getElem?_eq_some_iff.1 h).1
    rw [Array.getElem?_push, if_neg (Nat.ne_of_lt hi), h]

/-- The values that numbers stand for. -/
def valuesAt (st : Array Nat × Numbering α) : List (Option α) :=
  st.1.toList.map fun i => st.2.values[i]?

theorem valuesAt_addNext {st : Array Nat × Numbering α} {seen : List α}
    (h : valuesAt st = seen.map some) (a : α) :
    valuesAt (addNext st a) = (seen ++ [a]).map some := by
  have hold : (st.1.toList.map fun i => (st.2.add a).2.values[i]?) = seen.map some := by
    rw [← h]
    refine List.map_congr_left fun i hi => ?_
    -- every number given before is that of a value
    have hmem : st.2.values[i]? ∈ seen.map some :=
      h ▸ List.mem_map_of_mem (f := fun i => st.2.values[i]?) hi
    obtain ⟨b, -, hb⟩ := List.mem_map.1 hmem
    rw [← hb]
    exact values_add_of_eq_some a hb.symm
  simp [valuesAt, addNext, hold, values_add_self]

theorem valuesAt_foldl {st : Array Nat × Numbering α} {seen : List α}
    (h : valuesAt st = seen.map some) (l : List α) :
    valuesAt (l.foldl addNext st) = (seen ++ l).map some := by
  induction l generalizing seen st with
  | nil => simpa using h
  | cons a rest ih => simpa using ih (valuesAt_addNext h a)

/-- The numbers given to some values lead back to these values. -/
theorem valuesAt_addAll (n : Numbering α) (l : List α) :
    valuesAt (n.addAll l) = l.map some := by
  have h : valuesAt (#[], n) = ([] : List α).map some := rfl
  simpa [addAll] using valuesAt_foldl h l

end Numbering

end LexParse
