import LexParse.Text.Quoted

/-!
# Sets of code points

A set of characters is kept as a list of inclusive intervals of code values in *canonical* form: no
interval is empty, the intervals increase, and between two of them lies a gap. Canonical lists are
in one-to-one correspondence with the sets they denote, so equality of sets is equality of lists.

Code values are integers. A set is not tied to the code points `0` to `maxCode`: complement, and
with it intersection and difference, is taken within that range, while union and the constructors
keep whatever they are given.
-/

namespace LexParse

/-- The largest code point. -/
def maxCode : Int := 0x10FFFF

/-- A code value that is a code point. -/
def IsCode (c : Int) : Prop := 0 ≤ c ∧ c ≤ maxCode

instance (c : Int) : Decidable (IsCode c) := inferInstanceAs (Decidable (_ ∧ _))

/-- Why there is no character of a code value, or no code value of a text. -/
inductive CodeFault where
  /-- The value is no code point. -/
  | outOfRange
  /-- The value does not even fit into thirty-two bits. -/
  | tooLarge
  /-- The text has not exactly one character; its length is given. -/
  | notCharacter (length : Nat)
deriving DecidableEq, Repr

/-- The wording of a fault. -/
def CodeFault.message : CodeFault → String
  | .outOfRange => "chr() arg not in range(0x110000)"
  | .tooLarge => "Python int too large to convert to C int"
  | .notCharacter length =>
    "ord() expected a character, but string of length " ++ toString length ++ " found"

/-- Check that a value is a code point. That it fits into thirty-two bits is checked first. -/
def checkCode (c : Int) : Except CodeFault Unit :=
  if c < -0x80000000 ∨ 0x7FFFFFFF < c then .error .tooLarge
  else if IsCode c then .ok ()
  else .error .outOfRange

/-- The code value of a character. -/
def codeOf (c : Char) : Int := c.toNat

/-- The code value of a text of one character. -/
def codeOfText (s : String) : Except CodeFault Int :=
  match s.toList with
  | [c] => .ok (codeOf c)
  | chars => .error (.notCharacter chars.length)

/-- An inclusive range of code values, empty when its ends are reversed. -/
structure Interval where
  /-- The first value. -/
  lo : Int
  /-- The last value. -/
  hi : Int
deriving DecidableEq, Repr

namespace Interval

/-- The value lies in the interval. -/
def Contains (i : Interval) (c : Int) : Prop := i.lo ≤ c ∧ c ≤ i.hi

instance (i : Interval) (c : Int) : Decidable (i.Contains c) := inferInstanceAs (Decidable (_ ∧ _))

/-- One interval ends before the other starts, with a gap between them. -/
def Before (i j : Interval) : Prop := i.hi + 1 < j.lo

instance (i j : Interval) : Decidable (i.Before j) := inferInstanceAs (Decidable (_ < _))

/-- The least interval that covers two. -/
def hull (i j : Interval) : Interval := ⟨min i.lo j.lo, max i.hi j.hi⟩

/-- No interval is empty, and each ends before the next one starts, with a gap between them. -/
def Canonical (l : List Interval) : Prop := (∀ i ∈ l, i.lo ≤ i.hi) ∧ l.Pairwise Before

/-- Put an interval into a canonical list, joining it with the intervals it meets or touches. -/
def insertInto (i : Interval) : List Interval → List Interval
  | [] => [i]
  | j :: rest =>
    if i.Before j then i :: j :: rest
    else if j.Before i then j :: insertInto i rest
    else insertInto (i.hull j) rest

theorem lt_lo_of_mem_insertInto {k : Int} {i : Interval} {l : List Interval} (hi : k < i.lo)
    (hl : ∀ j ∈ l, k < j.lo) : ∀ j ∈ insertInto i l, k < j.lo := by
  induction l generalizing i with
  | nil => simpa [insertInto] using hi
  | cons j rest ih =>
    have hj := hl j (by simp)
    have hr : ∀ m ∈ rest, k < m.lo := fun m hm => hl m (by simp [hm])
    rw [insertInto]
    split
    · intro m hm
      rcases List.mem_cons.1 hm with rfl | hm
      · exact hi
      · exact hl m hm
    · split
      · intro m hm
        rcases List.mem_cons.1 hm with rfl | hm
        · exact hj
        · exact ih hi hr m hm
      · exact ih (by simp only [hull]; omega) hr

theorem canonical_insertInto {i : Interval} {l : List Interval} (hi : i.lo ≤ i.hi)
    (hl : Canonical l) : Canonical (insertInto i l) := by
  induction l generalizing i with
  | nil => simp [insertInto, Canonical, hi]
  | cons j rest ih =>
    obtain ⟨hne, hp⟩ := hl
    have hj := hne j (by simp)
    have hr : Canonical rest := ⟨fun m hm => hne m (by simp [hm]), (List.pairwise_cons.1 hp).2⟩
    have hjr := (List.pairwise_cons.1 hp).1
    rw [insertInto]
    split
    · -- in front of everything
      rename_i hb
      refine ⟨?_, List.pairwise_cons.2 ⟨?_, hp⟩⟩
      · intro m hm
        rcases List.mem_cons.1 hm with rfl | hm
        · exact hi
        · exact hne m hm
      · intro m hm
        rcases List.mem_cons.1 hm with rfl | hm
        · exact hb
        · have := hjr m hm
          simp only [Before] at *
          omega
    · split
      · -- behind the first interval
        rename_i hb
        have ih := ih hi hr
        refine ⟨?_, List.pairwise_cons.2 ⟨?_, ih.2⟩⟩
        · intro m hm
          rcases List.mem_cons.1 hm with rfl | hm
          · exact hj
          · exact ih.1 m hm
        · exact lt_lo_of_mem_insertInto hb hjr
      · -- joined with the first interval
        exact ih (by simp only [hull]; omega) hr

/-- Insertion adds exactly the values of the interval. -/
theorem exists_mem_insertInto {i : Interval} {l : List Interval} (hi : i.lo ≤ i.hi)
    (hl : ∀ j ∈ l, j.lo ≤ j.hi) (c : Int) :
    (∃ j ∈ insertInto i l, j.Contains c) ↔ i.Contains c ∨ ∃ j ∈ l, j.Contains c := by
  induction l generalizing i with
  | nil => simp [insertInto]
  | cons j rest ih =>
    have hj := hl j (by simp)
    have hr : ∀ m ∈ rest, m.lo ≤ m.hi := fun m hm => hl m (by simp [hm])
    rw [insertInto]
    split
    · simp
    · split
      · simp only [List.mem_cons, exists_eq_or_imp, ih hi hr]
        constructor <;> rintro (h | h | h) <;> simp [h]
      · rename_i h1 h2
        rw [ih (by simp only [hull]; omega) hr]
        simp only [List.mem_cons, exists_eq_or_imp, ← or_assoc]
        -- two intervals without a gap between them cover their hull
        have hh : (i.hull j).Contains c ↔ i.Contains c ∨ j.Contains c := by
          simp only [hull, Contains, Before] at *
          omega
        rw [hh]

/-- The gaps of a list of intervals, from a first value on: what lies from `start` to just before
each interval, then what lies behind the last one. -/
def gaps (start : Int) : List Interval → List Interval
  | [] => [⟨start, maxCode⟩]
  | i :: rest => ⟨start, i.lo - 1⟩ :: gaps (i.hi + 1) rest

end Interval

/-- A set of code values, as the canonical list of its intervals. -/
@[ext] structure CharSet where
  /-- The intervals of the set. -/
  intervals : List Interval
  /-- The list is the canonical one. -/
  canonical : Interval.Canonical intervals
deriving DecidableEq

namespace CharSet

/-- The set without members. -/
def empty : CharSet := ⟨[], by simp [Interval.Canonical]⟩

instance : EmptyCollection CharSet := ⟨empty⟩
instance : Inhabited CharSet := ⟨empty⟩

instance : Membership Int CharSet := ⟨fun s c => ∃ i ∈ s.intervals, i.Contains c⟩

/-- Whether a value belongs to the set. -/
def contains (s : CharSet) (c : Int) : Bool := s.intervals.any fun i => i.Contains c

theorem contains_iff {s : CharSet} {c : Int} : s.contains c = true ↔ c ∈ s := by
  simp [contains, Membership.mem]

instance (s : CharSet) (c : Int) : Decidable (c ∈ s) := decidable_of_iff _ contains_iff

@[simp] theorem not_mem_empty (c : Int) : ¬ c ∈ (∅ : CharSet) := by
  rintro ⟨i, hi, -⟩
  exact absurd hi (List.not_mem_nil)

/-- Add the values of an interval; an empty interval adds none. -/
def insert (s : CharSet) (i : Interval) : CharSet :=
  if h : i.lo ≤ i.hi then
    ⟨i.insertInto s.intervals, Interval.canonical_insertInto h s.canonical⟩
  else
    s

theorem mem_insert {s : CharSet} {i : Interval} {c : Int} :
    c ∈ s.insert i ↔ i.Contains c ∨ c ∈ s := by
  rw [insert]
  split
  · rename_i h
    exact Interval.exists_mem_insertInto h s.canonical.1 c
  · rename_i h
    have : ¬ i.Contains c := fun hc => h (Int.le_trans hc.1 hc.2)
    simp [this]

/-- Add the values of some intervals. The last one is added first: intervals that increase are then
put in front of one another. -/
def insertAll (s : CharSet) (l : List Interval) : CharSet := l.foldr (fun i s => s.insert i) s

theorem mem_insertAll {l : List Interval} {s : CharSet} {c : Int} :
    c ∈ s.insertAll l ↔ (∃ i ∈ l, i.Contains c) ∨ c ∈ s := by
  unfold insertAll
  induction l with
  | nil => simp
  | cons i rest ih =>
    rw [List.foldr_cons, mem_insert, ih]
    simp only [List.mem_cons, exists_eq_or_imp, or_assoc]

/-- The set of the values of some intervals, which may be empty, overlap and come in any order. -/
def ofIntervals (l : List Interval) : CharSet := insertAll ∅ l

theorem mem_ofIntervals {l : List Interval} {c : Int} :
    c ∈ ofIntervals l ↔ ∃ i ∈ l, i.Contains c := by
  simp [ofIntervals, mem_insertAll]

/-- The set of one code value. -/
def single (c : Int) : CharSet := ofIntervals [⟨c, c⟩]

/-- The set of one character. -/
def ofChar (c : Char) : CharSet := single (codeOf c)

/-- The set of the characters of a text. -/
def ofString (s : String) : CharSet := ofIntervals (s.toList.map fun c => ⟨codeOf c, codeOf c⟩)

/-- The values from one to another, both included. -/
def range (lo hi : Int) : CharSet := ofIntervals [⟨lo, hi⟩]

/-- The set of all code points. -/
def all : CharSet := range 0 maxCode

/-- The values in one set or the other. -/
def union (s t : CharSet) : CharSet := s.insertAll t.intervals

theorem mem_union {s t : CharSet} {c : Int} : c ∈ s.union t ↔ c ∈ s ∨ c ∈ t := by
  rw [union, mem_insertAll, Or.comm]
  rfl

/-- The code points outside a set, read off its intervals from zero on. -/
def complement (s : CharSet) : CharSet := ofIntervals (Interval.gaps 0 s.intervals)

/-- The code points in both sets. -/
def inter (s t : CharSet) : CharSet := (s.complement.union t.complement).complement

/-- The code points of the first set that are not in the second. -/
def diff (s t : CharSet) : CharSet := s.inter t.complement

/-- The set has no members. -/
def isEmpty (s : CharSet) : Bool := s.intervals.isEmpty

/-- The only member of the set, if it has exactly one. -/
def single? (s : CharSet) : Option Int :=
  match s.intervals with
  | [i] => if i.lo = i.hi then some i.lo else none
  | _ => none

/-- The literal of a code value. Values that are no code point have no literal; their digits stand
in for it. -/
def codeLiteral (c : Int) : String :=
  if IsCode c then Text.quotedCodes [c.toNat] else toString c

/-- One interval in print. -/
def renderInterval (i : Interval) : String :=
  if i.lo = i.hi then codeLiteral i.lo else codeLiteral i.lo ++ "-" ++ codeLiteral i.hi

/-- The set in print, interval by interval. -/
def render (s : CharSet) : String :=
  "CharacterSet([" ++ ", ".intercalate (s.intervals.map renderInterval) ++ "])"

/-- The values that a printed set shows: the ends of its intervals, where they differ. -/
def shownCodes (s : CharSet) : List Int :=
  s.intervals.flatMap fun i => if i.lo = i.hi then [i.lo] else [i.lo, i.hi]

/-- The set in print, if all that it shows are code points. -/
def checkedRender (s : CharSet) : Except CodeFault String := do
  s.shownCodes.forM checkCode
  return s.render

/-- The only member of the set, if it has exactly one; it has to be a code point. -/
def checkedSingle (s : CharSet) : Except CodeFault (Option Int) := do
  s.single?.toList.forM checkCode
  return s.single?

end CharSet

end LexParse
