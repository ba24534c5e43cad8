import LexParse.CharSet
import Mathlib.Logic.Basic

/-!
# Sets of code points by their members

Two canonical lists that cover the same values are equal: the first interval of a canonical list
starts with the least value that is covered, and ends before the first value that is not. So a set
is determined by its members, and what the operations do can be said of members alone. Complement
is read off the gaps between the intervals, where the code points outside the set lie.

## What is proved

* `CharSet.ext_mem`: sets with the same members are equal.
* `CharSet.single?_eq_some_iff`: when a set has a single member, and which one.
* `CharSet.mem_complement`, `CharSet.mem_complement_iff`: the members of a complement.
-/

namespace LexParse

namespace Interval

/-- Some interval of the list contains the value. -/
def Covers (l : List Interval) (c : Int) : Prop := ∃ i ∈ l, i.Contains c

variable {l l' : List Interval} {i j : Interval} {c start : Int}

theorem not_covers_nil : ¬ Covers [] c := by
  rintro ⟨i, hi, -⟩
  cases hi

theorem covers_cons : Covers (i :: l) c ↔ i.Contains c ∨ Covers l c := by
  simp [Covers]

/-! ### Canonical lists -/

theorem Canonical.head (h : Canonical (i :: l)) : i.lo ≤ i.hi := h.1 i (List.mem_cons_self ..)

theorem Canonical.tail (h : Canonical (i :: l)) : Canonical l :=
  ⟨fun j hj => h.1 j (List.mem_cons_of_mem _ hj), (List.pairwise_cons.1 h.2).2⟩

theorem Canonical.before (h : Canonical (i :: l)) (hj : j ∈ l) : i.Before j :=
  (List.pairwise_cons.1 h.2).1 j hj

theorem Canonical.hi_le_of_mem (h : Canonical (i :: l)) (hj : j ∈ l) : i.hi ≤ j.hi := by
  have hbefore : i.hi + 1 < j.lo := h.before hj
  have := h.tail.1 j hj
  omega

/-- Between the first interval and what the others cover lies a gap. -/
theorem Canonical.lt_of_covers (h : Canonical (i :: l)) (hc : Covers l c) : i.hi + 1 < c := by
  obtain ⟨j, hj, hlo, -⟩ := hc
  exact Int.lt_of_lt_of_le (h.before hj) hlo

/-- The first interval starts with the least value that is covered. -/
theorem Canonical.lo_le (h : Canonical (i :: l)) (hc : Covers (i :: l) c) : i.lo ≤ c := by
  rcases covers_cons.1 hc with hc | hc
  · exact hc.1
  · have := h.lt_of_covers hc
    have := h.head
    omega

theorem Canonical.covers_lo (h : Canonical (i :: l)) : Covers (i :: l) i.lo :=
  covers_cons.2 (.inl ⟨Int.le_refl _, h.head⟩)

/-- Of two lists that start with the same value, the one that covers less has the shorter first
interval: the value behind the other's first interval is not covered. -/
theorem Canonical.hi_le (h : Canonical (j :: l')) (hlo : i.lo = j.lo)
    (hsub : ∀ c, Covers (i :: l) c → Covers (j :: l') c) : i.hi ≤ j.hi := by
  refine Int.not_lt.1 fun hlt => ?_
  have hj := h.head
  have hbehind : Covers (i :: l) (j.hi + 1) := covers_cons.2 (.inl ⟨by omega, by omega⟩)
  rcases covers_cons.1 (hsub _ hbehind) with hc | hc
  · have := hc.2
    omega
  · exact absurd (h.lt_of_covers hc) (Int.lt_irrefl _)

/-- A canonical list is determined by the values it covers. -/
theorem Canonical.eq_of_covers (h : Canonical l) (h' : Canonical l')
    (hcovers : ∀ c, Covers l c ↔ Covers l' c) : l = l' := by
  induction l generalizing l' with
  | nil =>
    cases l' with
    | nil => rfl
    | cons j l' => exact absurd ((hcovers j.lo).2 h'.covers_lo) not_covers_nil
  | cons i l ih =>
    cases l' with
    | nil => exact absurd ((hcovers i.lo).1 h.covers_lo) not_covers_nil
    | cons j l' =>
      have hlo : i.lo = j.lo :=
        Int.le_antisymm (h.lo_le ((hcovers _).2 h'.covers_lo))
          (h'.lo_le ((hcovers _).1 h.covers_lo))
      have hhi : i.hi = j.hi :=
        Int.le_antisymm (h'.hi_le hlo fun c => (hcovers c).1)
          (h.hi_le hlo.symm fun c => (hcovers c).2)
      obtain rfl : i = j := by cases i; cases j; simp_all
      -- what the rest covers is what lies behind the first interval
      have hbehind : ∀ c, Covers l c ↔ Covers l' c := by
        intro c
        have hc := hcovers c
        rw [covers_cons, covers_cons] at hc
        constructor
        · intro hl
          rcases hc.1 (.inr hl) with hi | hl'
          · have := h.lt_of_covers hl
            have := hi.2
            omega
          · exact hl'
        · intro hl'
          rcases hc.2 (.inr hl') with hi | hl
          · have := h'.lt_of_covers hl'
            have := hi.2
            omega
          · exact hl
      rw [ih h.tail h'.tail hbehind]

/-! ### Gaps -/

/-- The gaps lie behind the value they are counted from, if no interval ends long before it. -/
theorem le_of_covers_gaps (h : Canonical l) (hstart : ∀ j ∈ l, start ≤ j.hi + 1)
    (hc : Covers (gaps start l) c) : start ≤ c := by
  induction l generalizing start with
  | nil =>
    rcases covers_cons.1 hc with hc | hc
    · exact hc.1
    · exact absurd hc not_covers_nil
  | cons i l ih =>
    rcases covers_cons.1 hc with hc | hc
    · exact hc.1
    · have hnext : ∀ j ∈ l, i.hi + 1 ≤ j.hi + 1 := fun j hj =>
        Int.add_le_add_right (h.hi_le_of_mem hj) 1
      exact Int.le_trans (hstart i (List.mem_cons_self ..)) (ih h.tail hnext hc)

/-- The gaps contain code points only, if the intervals start with code points. -/
theorem le_maxCode_of_covers_gaps (hl : ∀ j ∈ l, j.lo ≤ maxCode) (hc : Covers (gaps start l) c) :
    c ≤ maxCode := by
  induction l generalizing start with
  | nil =>
    rcases covers_cons.1 hc with hc | hc
    · exact hc.2
    · exact absurd hc not_covers_nil
  | cons i l ih =>
    rcases covers_cons.1 hc with hc | hc
    · have := hl i (List.mem_cons_self ..)
      have := hc.2
      simp only at this
      omega
    · exact ih (fun j hj => hl j (List.mem_cons_of_mem _ hj)) hc

/-- From the first value on, a code point lies in a gap just when no interval contains it. -/
theorem covers_gaps_iff (h : Canonical l) (hstart : start ≤ c) (hc : c ≤ maxCode) :
    Covers (gaps start l) c ↔ ¬ Covers l c := by
  induction l generalizing start with
  | nil =>
    refine iff_of_true (covers_cons.2 (.inl ⟨hstart, hc⟩)) not_covers_nil
  | cons i l ih =>
    rw [gaps, covers_cons, covers_cons]
    by_cases hlo : c < i.lo
    · -- before the first interval
      have hgap : Contains ⟨start, i.lo - 1⟩ c := ⟨hstart, by simp only; omega⟩
      refine iff_of_true (.inl hgap) ?_
      rintro (hi | hl)
      · have := hi.1
        omega
      · have := h.lt_of_covers hl
        have := h.head
        omega
    · have hgap : ¬ Contains ⟨start, i.lo - 1⟩ c := fun hgap => by
        have := hgap.2
        simp only at this
        omega
      by_cases hhi : c ≤ i.hi
      · -- within it
        have hnext : ¬ Covers (gaps (i.hi + 1) l) c := fun hnext => by
          have := le_of_covers_gaps h.tail
            (fun j hj => Int.add_le_add_right (h.hi_le_of_mem hj) 1) hnext
          omega
        exact iff_of_false (not_or.2 ⟨hgap, hnext⟩) (not_not.2 (.inl ⟨by omega, hhi⟩))
      · -- behind it
        have hi : ¬ i.Contains c := fun hi => hhi hi.2
        rw [ih h.tail (by omega)]
        simp [hgap, hi]

end Interval

namespace CharSet

variable {s t : CharSet} {c lo hi : Int}

theorem covers_intervals : Interval.Covers s.intervals c ↔ c ∈ s := Iff.rfl

/-- Sets with the same members are equal. -/
theorem ext_mem (h : ∀ c, c ∈ s ↔ c ∈ t) : s = t :=
  CharSet.ext (s.canonical.eq_of_covers t.canonical h)

@[simp] theorem mem_range : c ∈ range lo hi ↔ lo ≤ c ∧ c ≤ hi := by
  simp [range, mem_ofIntervals, Interval.Contains]

@[simp] theorem mem_single {d : Int} : c ∈ single d ↔ c = d := by
  simp only [single, mem_ofIntervals, List.mem_singleton, exists_eq_left, Interval.Contains]
  omega

/-! ### Single members -/

/-- A set is that of one value just when this value and no other belongs to it. -/
theorem eq_single_iff : s = single c ↔ ∀ d, d ∈ s ↔ d = c := by
  constructor
  · rintro rfl d
    exact mem_single
  · intro h
    exact ext_mem fun d => by rw [h, mem_single]

theorem single?_single : (single c).single? = some c := by
  simp [single?, single, ofIntervals, insertAll, insert, EmptyCollection.emptyCollection, empty,
    Interval.insertInto]

/-- A set has a single member just when it is the set of one value. -/
theorem single?_eq_some_iff : s.single? = some c ↔ s = single c := by
  constructor
  · intro h
    unfold single? at h
    split at h
    · rename_i i hi
      split at h
      · rename_i heq
        cases h
        refine eq_single_iff.2 fun d => ?_
        rw [← covers_intervals, hi]
        simp only [Interval.Covers, List.mem_singleton, exists_eq_left, Interval.Contains]
        omega
      · cases h
    · cases h
  · rintro rfl
    exact single?_single

/-! ### Complement -/

/-- All members are code points. -/
def OfCodes (s : CharSet) : Prop := ∀ c ∈ s, IsCode c

theorem ofCodes_ofIntervals {l : List Interval} (h : ∀ i ∈ l, 0 ≤ i.lo ∧ i.hi ≤ maxCode) :
    (ofIntervals l).OfCodes := by
  intro c hc
  obtain ⟨i, hi, hlo, hhi⟩ := mem_ofIntervals.1 hc
  exact ⟨Int.le_trans (h i hi).1 hlo, Int.le_trans hhi (h i hi).2⟩

theorem ofCodes_single (hc : IsCode c) : (single c).OfCodes :=
  ofCodes_ofIntervals fun _ hi => List.mem_singleton.1 hi ▸ hc

theorem isCode_codeOf (ch : Char) : IsCode (codeOf ch) := by
  have hvalid : ch.toNat < 0x110000 := by
    rcases ch.valid with h | h
    · exact Nat.lt_trans h (by decide)
    · exact h.2
  simp only [IsCode, maxCode, codeOf]
  omega

theorem ofCodes_ofChar (ch : Char) : (ofChar ch).OfCodes := ofCodes_single (isCode_codeOf ch)

theorem ofCodes_ofString (text : String) : (ofString text).OfCodes := by
  refine ofCodes_ofIntervals fun i hi => ?_
  obtain ⟨ch, -, rfl⟩ := List.mem_map.1 hi
  exact isCode_codeOf ch

/-- A code point belongs to the complement just when it does not belong to the set. -/
theorem mem_complement (hc : IsCode c) : c ∈ s.complement ↔ c ∉ s := by
  rw [complement, mem_ofIntervals]
  exact Interval.covers_gaps_iff s.canonical hc.1 hc.2

theorem OfCodes.complement (hs : s.OfCodes) : s.complement.OfCodes := by
  intro c hc
  have hgap : Interval.Covers (Interval.gaps 0 s.intervals) c := mem_ofIntervals.1 hc
  have hlo : ∀ j ∈ s.intervals, IsCode j.lo := fun j hj =>
    hs _ ⟨j, hj, Int.le_refl _, s.canonical.1 j hj⟩
  have hhi : ∀ j ∈ s.intervals, IsCode j.hi := fun j hj =>
    hs _ ⟨j, hj, s.canonical.1 j hj, Int.le_refl _⟩
  refine ⟨Interval.le_of_covers_gaps s.canonical (fun j hj => ?_) hgap,
    Interval.le_maxCode_of_covers_gaps (fun j hj => (hlo j hj).2) hgap⟩
  have := (hhi j hj).1
  omega

/-- The complement of a set of code points holds the code points outside the set. -/
theorem mem_complement_iff (hs : s.OfCodes) : c ∈ s.complement ↔ IsCode c ∧ c ∉ s := by
  constructor
  · intro h
    have hc := hs.complement c h
    exact ⟨hc, (mem_complement hc).1 h⟩
  · rintro ⟨hc, hcs⟩
    exact (mem_complement hc).2 hcs

end CharSet

end LexParse
