import LexParse.Proofs.CharSet

/-!
# Canonical sets are a boolean algebra

The intervals of a set are found by putting one interval after the other into a canonical list. They
can also be sorted first and then joined in one pass, each of them looked at next to the last
interval that the pass has come to: no other can touch it. Both ways come to the same list, as there
is one canonical list for the values that are covered. For the same reason a value need not be
looked for in all intervals, but only in the last one that does not start behind it.

Within the code points the operations are those of a boolean algebra. Intersection and difference
are put together from complement and union, so they have no sweep of their own.

## What is proved

* `Interval.sweep_eq`: sorting and joining comes to the intervals of the set.
* `Interval.exists_lastStarting_iff`: a value is covered just when the last interval that does not
  start behind it contains it.
* `CharSet.mem_inter`, `CharSet.mem_diff`, `CharSet.complement_complement`: the operations.
* `CharSet.canonical_algebra`: all of it together.
-/

namespace LexParse

namespace Interval

variable {l l' done rest : List Interval} {i j : Interval} {c : Int}

theorem covers_append : Covers (l ++ l') c ↔ Covers l c ∨ Covers l' c := by
  simp [Covers, or_and_right, exists_or]

/-! ### Sorting and joining -/

/-- Intervals are sorted by their first values, and by their last where the first are the same. -/
def notAfter (i j : Interval) : Bool := i.lo < j.lo || (i.lo == j.lo && i.hi ≤ j.hi)

/-- Join an interval to those that a pass has come to, the last of them in front. Only this one can
touch it. An empty interval is passed over. -/
def join (done : List Interval) (i : Interval) : List Interval :=
  if i.hi < i.lo then done
  else match done with
    | [] => [i]
    | j :: rest => if i.lo ≤ j.hi + 1 then ⟨j.lo, max j.hi i.hi⟩ :: rest else i :: j :: rest

/-- Sort intervals and join them in one pass. -/
def sweep (l : List Interval) : List Interval := ((l.mergeSort notAfter).foldl join []).reverse

theorem notAfter_iff : i.notAfter j = true ↔ i.lo < j.lo ∨ i.lo = j.lo ∧ i.hi ≤ j.hi := by
  simp [notAfter]

theorem lo_le_of_notAfter (h : i.notAfter j = true) : i.lo ≤ j.lo := by
  rw [notAfter_iff] at h
  omega

theorem pairwise_mergeSort_notAfter (l : List Interval) :
    (l.mergeSort notAfter).Pairwise fun i j => i.lo ≤ j.lo := by
  have htrans : ∀ i j k : Interval, i.notAfter j → j.notAfter k → i.notAfter k := by
    intro i j k hij hjk
    rw [notAfter_iff] at *
    omega
  have htotal : ∀ i j : Interval, i.notAfter j || j.notAfter i := by
    intro i j
    rw [Bool.or_eq_true, notAfter_iff, notAfter_iff]
    omega
  exact (List.pairwise_mergeSort htrans htotal l).imp lo_le_of_notAfter

/-- What a pass over some intervals has come to: intervals with gaps between them that cover the
same values, and none of them starts where no given interval does. -/
structure Joined (l done : List Interval) : Prop where
  nonempty : ∀ i ∈ done, i.lo ≤ i.hi
  apart : done.Pairwise fun i j => j.Before i
  covers : ∀ c, Covers done c ↔ Covers l c
  start : ∀ i ∈ done, ∃ j ∈ l, j.lo = i.lo

theorem joined_nil : Joined [] [] := ⟨nofun, .nil, fun _ => Iff.rfl, nofun⟩

/-- An interval without values changes nothing. -/
theorem Joined.skip (h : Joined l done) (hempty : i.hi < i.lo) : Joined (l ++ [i]) done := by
  refine ⟨h.nonempty, h.apart, fun c => ?_, fun k hk => ?_⟩
  · have hnot : ¬ Covers [i] c := by
      simp only [Covers, List.mem_singleton, exists_eq_left, Contains]
      omega
    rw [covers_append, h.covers]
    simp [hnot]
  · obtain ⟨j, hj, heq⟩ := h.start k hk
    exact ⟨j, List.mem_append_left _ hj, heq⟩

/-- An interval behind the last one is put behind it, if a gap lies between them. -/
theorem Joined.push (h : Joined l done) (hi : i.lo ≤ i.hi) (hgap : ∀ j ∈ done, j.Before i) :
    Joined (l ++ [i]) (i :: done) := by
  refine ⟨List.forall_mem_cons.2 ⟨hi, h.nonempty⟩, List.pairwise_cons.2 ⟨hgap, h.apart⟩,
    fun c => ?_, List.forall_mem_cons.2 ⟨⟨i, by simp, rfl⟩, fun k hk => ?_⟩⟩
  · rw [covers_cons, covers_append, h.covers, or_comm, covers_cons]
    simp [not_covers_nil]
  · obtain ⟨j, hj, heq⟩ := h.start k hk
    exact ⟨j, List.mem_append_left _ hj, heq⟩

/-- An interval without a gap behind the last one is made part of it. -/
theorem Joined.extend (h : Joined l (j :: done)) (hi : i.lo ≤ i.hi) (hji : j.lo ≤ i.lo)
    (htouch : i.lo ≤ j.hi + 1) : Joined (l ++ [i]) (⟨j.lo, max j.hi i.hi⟩ :: done) := by
  obtain ⟨hj, hdone⟩ := List.forall_mem_cons.1 h.nonempty
  obtain ⟨hbefore, hapart⟩ := List.pairwise_cons.1 h.apart
  obtain ⟨⟨k, hk, hlo⟩, hstart⟩ := List.forall_mem_cons.1 h.start
  refine ⟨List.forall_mem_cons.2 ⟨?_, hdone⟩, List.pairwise_cons.2 ⟨hbefore, hapart⟩,
    fun c => ?_, List.forall_mem_cons.2 ⟨⟨k, List.mem_append_left _ hk, hlo⟩, fun m hm => ?_⟩⟩
  · simp only
    omega
  · have hboth : Contains ⟨j.lo, max j.hi i.hi⟩ c ↔ j.Contains c ∨ i.Contains c := by
      simp only [Contains]
      omega
    have hl := h.covers c
    rw [covers_cons] at hl
    rw [covers_cons, covers_append, ← hl, covers_cons, hboth]
    simp only [not_covers_nil, or_false]
    exact or_right_comm
  · obtain ⟨n, hn, heq⟩ := hstart m hm
    exact ⟨n, List.mem_append_left _ hn, heq⟩

/-- **Joining an interval that starts behind all others** keeps what a pass has come to. -/
theorem Joined.join (h : Joined l done) (hlater : ∀ j ∈ l, j.lo ≤ i.lo) :
    Joined (l ++ [i]) (Interval.join done i) := by
  unfold Interval.join
  split
  · rename_i hempty
    exact h.skip hempty
  · rename_i hi
    cases done with
    | nil => exact h.push (Int.not_lt.1 hi) nofun
    | cons j rest =>
      obtain ⟨k, hk, hlo⟩ := h.start j (List.mem_cons_self ..)
      have hji : j.lo ≤ i.lo := hlo ▸ hlater k hk
      simp only
      split
      · rename_i htouch
        exact h.extend (Int.not_lt.1 hi) hji htouch
      · rename_i hgap
        refine h.push (Int.not_lt.1 hi) fun m hm => ?_
        rcases List.mem_cons.1 hm with rfl | hm
        · exact Int.not_le.1 hgap
        · -- the intervals before the last one end before it starts
          have hmj : m.Before j := (List.pairwise_cons.1 h.apart).1 m hm
          have := h.nonempty j (List.mem_cons_self ..)
          simp only [Before] at *
          omega

theorem joined_foldl (h : Joined l done)
    (hsorted : (l ++ rest).Pairwise fun i j => i.lo ≤ j.lo) :
    Joined (l ++ rest) (rest.foldl Interval.join done) := by
  induction rest generalizing l done with
  | nil => simpa using h
  | cons i rest ih =>
    rw [List.append_cons] at hsorted ⊢
    have hlater : ∀ j ∈ l, j.lo ≤ i.lo := fun j hj =>
      (List.pairwise_append.1 (List.pairwise_append.1 hsorted).1).2.2 j hj i (by simp)
    exact ih (h.join hlater) hsorted

theorem joined_sweep (l : List Interval) : Joined (l.mergeSort notAfter) (sweep l).reverse := by
  rw [sweep, List.reverse_reverse]
  exact joined_foldl (l := []) joined_nil (pairwise_mergeSort_notAfter l)

theorem canonical_sweep (l : List Interval) : Canonical (sweep l) := by
  have h := joined_sweep l
  exact ⟨fun i hi => h.nonempty i (List.mem_reverse.2 hi), List.pairwise_reverse.1 h.apart⟩

theorem covers_sweep (l : List Interval) (c : Int) : Covers (sweep l) c ↔ Covers l c := by
  have h := (joined_sweep l).covers c
  simpa [Covers] using h

/-- **Sorting and joining comes to the intervals of the set.** -/
theorem sweep_eq (l : List Interval) : sweep l = (CharSet.ofIntervals l).intervals :=
  (canonical_sweep l).eq_of_covers (CharSet.ofIntervals l).canonical fun c =>
    (covers_sweep l c).trans CharSet.mem_ofIntervals.symm

/-! ### Looking for a value -/

/-- The last of some increasing intervals that does not start behind a value: as many of them start
at or before the value as stand up to this one. -/
def lastStarting (l : List Interval) (c : Int) : Option Interval :=
  match l.countP (·.lo ≤ c) with
  | 0 => none
  | n + 1 => l[n]?

/-- If an interval starts behind a value, so do all that come after it. -/
theorem Canonical.countP_eq_zero (h : Canonical (i :: l)) (hc : c < i.lo) :
    l.countP (·.lo ≤ c) = 0 := by
  rw [List.countP_eq_zero]
  intro j hj
  have hbefore : i.hi + 1 < j.lo := h.before hj
  have := h.head
  simp only [decide_eq_true_eq]
  omega

/-- **A value is covered just when the last interval that does not start behind it contains it.** -/
theorem exists_lastStarting_iff (h : Canonical l) :
    (∃ i, lastStarting l c = some i ∧ c ≤ i.hi) ↔ Covers l c := by
  induction l with
  | nil => simp [lastStarting, Covers]
  | cons i l ih =>
    by_cases hlo : i.lo ≤ c
    · have hcount : (i :: l).countP (·.lo ≤ c) = l.countP (·.lo ≤ c) + 1 := by
        simp [hlo]
      cases hrest : l.countP (·.lo ≤ c) with
      | zero =>
        -- the other intervals start behind the value
        have hlast : lastStarting (i :: l) c = some i := by
          rw [lastStarting, hcount, hrest]
          rfl
        have hnot : ¬ Covers l c := by
          rintro ⟨j, hj, hjlo, -⟩
          exact absurd (List.countP_eq_zero.1 hrest j hj) (by simpa using hjlo)
        rw [hlast, covers_cons]
        simp [hnot, Contains, hlo]
      | succ n =>
        have hlast : lastStarting (i :: l) c = lastStarting l c := by
          rw [lastStarting, lastStarting, hcount, hrest]
          rfl
        -- another interval starts at or before the value, so the first one ends before it
        have hnot : ¬ i.Contains c := by
          intro hc
          have hpos : 0 < l.countP (·.lo ≤ c) := by omega
          obtain ⟨j, hj, hjc⟩ := List.countP_pos_iff.1 hpos
          have hbefore : i.hi + 1 < j.lo := h.before hj
          have := hc.2
          rw [decide_eq_true_eq] at hjc
          omega
        rw [hlast, covers_cons, ih h.tail]
        simp [hnot]
    · have hlast : lastStarting (i :: l) c = none := by
        rw [lastStarting, List.countP_cons_of_neg (by simpa using hlo),
          h.countP_eq_zero (Int.not_le.1 hlo)]
      rw [hlast]
      simp only [reduceCtorEq, false_and, exists_false, false_iff]
      exact fun hc => hlo (h.lo_le hc)

end Interval

namespace CharSet

variable {s t : CharSet} {c : Int}

/-! ### The operations -/

theorem mem_inter (hc : IsCode c) : c ∈ s.inter t ↔ c ∈ s ∧ c ∈ t := by
  rw [inter, mem_complement hc, mem_union, mem_complement hc, mem_complement hc, not_or, not_not,
    not_not]

theorem mem_diff (hc : IsCode c) : c ∈ s.diff t ↔ c ∈ s ∧ c ∉ t := by
  rw [diff, mem_inter hc, mem_complement hc]

theorem complement_complement (hs : s.OfCodes) : s.complement.complement = s := by
  refine ext_mem fun c => ?_
  rw [mem_complement_iff hs.complement, mem_complement_iff hs]
  constructor
  · rintro ⟨hc, hnot⟩
    exact not_not.1 fun hcs => hnot ⟨hc, hcs⟩
  · intro hcs
    exact ⟨hs c hcs, fun h => h.2 hcs⟩

/-- **Sets of code points are canonical, and a boolean algebra.** Whatever intervals a set is made
from, also by sorting and joining them, its own intervals are not empty, they increase, and gaps lie
between them; and the values of the set are those of the given intervals, also if a value is only
looked for in the last interval that does not start behind it. Sets with the same members are equal
and no others. On code points the operations do what they say, and the complement of the complement
of a set of code points is the set itself. -/
theorem canonical_algebra :
    (∀ l : List Interval,
      (ofIntervals l).intervals = Interval.sweep l ∧ Interval.Canonical (Interval.sweep l) ∧
      ∀ c : Int, ((ofIntervals l).contains c = true ↔ ∃ i ∈ l, i.lo ≤ c ∧ c ≤ i.hi) ∧
        ((ofIntervals l).contains c = true ↔
          ∃ i, Interval.lastStarting (ofIntervals l).intervals c = some i ∧ c ≤ i.hi)) ∧
    (∀ s t : CharSet, s = t ↔ ∀ c, c ∈ s ↔ c ∈ t) ∧
    (∀ (s t : CharSet) (c : Int), IsCode c →
      (c ∈ s.union t ↔ c ∈ s ∨ c ∈ t) ∧ (c ∈ s.complement ↔ c ∉ s) ∧
      (c ∈ s.inter t ↔ c ∈ s ∧ c ∈ t) ∧ (c ∈ s.diff t ↔ c ∈ s ∧ c ∉ t)) ∧
    ∀ s : CharSet, s.OfCodes → s.complement.complement = s := by
  refine ⟨fun l => ⟨(Interval.sweep_eq l).symm, Interval.canonical_sweep l, fun c => ⟨?_, ?_⟩⟩,
    fun s t => ⟨?_, ext_mem⟩, fun s t c hc => ⟨mem_union, mem_complement hc, mem_inter hc,
      mem_diff hc⟩, fun s => complement_complement⟩
  · exact contains_iff.trans mem_ofIntervals
  · exact contains_iff.trans (Interval.exists_lastStarting_iff (ofIntervals l).canonical).symm
  · rintro rfl c
    exact Iff.rfl

/-- Intervals in no order: two that touch, one within another, one with its ends reversed, and one
on each side of the code points. -/
def scattered : List Interval :=
  [⟨21, 30⟩, ⟨0x110000, 0x110004⟩, ⟨9, 5⟩, ⟨10, 20⟩, ⟨12, 15⟩, ⟨-7, -3⟩]

/-- What scattered intervals are joined to, and what the operations make of a set of code points
and of them. -/
theorem sweep_scattered :
    Interval.sweep scattered = [⟨-7, -3⟩, ⟨10, 30⟩, ⟨0x110000, 0x110004⟩] ∧
    IsCode 25 ∧ 25 ∉ (range 20 40).diff (ofIntervals scattered) ∧
    (range 20 40).OfCodes ∧ (range 20 40).complement.complement = range 20 40 := by
  obtain ⟨hsets, -, hoperations, htwice⟩ := canonical_algebra
  obtain ⟨hintervals, -, hmembers⟩ := hsets scattered
  have hcode : IsCode 25 := by decide
  have hcodes : (range 20 40).OfCodes := ofCodes_ofIntervals (by decide)
  have hmem : 25 ∈ ofIntervals scattered :=
    contains_iff.1 ((hmembers 25).1.2 ⟨⟨21, 30⟩, by decide⟩)
  refine ⟨hintervals.symm.trans (by decide), hcode, fun h => ?_, hcodes, htwice _ hcodes⟩
  exact (((hoperations _ _ 25 hcode).2.2.2).1 h).2 hmem

end CharSet

end LexParse
