import LexParse.Proofs.CharSet
import LexParse.Proofs.SymbolClasses
import Mathlib.Data.List.Nodup

/-!
# The classes are the partition by what the sets say

Two symbols are in one class just when no set of the list tells them apart. The segments of the
alphabet are laid side by side, so a symbol lies in the segment with the number of segments that
start at or before it, and from the first value of that segment to just before the next one every
value does. What a class holds, and which classes a set is made of, is read off the segments: a set
need not be one of the list for this, since an interval that starts within a segment touches the
class of its first value.

That every class has a symbol rests on what the sets must not have: a member below zero would start
a segment before the alphabet, and its class could be without symbols.

## What is proved

* `SymbolClasses.classify_eq_some_iff`: which class a symbol has, by its segment.
* `SymbolClasses.mem_members_iff`, `SymbolClasses.mem_classesOf_iff`: the symbols of a class and the
  classes of a set, by the classes of symbols.
* `SymbolClasses.partitions_ofSets`: the classes are the partition of the alphabet by the sets.
-/

namespace LexParse

/-- Only the first of equal members is kept. -/
theorem nodup_eraseDups {α : Type} [BEq α] [LawfulBEq α] (l : List α) : l.eraseDups.Nodup := by
  induction hn : l.length using Nat.strong_induction_on generalizing l with
  | _ n ih =>
    cases l with
    | nil => simp
    | cons a l =>
      have hlt : (l.filter fun b => !b == a).length < n :=
        Nat.lt_of_le_of_lt (List.length_filter_le ..) (by simp [← hn])
      rw [List.eraseDups_cons, List.nodup_cons]
      exact ⟨by simp [List.mem_eraseDups], ih _ hlt _ rfl⟩

/-- In an increasing list, those up to a bound end where the next one is behind it. -/
theorem countP_le_eq_succ_iff {l : List Int} (h : l.Pairwise (· < ·)) {c s : Int} {j : Nat}
    (hs : l[j]? = some s) :
    l.countP (· ≤ c) = j + 1 ↔ s ≤ c ∧ ∀ next, l[j + 1]? = some next → c < next := by
  obtain ⟨hj, rfl⟩ := List.getElem?_eq_some_iff.1 hs
  have hcount := List.countP_le_length (p := fun x : Int => decide (x ≤ c)) (l := l)
  rw [getElem_le_iff_lt_countP h hj]
  constructor
  · intro heq
    refine ⟨by omega, fun next hnext => Int.not_le.1 fun hle => ?_⟩
    obtain ⟨hj', rfl⟩ := List.getElem?_eq_some_iff.1 hnext
    have := (getElem_le_iff_lt_countP h hj').1 hle
    omega
  · rintro ⟨hlt, hnext⟩
    by_contra hne
    have hj' : j + 1 < l.length := by omega
    have := (getElem_le_iff_lt_countP h hj' (c := c)).2 (by omega)
    exact absurd (hnext _ (List.getElem?_eq_getElem hj')) (Int.not_lt.2 this)

namespace SymbolClasses

variable {size : Nat} {sets : List CharSet} {S : CharSet} {c d s : Int} {cls j : Nat}

/-- The alphabet has symbols, and no set has members below them. -/
structure Proper (size : Nat) (sets : List CharSet) : Prop where
  pos : 0 < size
  nonneg : ∀ S ∈ sets, ∀ c ∈ S, 0 ≤ c

/-! ### Segments -/

/-- All segments start within the alphabet. -/
theorem Proper.start_within (h : Proper size sets) (hs : s ∈ segmentStarts size sets.eraseDups) :
    0 ≤ s ∧ s < size := by
  have hpos := h.pos
  rcases mem_segmentStarts.1 hs with rfl | ⟨S, hS, hbound⟩
  · omega
  · obtain ⟨hlt, i, hi, hend⟩ := mem_bounds.1 hbound
    have hlo : 0 ≤ i.lo :=
      h.nonneg S (List.mem_eraseDups.1 hS) i.lo ⟨i, hi, Int.le_refl _, S.canonical.1 i hi⟩
    have := S.canonical.1 i hi
    exact ⟨by omega, hlt⟩

/-- The first segment starts with zero, so there is a segment before every value from there on. -/
theorem rank_ne_zero (hc : 0 ≤ c) : (ofSets size sets).rank c ≠ 0 := by
  obtain ⟨j, -, -, hrank, -⟩ := exists_segment size sets.eraseDups hc
  have hrank : (ofSets size sets).rank c = j + 1 := hrank
  omega

theorem rank_mono (h : c ≤ d) : (ofSets size sets).rank c ≤ (ofSets size sets).rank d := by
  refine List.countP_mono_left fun x _ hx => ?_
  simp only [decide_eq_true_eq] at hx ⊢
  omega

/-- The last value of a segment lies before the next one, and within the alphabet. -/
theorem Proper.le_end_iff (h : Proper size sets)
    (hj : j < (segmentStarts size sets.eraseDups).length) :
    ∃ e, (ofSets size sets).ends[j]? = some e ∧ ∀ c, c ≤ e ↔
      c < size ∧ ∀ next, (segmentStarts size sets.eraseDups)[j + 1]? = some next → c < next := by
  have hends : (ofSets size sets).ends =
      (segmentStarts size sets.eraseDups).tail.map (· - 1) ++ [(size : Int) - 1] := rfl
  rw [hends]
  cases hnext : (segmentStarts size sets.eraseDups)[j + 1]? with
  | none =>
    have hlength := List.getElem?_eq_none_iff.1 hnext
    refine ⟨size - 1, ?_, fun c => ?_⟩
    · rw [List.getElem?_append_right (by simp; omega)]
      have hzero : j - ((segmentStarts size sets.eraseDups).tail.map (· - 1)).length = 0 := by
        simp only [List.length_map, List.length_tail]
        omega
      rw [hzero]
      rfl
    · simp only [reduceCtorEq, false_implies, implies_true, and_true]
      omega
  | some next =>
    have hlt := (h.start_within (List.mem_of_getElem? hnext)).2
    have htail : ((segmentStarts size sets.eraseDups).tail.map (· - 1))[j]? = some (next - 1) := by
      rw [List.getElem?_map, List.getElem?_tail, hnext]
      rfl
    refine ⟨next - 1, ?_, fun c => ?_⟩
    · rw [List.getElem?_append_left (List.getElem?_eq_some_iff.1 htail).1, htail]
    · simp only [Option.some.injEq, forall_eq']
      omega

/-! ### Classes of symbols -/

theorem classify_ofSets (size : Nat) (sets : List CharSet) (c : Int) :
    (ofSets size sets).classify c = if 0 ≤ c ∧ c < size then
      (ofSets size sets).classes[(ofSets size sets).rank c - 1]? else none := rfl

theorem classify_eq_some (h : (ofSets size sets).classify c = some cls) : 0 ≤ c ∧ c < size := by
  by_contra hout
  rw [classify_ofSets, if_neg hout] at h
  cases h

theorem lt_count_of_classes (h : (ofSets size sets).classes[j]? = some cls) :
    cls < (ofSets size sets).count := by
  obtain ⟨hj, -⟩ := List.getElem?_eq_some_iff.1 h
  rw [length_classes] at hj
  rw [getElem?_classes (List.getElem?_eq_getElem hj)] at h
  cases h
  exact List.idxOf_lt_length_of_mem (signature_mem (List.getElem_mem hj))

/-- A symbol has the class of its segment. -/
theorem classify_eq_some_iff : (ofSets size sets).classify c = some cls ↔
    (0 ≤ c ∧ c < size) ∧ ∃ j, (ofSets size sets).rank c = j + 1 ∧
      (ofSets size sets).classes[j]? = some cls := by
  constructor
  · intro h
    have hc := classify_eq_some h
    obtain ⟨j, -, -, hrank, -⟩ := exists_segment size sets.eraseDups hc.1
    have hrank : (ofSets size sets).rank c = j + 1 := hrank
    rw [classify_ofSets, if_pos hc, hrank] at h
    exact ⟨hc, j, hrank, h⟩
  · rintro ⟨hc, j, hrank, hj⟩
    rw [classify_ofSets, if_pos hc, hrank]
    exact hj

theorem exists_classify (hc : 0 ≤ c) (hcs : c < size) :
    ∃ cls < (ofSets size sets).count, (ofSets size sets).classify c = some cls := by
  obtain ⟨cls, hclass, hlt, -⟩ := @exists_classify_ofSets size sets c hc hcs
  exact ⟨cls, hlt, hclass⟩

/-- **Two symbols have one class just when no set tells them apart.** -/
theorem classify_eq_iff (hc : 0 ≤ c ∧ c < size) (hd : 0 ≤ d ∧ d < size) :
    (ofSets size sets).classify c = (ofSets size sets).classify d ↔
      ∀ S ∈ sets, c ∈ S ↔ d ∈ S := by
  obtain ⟨s, hs, -, hcs, hclass⟩ := @exists_start size sets c hc.1 hc.2
  obtain ⟨t, ht, -, hdt, hclass'⟩ := @exists_start size sets d hd.1 hd.2
  rw [hclass, hclass', Option.some.injEq, List.idxOf_inj (signature_mem hs), signature, signature,
    List.map_inj_left]
  constructor
  · intro h S hS
    rw [hcs S hS, hdt S hS, ← CharSet.contains_iff, h S (List.mem_eraseDups.2 hS),
      CharSet.contains_iff]
  · intro h S hS
    have hS := List.mem_eraseDups.1 hS
    rw [Bool.eq_iff_iff, CharSet.contains_iff, CharSet.contains_iff, ← hcs S hS, ← hdt S hS]
    exact h S hS

/-! ### Symbols of classes -/

/-- **A class holds the symbols that have it.** -/
theorem mem_members_iff (h : Proper size sets) :
    c ∈ (ofSets size sets).members cls ↔ (ofSets size sets).classify c = some cls := by
  have hsorted : (segmentStarts size sets.eraseDups).Pairwise (· < ·) := pairwise_segmentStarts
  rw [members, CharSet.mem_ofIntervals, classify_eq_some_iff]
  constructor
  · rintro ⟨i, hi, hlo, hhi⟩
    obtain ⟨⟨s, e, cls'⟩, hmem, rfl⟩ := List.mem_map.1 hi
    obtain ⟨hzip, hcls⟩ := List.mem_filter.1 hmem
    obtain rfl : cls' = cls := by simpa using hcls
    obtain ⟨j, hj⟩ := List.mem_iff_getElem?.1 hzip
    obtain ⟨hs, hrest⟩ := List.getElem?_zip_eq_some.1 hj
    obtain ⟨he, hclass⟩ := List.getElem?_zip_eq_some.1 hrest
    have hs : (segmentStarts size sets.eraseDups)[j]? = some s := hs
    obtain ⟨e', he', hend⟩ := h.le_end_iff (List.getElem?_eq_some_iff.1 hs).1
    obtain rfl := Option.some.inj (he.symm.trans he')
    obtain ⟨hlt, hnext⟩ := (hend c).1 hhi
    have hpos := (h.start_within (List.mem_of_getElem? hs)).1
    exact ⟨⟨Int.le_trans hpos hlo, hlt⟩, j, (countP_le_eq_succ_iff hsorted hs).2 ⟨hlo, hnext⟩,
      hclass⟩
  · rintro ⟨⟨-, hlt⟩, j, hrank, hclass⟩
    have hj : j < (segmentStarts size sets.eraseDups).length :=
      length_classes ▸ (List.getElem?_eq_some_iff.1 hclass).1
    have hs := List.getElem?_eq_getElem hj
    obtain ⟨e, he, hend⟩ := h.le_end_iff hj
    obtain ⟨hlo, hnext⟩ := (countP_le_eq_succ_iff hsorted hs).1 hrank
    refine ⟨_, List.mem_map.2 ⟨(_, e, cls), List.mem_filter.2 ⟨?_, by simp⟩, rfl⟩, hlo,
      (hend c).2 ⟨hlt, hnext⟩⟩
    exact List.mem_iff_getElem?.2
      ⟨j, List.getElem?_zip_eq_some.2 ⟨hs, List.getElem?_zip_eq_some.2 ⟨he, hclass⟩⟩⟩

/-- **Every class has a symbol**: the first value of a segment that shows it. -/
theorem exists_mem_members (h : Proper size sets) (hcls : cls < (ofSets size sets).count) :
    ∃ c, c ∈ (ofSets size sets).members cls := by
  have hcls : cls < (signatures size sets).length := hcls
  have hmem := List.getElem_mem hcls
  obtain ⟨s, hs, hsig⟩ := List.mem_map.1 (List.mem_eraseDups.1 hmem)
  obtain ⟨j, hj⟩ := List.mem_iff_getElem?.1 hs
  refine ⟨s, (mem_members_iff h).2 (classify_eq_some_iff.2 ⟨h.start_within hs, j, ?_, ?_⟩)⟩
  · refine (countP_le_eq_succ_iff pairwise_segmentStarts hj).2 ⟨Int.le_refl s, fun next hnext => ?_⟩
    obtain ⟨hlt, rfl⟩ := List.getElem?_eq_some_iff.1 hj
    obtain ⟨hlt', rfl⟩ := List.getElem?_eq_some_iff.1 hnext
    exact List.pairwise_iff_getElem.1 pairwise_segmentStarts j (j + 1) hlt hlt' (Nat.lt_succ_self j)
  · rw [getElem?_classes hj, hsig]
    exact congrArg some (List.Nodup.idxOf_getElem (nodup_eraseDups _) cls hcls)

/-! ### Classes of sets -/

/-- An interval of symbols touches the classes of its symbols. -/
theorem mem_touched_iff_classify {i : Interval} (hi : i.lo ≤ i.hi) (hlo : 0 ≤ i.lo)
    (hlt : i.lo < size) : cls ∈ (ofSets size sets).touched i ↔
      ∃ c, i.Contains c ∧ (ofSets size sets).classify c = some cls := by
  have hsorted : (segmentStarts size sets.eraseDups).Pairwise (· < ·) := pairwise_segmentStarts
  rw [mem_touched_iff (rank_ne_zero hlo)]
  constructor
  · rintro ⟨j, hclass, hfirst, hlast⟩
    have hj : j < (segmentStarts size sets.eraseDups).length :=
      length_classes ▸ (List.getElem?_eq_some_iff.1 hclass).1
    have hend := (getElem_le_iff_lt_countP hsorted hj).2 hlast
    rcases Nat.lt_or_ge j ((ofSets size sets).rank i.lo) with hbefore | hbehind
    · -- the segment starts at or before the interval, whose first value lies in it
      exact ⟨i.lo, ⟨Int.le_refl _, hi⟩, classify_eq_some_iff.2 ⟨⟨hlo, hlt⟩, j, by omega, hclass⟩⟩
    · -- the segment starts within the interval
      have hstart : i.lo < (segmentStarts size sets.eraseDups)[j] := by
        refine Int.not_le.1 fun hle => ?_
        exact absurd ((getElem_le_iff_lt_countP hsorted hj).1 hle) (Nat.not_lt.2 hbehind)
      refine ⟨_, ⟨Int.le_of_lt hstart, by omega⟩, classify_eq_some_iff.2
        ⟨⟨by omega, by omega⟩, j, ?_, hclass⟩⟩
      refine (countP_le_eq_succ_iff hsorted (List.getElem?_eq_getElem hj)).2
        ⟨Int.le_refl _, fun next hnext => ?_⟩
      obtain ⟨hj', rfl⟩ := List.getElem?_eq_some_iff.1 hnext
      exact List.pairwise_iff_getElem.1 hsorted j (j + 1) hj hj' (Nat.lt_succ_self j)
  · rintro ⟨c, ⟨hloc, hhic⟩, hclassify⟩
    obtain ⟨⟨-, hc⟩, j, hrank, hclass⟩ := classify_eq_some_iff.1 hclassify
    have hfirst : (ofSets size sets).rank i.lo ≤ (ofSets size sets).rank c := rank_mono hloc
    have hlast : (ofSets size sets).rank c ≤ (ofSets size sets).rank (min i.hi (size - 1)) :=
      rank_mono (by omega)
    exact ⟨j, hclass, by omega, by omega⟩

/-- **A set is made of the classes of its symbols**, whether it is one of the list or not. -/
theorem mem_classesOf_iff (hS : ∀ c ∈ S, 0 ≤ c) : cls ∈ (ofSets size sets).classesOf S ↔
    ∃ c ∈ S, (ofSets size sets).classify c = some cls := by
  have hlo : ∀ i ∈ S.intervals, i.lo ≤ i.hi ∧ 0 ≤ i.lo := fun i hi =>
    ⟨S.canonical.1 i hi, hS i.lo ⟨i, hi, Int.le_refl _, S.canonical.1 i hi⟩⟩
  rw [mem_classesOf_iff_touched]
  constructor
  · rintro ⟨-, i, hi, hlt, hcls⟩
    obtain ⟨c, hc, hclassify⟩ :=
      (mem_touched_iff_classify (hlo i hi).1 (hlo i hi).2 hlt).1 hcls
    exact ⟨c, ⟨i, hi, hc⟩, hclassify⟩
  · rintro ⟨c, ⟨i, hi, hc⟩, hclassify⟩
    obtain ⟨⟨-, hcs⟩, j, -, hclass⟩ := classify_eq_some_iff.1 hclassify
    have hlt : i.lo < (size : Int) := Int.lt_of_le_of_lt hc.1 hcs
    exact ⟨lt_count_of_classes hclass, i, hi, hlt,
      (mem_touched_iff_classify (hlo i hi).1 (hlo i hi).2 hlt).2 ⟨c, hc, hclassify⟩⟩

/-! ### The partition -/

/-- Classes that are the partition of the symbols below a size by what some sets say of them. -/
structure Partitions (k : SymbolClasses) (size : Nat) (sets : List CharSet) : Prop where
  /-- Every symbol has one of the classes. -/
  symbol : ∀ c : Int, 0 ≤ c ∧ c < size → ∃ cls < k.count, k.classify c = some cls
  /-- No other value has a class. -/
  outside : ∀ c : Int, ¬ (0 ≤ c ∧ c < size) → k.classify c = none
  /-- Two symbols have one class just when no set tells them apart. -/
  same : ∀ c d : Int, 0 ≤ c ∧ c < size → 0 ≤ d ∧ d < size →
    (k.classify c = k.classify d ↔ ∀ S ∈ sets, c ∈ S ↔ d ∈ S)
  /-- Every class has a symbol. -/
  nonempty : ∀ cls < k.count, ∃ c, c ∈ k.members cls
  /-- A class holds the symbols that have it. -/
  members : ∀ cls c, c ∈ k.members cls ↔ k.classify c = some cls
  /-- A set is made of the classes of its symbols. -/
  classesOf : ∀ S : CharSet, (∀ c ∈ S, 0 ≤ c) →
    ∀ cls, cls ∈ k.classesOf S ↔ ∃ c ∈ S, k.classify c = some cls
  /-- The classes of a set of the list hold the symbols of the set and no others. -/
  union : ∀ S ∈ sets, ∀ c, (∃ cls ∈ k.classesOf S, c ∈ k.members cls) ↔ c ∈ S ∧ 0 ≤ c ∧ c < size

/-- **The symbol classes are the partition of the alphabet by what the sets say.** -/
theorem partitions_ofSets (hsize : 0 < size) (hsets : ∀ S ∈ sets, ∀ c ∈ S, 0 ≤ c) :
    (ofSets size sets).Partitions size sets := by
  have h : Proper size sets := ⟨hsize, hsets⟩
  refine ⟨fun c hc => exists_classify hc.1 hc.2, fun c hc => if_neg hc, fun c d => classify_eq_iff,
    fun cls => exists_mem_members h, fun cls c => mem_members_iff h,
    fun S hS cls => mem_classesOf_iff hS, fun S hS c => ?_⟩
  constructor
  · rintro ⟨cls, hcls, hc⟩
    have hclass := (mem_members_iff h).1 hc
    obtain ⟨d, hd, hclass'⟩ := (mem_classesOf_iff (hsets S hS)).1 hcls
    have hin := classify_eq_some hclass
    refine ⟨?_, hin⟩
    exact ((classify_eq_iff hin (classify_eq_some hclass')).1 (hclass.trans hclass'.symm) S hS).2 hd
  · rintro ⟨hcS, hc⟩
    obtain ⟨cls, -, hclass⟩ := @exists_classify size sets c hc.1 hc.2
    exact ⟨cls, (mem_classesOf_iff (hsets S hS)).2 ⟨c, hcS, hclass⟩, (mem_members_iff h).2 hclass⟩

/-- Two sets that overlap, one of which goes beyond an alphabet of ten symbols. -/
def overlapping : List CharSet := [.range 2 5, .range 4 20]

/-- The symbols that only the second set has are in one class, and where the sets overlap another
one begins; a set with a part of a class is made of that class. -/
theorem classify_overlapping :
    0 < 10 ∧ (∀ S ∈ overlapping, ∀ c ∈ S, 0 ≤ c) ∧
    (ofSets 10 overlapping).classify 6 = (ofSets 10 overlapping).classify 9 ∧
    (ofSets 10 overlapping).classify 3 ≠ (ofSets 10 overlapping).classify 4 ∧
    (ofSets 10 overlapping).classify 10 = none ∧
    ∃ cls ∈ (ofSets 10 overlapping).classesOf (.range 3 3),
      2 ∈ (ofSets 10 overlapping).members cls := by
  have hsets : ∀ S ∈ overlapping, ∀ c ∈ S, 0 ≤ c := by
    simp only [overlapping, List.forall_mem_cons, CharSet.mem_range]
    exact ⟨fun c hc => by omega, fun c hc => by omega, List.forall_mem_nil _⟩
  have h := partitions_ofSets (show 0 < 10 by decide) hsets
  have hsame : (ofSets 10 overlapping).classify 2 = (ofSets 10 overlapping).classify 3 :=
    (h.same 2 3 (by decide) (by decide)).2 (by decide)
  obtain ⟨cls, -, hclass⟩ := h.symbol 3 (by decide)
  refine ⟨by decide, hsets, (h.same 6 9 (by decide) (by decide)).2 (by decide),
    fun heq => absurd ((h.same 3 4 (by decide) (by decide)).1 heq) (by decide),
    h.outside 10 (by decide), cls, (h.classesOf _ ?_ cls).2 ⟨3, by decide, hclass⟩,
    (h.members cls 2).2 (hsame.trans hclass)⟩
  intro c hc
  rw [CharSet.mem_range] at hc
  omega

end SymbolClasses

end LexParse
