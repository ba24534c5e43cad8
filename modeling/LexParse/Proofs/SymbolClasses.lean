import LexParse.SymbolClasses
import Mathlib.Data.List.Basic
import Mathlib.Data.List.TakeWhile

/-!
# Symbol classes are exact

Within the alphabet, a class belongs to a character set just when its symbols do. The segments are
cut wherever a set may change its mind, so a set says the same of a symbol as of the first value of
its segment; and segments of one class have one signature, so the sets of the list say the same of
all of them. The statement is `exists_classify_ofSets`.
-/

namespace LexParse

theorem mem_insertOnce {x c : Int} {l : List Int} : x ∈ insertOnce c l ↔ x = c ∨ x ∈ l := by
  induction l with
  | nil => simp [insertOnce]
  | cons d rest ih =>
    rw [insertOnce]
    split
    · simp
    · split
      · rename_i heq
        simp [heq]
      · rw [List.mem_cons, ih, List.mem_cons]
        exact or_left_comm

theorem pairwise_insertOnce {c : Int} {l : List Int} (h : l.Pairwise (· < ·)) :
    (insertOnce c l).Pairwise (· < ·) := by
  induction l with
  | nil => simp [insertOnce]
  | cons d rest ih =>
    obtain ⟨hd, hrest⟩ := List.pairwise_cons.1 h
    rw [insertOnce]
    split
    · rename_i hlt
      refine List.pairwise_cons.2 ⟨fun x hx => ?_, h⟩
      rcases List.mem_cons.1 hx with rfl | hx
      · exact hlt
      · exact Int.lt_trans hlt (hd x hx)
    · split
      · exact h
      · refine List.pairwise_cons.2 ⟨fun x hx => ?_, ih hrest⟩
        rcases mem_insertOnce.1 hx with rfl | hx
        · omega
        · exact hd x hx

/-- In an increasing list the values up to a bound come first. -/
theorem getElem_le_iff_lt_countP {l : List Int} (h : l.Pairwise (· < ·)) {c : Int} {j : Nat}
    (hj : j < l.length) : l[j] ≤ c ↔ j < l.countP (· ≤ c) := by
  induction l generalizing j with
  | nil => cases hj
  | cons a rest ih =>
    obtain ⟨ha, hrest⟩ := List.pairwise_cons.1 h
    by_cases hac : a ≤ c
    · rw [List.countP_cons_of_pos (by simpa using hac)]
      cases j with
      | zero => simpa using hac
      | succ j =>
        rw [List.getElem_cons_succ, ih hrest, Nat.succ_lt_succ_iff]
    · -- nothing lies below the bound
      have hnone : (a :: rest).countP (· ≤ c) = 0 := by
        rw [List.countP_eq_zero]
        intro x hx
        rcases List.mem_cons.1 hx with rfl | hx
        · simpa using hac
        · have := ha x hx
          simp
          omega
      have hle : a ≤ (a :: rest)[j] := by
        rcases List.mem_cons.1 (List.getElem_mem hj) with heq | hmem
        · exact Int.le_of_eq heq.symm
        · exact Int.le_of_lt (ha _ hmem)
      rw [hnone]
      omega

/-- In an increasing list the values between a member and a bound stand side by side. -/
theorem between_iff {l : List Int} (h : l.Pairwise (· < ·)) {lo hi : Int} (hlo : lo ∈ l) {j : Nat}
    (hj : j < l.length) :
    lo ≤ l[j] ∧ l[j] ≤ hi ↔ l.countP (· ≤ lo) - 1 ≤ j ∧ j < l.countP (· ≤ hi) := by
  obtain ⟨i, hi', rfl⟩ := List.getElem_of_mem hlo
  have hlt := fun j hj => getElem_le_iff_lt_countP h (c := l[i]) (j := j) hj
  have hfirst := (hlt i hi').1 (Int.le_refl _)
  rw [getElem_le_iff_lt_countP h hj]
  refine and_congr_left fun _ => ⟨fun hle => ?_, fun hle => ?_⟩
  · by_contra hno
    have hnext : j + 1 < l.length := by
      have := List.countP_le_length (p := fun x : Int => decide (x ≤ l[i])) (l := l)
      omega
    have := (hlt (j + 1) hnext).2 (by omega)
    have := List.pairwise_iff_getElem.1 h j (j + 1) hj hnext (Nat.lt_succ_self j)
    omega
  · rcases Nat.lt_or_ge j i with hji | hij
    · omega
    · rcases Nat.lt_or_eq_of_le hij with hij | rfl
      · exact Int.le_of_lt (List.pairwise_iff_getElem.1 h i j hi' hj hij)
      · exact Int.le_refl _

namespace SymbolClasses

variable {size : Nat} {sets : List CharSet} {S : CharSet} {c x : Int}

/-! ### Segments -/

theorem mem_bounds : x ∈ bounds size S ↔
    x < size ∧ ∃ i ∈ S.intervals, x = i.lo ∨ x = i.hi + 1 := by
  simp only [bounds, List.mem_filter, List.mem_flatMap, List.mem_cons, List.not_mem_nil, or_false,
    decide_eq_true_eq]
  exact and_comm

theorem mem_segmentStarts :
    x ∈ segmentStarts size sets ↔ x = 0 ∨ ∃ S ∈ sets, x ∈ bounds size S := by
  rw [segmentStarts, ← List.mem_flatMap]
  generalize sets.flatMap (bounds size) = l
  induction l with
  | nil => simp
  | cons a rest ih =>
    rw [List.foldr_cons, mem_insertOnce, ih, List.mem_cons]
    exact or_left_comm

theorem pairwise_segmentStarts : (segmentStarts size sets).Pairwise (· < ·) := by
  rw [segmentStarts]
  generalize sets.flatMap (bounds size) = l
  induction l with
  | nil => simp
  | cons a rest ih => exact pairwise_insertOnce ih

/-- The segment of a value: it starts at or before the value, and no later segment does. -/
theorem exists_segment (size : Nat) (sets : List CharSet) (hc : 0 ≤ c) :
    ∃ j s, (segmentStarts size sets)[j]? = some s ∧
    (segmentStarts size sets).countP (· ≤ c) = j + 1 ∧ s ≤ c ∧
    ∀ x ∈ segmentStarts size sets, x ≤ c → x ≤ s := by
  have hsorted : (segmentStarts size sets).Pairwise (· < ·) := pairwise_segmentStarts
  generalize hl : segmentStarts size sets = l at hsorted
  have hzero : 0 ∈ l := hl ▸ mem_segmentStarts.2 (.inl rfl)
  have hlt : ∀ x ∈ l, x ≤ c → ∃ i, ∃ h : i < l.length, l[i] = x ∧ i < l.countP (· ≤ c) := by
    intro x hx hxc
    obtain ⟨i, hi, rfl⟩ := List.getElem_of_mem hx
    exact ⟨i, hi, rfl, (getElem_le_iff_lt_countP hsorted hi).1 hxc⟩
  obtain ⟨i, -, -, hpos⟩ := hlt 0 hzero hc
  obtain ⟨j, hj⟩ : ∃ j, l.countP (· ≤ c) = j + 1 :=
    ⟨_, (Nat.succ_pred_eq_of_pos (Nat.lt_of_le_of_lt (Nat.zero_le i) hpos)).symm⟩
  have hjlen : j < l.length := by
    have := List.countP_le_length (p := fun x : Int => decide (x ≤ c)) (l := l)
    omega
  refine ⟨j, l[j], List.getElem?_eq_getElem hjlen, hj,
    (getElem_le_iff_lt_countP hsorted hjlen).2 (by omega), fun x hx hxc => ?_⟩
  obtain ⟨i, hi, rfl, hij⟩ := hlt x hx hxc
  rcases Nat.lt_or_eq_of_le (Nat.le_of_lt_succ (hj ▸ hij)) with hij | rfl
  · exact Int.le_of_lt (List.pairwise_iff_getElem.1 hsorted i j hi hjlen hij)
  · exact Int.le_refl _

/-- **A set says the same of a symbol as of the first value of its segment.** -/
theorem mem_iff_of_segment {s : Int} (hS : S ∈ sets) (hcs : c < size) (hsc : s ≤ c)
    (hlast : ∀ x ∈ segmentStarts size sets, x ≤ c → x ≤ s) : c ∈ S ↔ s ∈ S := by
  have hbound : ∀ x, x ≤ c → (∃ i ∈ S.intervals, x = i.lo ∨ x = i.hi + 1) → x ≤ s := by
    intro x hx hi
    exact hlast x (mem_segmentStarts.2 (.inr ⟨S, hS, mem_bounds.2 ⟨by omega, hi⟩⟩)) hx
  constructor
  · rintro ⟨i, hi, hlo, hhi⟩
    exact ⟨i, hi, hbound i.lo hlo ⟨i, hi, .inl rfl⟩, by omega⟩
  · rintro ⟨i, hi, hlo, hhi⟩
    refine ⟨i, hi, by omega, ?_⟩
    by_contra hgt
    have := hbound (i.hi + 1) (by omega) ⟨i, hi, .inr rfl⟩
    omega

/-! ### Classes -/

/-- The different signatures of the segments, in the order in which the segments show them. -/
def signatures (size : Nat) (sets : List CharSet) : List (List Bool) :=
  ((segmentStarts size sets.eraseDups).map (signature sets.eraseDups)).eraseDups

/-- The class of a segment is the place of its signature. -/
theorem getElem?_classes {j : Nat} {s : Int}
    (h : (segmentStarts size sets.eraseDups)[j]? = some s) :
    (ofSets size sets).classes[j]? =
      some ((signatures size sets).idxOf (signature sets.eraseDups s)) := by
  simp only [ofSets, List.getElem?_map, h]
  rfl

theorem signature_mem {s : Int} (h : s ∈ segmentStarts size sets.eraseDups) :
    signature sets.eraseDups s ∈ signatures size sets := by
  rw [signatures, List.mem_eraseDups]
  exact List.mem_map_of_mem h

/-- The segment of a symbol has its class, and the sets say the same of its first value. -/
theorem exists_start (hc : 0 ≤ c) (hcs : c < size) :
    ∃ s ∈ segmentStarts size sets.eraseDups, s < size ∧ (∀ S ∈ sets, c ∈ S ↔ s ∈ S) ∧
      (ofSets size sets).classify c =
        some ((signatures size sets).idxOf (signature sets.eraseDups s)) := by
  obtain ⟨j, s, hs, hrank, hsc, hlast⟩ := exists_segment size sets.eraseDups hc
  refine ⟨s, List.mem_of_getElem? hs, Int.lt_of_le_of_lt hsc hcs, fun S hS => ?_, ?_⟩
  · exact mem_iff_of_segment (List.mem_eraseDups.2 hS) hcs hsc hlast
  · have hrank : (ofSets size sets).rank c = j + 1 := hrank
    rw [classify, if_pos ⟨hc, hcs⟩, hrank]
    exact getElem?_classes hs

/-- Intervals that start below a bound come before those that do not. -/
theorem mem_takeWhile_lt {l : List Interval} (h : Interval.Canonical l) {i : Interval} (hi : i ∈ l)
    {b : Int} (hb : i.lo < b) : i ∈ l.takeWhile fun j => j.lo < b := by
  induction l with
  | nil => cases hi
  | cons j rest ih =>
    obtain ⟨hne, hpair⟩ := h
    obtain ⟨hj, hrest⟩ := List.pairwise_cons.1 hpair
    rcases List.mem_cons.1 hi with rfl | hi
    · rw [List.takeWhile_cons_of_pos (by simpa using hb)]
      exact List.mem_cons_self ..
    · have hji : j.hi + 1 < i.lo := hj i hi
      have hjne := hne j (List.mem_cons_self ..)
      rw [List.takeWhile_cons_of_pos (by rw [decide_eq_true_eq]; omega)]
      exact List.mem_cons_of_mem _
        (ih ⟨fun m hm => hne m (List.mem_cons_of_mem _ hm), hrest⟩ hi)

theorem length_classes : (ofSets size sets).classes.length =
    (segmentStarts size sets.eraseDups).length := by
  simp [ofSets]

/-- An interval that does not start before the first segment touches the segments from that of its
first value to that of its last value within the alphabet. -/
theorem mem_touched_iff {i : Interval} {cls : Nat} (hfirst : (ofSets size sets).rank i.lo ≠ 0) :
    cls ∈ (ofSets size sets).touched i ↔ ∃ j, (ofSets size sets).classes[j]? = some cls ∧
      (ofSets size sets).rank i.lo - 1 ≤ j ∧ j < (ofSets size sets).rank (min i.hi (size - 1)) := by
  have hsize : (ofSets size sets).size = size := rfl
  simp only [touched, if_neg hfirst, List.nil_append, hsize]
  constructor
  · intro hmem
    obtain ⟨m, hm⟩ := List.mem_iff_getElem?.1 hmem
    rw [List.getElem?_drop, List.getElem?_take] at hm
    split at hm
    · rename_i hlt
      exact ⟨_, hm, Nat.le_add_right _ _, hlt⟩
    · cases hm
  · rintro ⟨j, hj, hle, hlt⟩
    refine List.mem_iff_getElem?.2 ⟨j - ((ofSets size sets).rank i.lo - 1), ?_⟩
    rw [List.getElem?_drop, List.getElem?_take, Nat.add_sub_cancel' hle, if_pos hlt, hj]

/-- An interval touches the segments that start within it. -/
theorem mem_touched {i : Interval} {cls : Nat}
    (hlo : i.lo ∈ segmentStarts size sets.eraseDups) :
    cls ∈ (ofSets size sets).touched i ↔
      ∃ s ∈ segmentStarts size sets.eraseDups, i.lo ≤ s ∧ s ≤ i.hi ∧ s < size ∧
        cls = (signatures size sets).idxOf (signature sets.eraseDups s) := by
  have hsorted : (segmentStarts size sets.eraseDups).Pairwise (· < ·) := pairwise_segmentStarts
  obtain ⟨j₀, hj₀, hlo'⟩ := List.getElem_of_mem hlo
  have hfirst : (ofSets size sets).rank i.lo ≠ 0 := by
    have := (getElem_le_iff_lt_countP hsorted hj₀).1 (Int.le_of_eq hlo')
    exact Nat.ne_of_gt (Nat.lt_of_le_of_lt (Nat.zero_le _) this)
  have hbetween : ∀ {j} (hj : j < (segmentStarts size sets.eraseDups).length),
      i.lo ≤ (segmentStarts size sets.eraseDups)[j] ∧
        (segmentStarts size sets.eraseDups)[j] ≤ min i.hi (size - 1) ↔
      (ofSets size sets).rank i.lo - 1 ≤ j ∧
        j < (ofSets size sets).rank (min i.hi (size - 1)) :=
    fun hj => between_iff hsorted hlo hj
  rw [mem_touched_iff hfirst]
  constructor
  · rintro ⟨j, hj, hrank⟩
    have hlt : j < (segmentStarts size sets.eraseDups).length :=
      length_classes ▸ (List.getElem?_eq_some_iff.1 hj).1
    have hseg := (hbetween hlt).2 hrank
    rw [getElem?_classes (List.getElem?_eq_getElem hlt)] at hj
    exact ⟨_, List.getElem_mem hlt, hseg.1, by omega, by omega, (Option.some.inj hj).symm⟩
  · rintro ⟨s, hs, hlos, hshi, hsize, rfl⟩
    obtain ⟨j, hj, rfl⟩ := List.getElem_of_mem hs
    exact ⟨j, getElem?_classes (List.getElem?_eq_getElem hj), (hbetween hj).1 ⟨hlos, by omega⟩⟩

/-- The classes of a set are those that its intervals touch, up to the end of the alphabet. -/
theorem mem_classesOf_iff_touched {cls : Nat} : cls ∈ (ofSets size sets).classesOf S ↔
    cls < (ofSets size sets).count ∧
      ∃ i ∈ S.intervals, i.lo < (size : Int) ∧ cls ∈ (ofSets size sets).touched i := by
  simp only [classesOf, List.mem_filter, List.mem_range, List.contains_iff_mem, List.mem_flatMap]
  refine and_congr_right fun _ => ⟨?_, ?_⟩
  · rintro ⟨i, hi, hcls⟩
    have hlt : i.lo < (size : Int) := by
      have := List.mem_takeWhile_imp hi
      exact of_decide_eq_true this
    exact ⟨i, List.takeWhile_subset _ hi, hlt, hcls⟩
  · rintro ⟨i, hi, hlt, hcls⟩
    exact ⟨i, mem_takeWhile_lt S.canonical hi hlt, hcls⟩

/-- The classes of a set are those of the segments that start in it. -/
theorem mem_classesOf (hS : S ∈ sets) {cls : Nat} : cls ∈ (ofSets size sets).classesOf S ↔
    cls < (ofSets size sets).count ∧ ∃ s ∈ segmentStarts size sets.eraseDups, s ∈ S ∧ s < size ∧
      cls = (signatures size sets).idxOf (signature sets.eraseDups s) := by
  have hstart : ∀ i ∈ S.intervals, i.lo < (size : Int) →
      i.lo ∈ segmentStarts size sets.eraseDups := by
    intro i hi hlt
    exact mem_segmentStarts.2
      (.inr ⟨S, List.mem_eraseDups.2 hS, mem_bounds.2 ⟨hlt, i, hi, .inl rfl⟩⟩)
  rw [mem_classesOf_iff_touched]
  refine and_congr_right fun _ => ⟨?_, ?_⟩
  · rintro ⟨i, hi, hlt, hcls⟩
    obtain ⟨s, hs, hlo, hhi, hsize, rfl⟩ := (mem_touched (hstart i hi hlt)).1 hcls
    exact ⟨s, hs, ⟨i, hi, hlo, hhi⟩, hsize, rfl⟩
  · rintro ⟨s, hs, ⟨i, hi, hlo, hhi⟩, hsize, rfl⟩
    have hlt : i.lo < (size : Int) := Int.lt_of_le_of_lt hlo hsize
    exact ⟨i, hi, hlt, (mem_touched (hstart i hi hlt)).2 ⟨s, hs, hlo, hhi, hsize, rfl⟩⟩

/-- **Within the alphabet, the class of a symbol belongs to a set just when the symbol does.** -/
theorem exists_classify_ofSets (hc : 0 ≤ c) (hcs : c < size) :
    ∃ cls, (ofSets size sets).classify c = some cls ∧ cls < (ofSets size sets).count ∧
      ∀ S ∈ sets, cls ∈ (ofSets size sets).classesOf S ↔ c ∈ S := by
  obtain ⟨s, hs, hsize, hsame, hclass⟩ := exists_start hc hcs
  have hcount := List.idxOf_lt_length_of_mem (signature_mem hs)
  refine ⟨_, hclass, hcount, fun S hS => ?_⟩
  rw [mem_classesOf hS, hsame S hS]
  constructor
  · rintro ⟨-, t, ht, htS, -, heq⟩
    -- segments of one class have one signature
    have hsig := (List.idxOf_inj (signature_mem hs)).1 heq
    have hcontains := List.map_inj_left.1 hsig S (List.mem_eraseDups.2 hS)
    rw [← CharSet.contains_iff, hcontains, CharSet.contains_iff]
    exact htS
  · exact fun hsS => ⟨hcount, s, hs, hsS, hsize, rfl⟩

end SymbolClasses

end LexParse
