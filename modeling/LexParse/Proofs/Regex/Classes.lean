import LexParse.Proofs.CharSet
import LexParse.Proofs.Regex.Notation
import Mathlib.Data.Set.Basic

/-!
# What character classes denote

The grammar of what may stand between the brackets of a class, with the values it denotes. A *unit*
is an escape or one character that is not `]`, `-` or a backslash. What an escape denotes is said
value by value, and not by the table it is read with. An item is a unit, or a range:
two units with one hyphen or more between them. Since no item begins with a hyphen, a unit with a
hyphen behind it starts a range. A class is any number of items, behind a `^` or not.

Classes are read in one pass over the text, with the last unit and whether a hyphen has been read
since as its state. `ClassState.Completes` says which texts lead from a state to the closing
bracket: items if no range is open, and otherwise the rest of the range and then items.

## What is proved

* `readInt?_lt`: a numeral is less than the power of the base by its length.
* `mem_escaped_iff`: the letters behind a backslash denote what they name.
* `readEscape_eq_ok_iff`: which escapes are read, what they denote, and what is left.
* `exists_completes_of_readItems`: what is read is of the grammar.
* `ClassItems.exists_readItems`: what is of the grammar is read.
* `readClass_classText`: which classes are accepted, what they denote, and what happens to the
  others.
-/

namespace LexParse.Text

/-! ### Numerals are bounded -/

variable {base : Base} {c : Char} {d acc m : Nat} {afterDigit : Bool} {s : List Char} {n : Int}

theorem decimalDigit?_lt (h : decimalDigit? c = some d) : d < 10 := by
  obtain ⟨z, hz, rfl⟩ := Option.map_eq_some_iff.1 h
  have hfound := List.find?_some hz
  simp only [Bool.and_eq_true, decide_eq_true_eq] at hfound
  omega

theorem Base.ten_le_radix (base : Base) : 10 ≤ base.radix := by cases base <;> decide

theorem Base.digit?_lt (h : base.digit? c = some d) : d < base.radix := by
  unfold Base.digit? at h
  split at h
  · rename_i e hdecimal
    cases h
    exact Nat.lt_of_lt_of_le (decimalDigit?_lt hdecimal) (Base.ten_le_radix _)
  · cases h
  · -- the letters of base sixteen
    simp only [Base.radix]
    split at h
    · rename_i hc
      have hle : c.toNat ≤ 'f'.toNat := hc.2
      cases h
      have : 'f'.toNat = 102 := rfl
      have : 'a'.toNat = 97 := rfl
      omega
    · split at h
      · rename_i hc
        have hle : c.toNat ≤ 'F'.toNat := hc.2
        cases h
        have : 'F'.toNat = 70 := rfl
        have : 'A'.toNat = 65 := rfl
        omega
      · cases h

/-- Each digit multiplies the bound of what has been read by the base. -/
theorem Base.digits?_lt (h : base.digits? acc afterDigit s = some m) :
    m < (acc + 1) * base.radix ^ s.length := by
  induction s generalizing acc afterDigit with
  | nil =>
    unfold Base.digits? at h
    split at h
    · cases h
      simp
    · cases h
  | cons c rest ih =>
    have hpow : base.radix ^ rest.length ≤ base.radix ^ rest.length * base.radix :=
      Nat.le_mul_of_pos_right _ (Nat.lt_of_lt_of_le (by decide) base.ten_le_radix)
    rw [List.length_cons, Nat.pow_succ]
    unfold Base.digits? at h
    split at h
    · split at h
      · exact Nat.lt_of_lt_of_le (ih h) (Nat.mul_le_mul_left _ hpow)
      · cases h
    · split at h
      · rename_i d hd
        have hdigit : acc * base.radix + d + 1 ≤ (acc + 1) * base.radix := by
          have := Base.digit?_lt hd
          rw [Nat.add_one_mul]
          omega
        calc m < (acc * base.radix + d + 1) * base.radix ^ rest.length := ih h
          _ ≤ (acc + 1) * base.radix * base.radix ^ rest.length := Nat.mul_le_mul_right _ hdigit
          _ = (acc + 1) * (base.radix ^ rest.length * base.radix) := by
            rw [Nat.mul_assoc, Nat.mul_comm base.radix]
      · cases h

theorem Base.length_dropMark_le : (base.dropMark s).length ≤ s.length := by
  unfold Base.dropMark
  split
  · split
    · split <;> simp <;> omega
    · exact Nat.le_refl _
  · exact Nat.le_refl _

theorem length_trimBoth_le (p : Char → Bool) (s : List Char) :
    (trimBoth p s).length ≤ s.length := by
  have hfirst := (List.dropWhile_suffix p : s.dropWhile p <:+ s).length_le
  have hlast := (List.dropWhile_suffix p :
    (s.dropWhile p).reverse.dropWhile p <:+ (s.dropWhile p).reverse).length_le
  rw [List.length_reverse] at hlast
  rw [trimBoth, List.length_reverse]
  omega

theorem Base.readDigits_lt (h : base.readDigits s = .ok m) : m < base.radix ^ s.length := by
  unfold Base.readDigits at h
  dsimp only at h
  split at h
  · cases h
  · cases h
  · rename_i k hdigits _
    split at h
    · cases h
      have hlt := Base.digits?_lt hdigits
      rw [Nat.zero_add, Nat.one_mul] at hlt
      exact Nat.lt_of_lt_of_le hlt
        (Nat.pow_le_pow_right (Nat.lt_of_lt_of_le (by decide) base.ten_le_radix)
          (List.takeWhile_sublist _).length_le)
    · cases h

/-- A numeral is less than the power of the base by its length. -/
theorem readInt?_lt (h : readInt? base s = some n) : n < (base.radix ^ s.length : Nat) := by
  have hdigits : ∀ {t : List Char} {m : Nat}, t.length ≤ s.length →
      base.readDigits (base.dropMark t) = .ok m → m < base.radix ^ s.length := by
    intro t m ht hm
    exact Nat.lt_of_lt_of_le (Base.readDigits_lt hm)
      (Nat.pow_le_pow_right (Nat.lt_of_lt_of_le (by decide) base.ten_le_radix)
        (Nat.le_trans Base.length_dropMark_le ht))
  have htrim := length_trimBoth_le isSpace s
  have h := toOption_eq_some_iff.1 h
  unfold readInt at h
  split at h
  · rename_i rest hs
    rw [hs] at htrim
    obtain ⟨m, hm, rfl⟩ := map_eq_ok_iff.1 h
    have := hdigits (Nat.le_of_succ_le htrim) hm
    omega
  · rename_i rest hs
    rw [hs] at htrim
    obtain ⟨m, hm, rfl⟩ := map_eq_ok_iff.1 h
    exact Int.ofNat_lt.2 (hdigits (Nat.le_of_succ_le htrim) hm)
  · obtain ⟨m, hm, rfl⟩ := map_eq_ok_iff.1 h
    exact Int.ofNat_lt.2 (hdigits htrim hm)

end LexParse.Text

namespace LexParse.Regex

variable {s rest u v w : List Char} {set unit : CharSet} {S T : Set Int} {lo : Int}
  {st st' : ClassState}

/-! ### Escapes -/

/-- The values from one to another, both included. -/
def valuesBetween (lo hi : Int) : Set Int := {k | lo ≤ k ∧ k ≤ hi}

@[simp] theorem mem_valuesBetween {lo hi k : Int} : k ∈ valuesBetween lo hi ↔ lo ≤ k ∧ k ≤ hi :=
  Iff.rfl

/-- The letters that name a set behind a backslash, and the values of the set. -/
inductive EscapeLetter : Char → Set Int → Prop where
  /-- The line feed. -/
  | lineFeed : EscapeLetter 'n' {0x0A}
  /-- The horizontal tab. -/
  | tab : EscapeLetter 't' {0x09}
  /-- The form feed. -/
  | formFeed : EscapeLetter 'f' {0x0C}
  /-- The vertical tab. -/
  | verticalTab : EscapeLetter 'v' {0x0B}
  /-- The carriage return. -/
  | carriageReturn : EscapeLetter 'r' {0x0D}
  /-- The space and the five controls above. -/
  | blanks : EscapeLetter 's' {0x20, 0x0A, 0x09, 0x0B, 0x0D, 0x0C}
  /-- The decimal digits. -/
  | digits : EscapeLetter 'd' (valuesBetween (codeOf '0') (codeOf '9'))
  /-- The letters, the decimal digits and the underscore. -/
  | wordCharacters : EscapeLetter 'w'
      (valuesBetween (codeOf 'a') (codeOf 'z') ∪ valuesBetween (codeOf 'A') (codeOf 'Z') ∪
        valuesBetween (codeOf '0') (codeOf '9') ∪ {codeOf '_'})

/-- What may follow the backslash of an escape, and the values that the escape denotes. -/
inductive Escape : List Char → Set Int → Prop where
  /-- A letter that names a set. -/
  | letter {c : Char} {S : Set Int} : EscapeLetter c S → Escape [c] S
  /-- Any other character but `x` stands for itself. -/
  | other {c : Char} : c ≠ 'x' → (∀ S, ¬ EscapeLetter c S) → Escape [c] {codeOf c}
  /-- An `x` with a numeral of two characters in base sixteen. -/
  | hex {a b : Char} {n : Nat} :
      Text.readInt? .hexadecimal [a, b] = some (n : Int) → Escape ['x', a, b] {(n : Int)}

theorem not_escapeLetter_x : ¬ EscapeLetter 'x' S := by
  intro h
  cases h

/-- The letters denote what they name. -/
theorem mem_escaped_iff {c : Char} (h : EscapeLetter c S) (k : Int) : k ∈ escaped c ↔ k ∈ S := by
  cases h with
  | lineFeed =>
    rw [show escaped 'n' = .single 0x0A by decide +kernel]
    exact CharSet.mem_single
  | tab =>
    rw [show escaped 't' = .single 0x09 by decide +kernel]
    exact CharSet.mem_single
  | formFeed => exact CharSet.mem_single
  | verticalTab => exact CharSet.mem_single
  | carriageReturn =>
    rw [show escaped 'r' = .single 0x0D by decide +kernel]
    exact CharSet.mem_single
  | blanks =>
    have hmem : k ∈ escaped 's' ↔ (0x09 ≤ k ∧ k ≤ 0x0D) ∨ (0x20 ≤ k ∧ k ≤ 0x20) := by
      simp [escaped, CharSet.mem_ofIntervals, Interval.Contains]
    rw [hmem]
    simp only [Set.mem_insert_iff, Set.mem_singleton_iff]
    omega
  | digits =>
    rw [show escaped 'd' = .range (codeOf '0') (codeOf '9') by decide +kernel]
    exact CharSet.mem_range
  | wordCharacters =>
    rw [show escaped 'w' = ((CharSet.range (codeOf 'a') (codeOf 'z')).union
      (.range (codeOf 'A') (codeOf 'Z'))).union
        ((CharSet.range (codeOf '0') (codeOf '9')).union (.single (codeOf '_')))
      by decide +kernel]
    simp only [CharSet.mem_union, CharSet.mem_range, CharSet.mem_single, Set.mem_union,
      mem_valuesBetween, Set.mem_singleton_iff, or_assoc]

/-- A character whose escape names no set stands for itself. -/
theorem escaped_of_forall_not {c : Char} (h : ∀ S, ¬ EscapeLetter c S) : escaped c = .ofChar c := by
  unfold escaped
  split
  case h_9 => rfl
  all_goals exact absurd (by constructor) (h _)

theorem hexEscaped_eq_ok_iff {a b : Char} : hexEscaped a b = .ok set ↔
    ∃ n : Nat, Text.readInt? .hexadecimal [a, b] = some (n : Int) ∧ set = .single n := by
  unfold hexEscaped
  constructor
  · intro h
    split at h
    · rename_i n hn
      split at h
      · rename_i hpos
        cases h
        exact ⟨n.toNat, by rw [hn, Int.toNat_of_nonneg hpos], by rw [Int.toNat_of_nonneg hpos]⟩
      · cases h
    · cases h
  · rintro ⟨n, hn, rfl⟩
    rw [hn]
    simp

theorem exists_escape {c : Char} (hc : c ≠ 'x') :
    ∃ S, Escape [c] S ∧ ∀ k, k ∈ escaped c ↔ k ∈ S := by
  by_cases h : ∃ S, EscapeLetter c S
  · obtain ⟨S, hS⟩ := h
    exact ⟨S, .letter hS, mem_escaped_iff hS⟩
  · have hnone := not_exists.1 h
    refine ⟨_, .other hc hnone, fun k => ?_⟩
    rw [escaped_of_forall_not hnone]
    exact CharSet.mem_single

/-- The text of an escape is read, and the values it denotes are those of the set. -/
theorem Escape.exists_readEscape (h : Escape u S) :
    ∃ set, (∀ rest, readEscape (u ++ rest) = .ok (set, rest)) ∧ ∀ c, c ∈ set ↔ c ∈ S := by
  cases h with
  | @letter c _ hS =>
    have hc : c ≠ 'x' := by
      rintro rfl
      exact not_escapeLetter_x hS
    exact ⟨escaped c, fun rest => by simp [readEscape, hc], mem_escaped_iff hS⟩
  | @other c hc hnone =>
    refine ⟨.ofChar c, fun rest => ?_, fun k => CharSet.mem_single⟩
    simp [readEscape, hc, escaped_of_forall_not hnone]
  | @hex a b n hn =>
    refine ⟨.single n, fun rest => ?_, fun k => CharSet.mem_single⟩
    have hhex := hexEscaped_eq_ok_iff.2 ⟨_, hn, rfl⟩
    simp only [List.cons_append, List.nil_append, readEscape, hhex]
    rfl

theorem readEscape_eq_ok_iff : readEscape s = .ok (set, rest) ↔
    ∃ u S, s = u ++ rest ∧ Escape u S ∧ ∀ c, c ∈ set ↔ c ∈ S := by
  constructor
  · intro h
    unfold readEscape at h
    split at h
    · cases h
    · rename_i a b after
      obtain ⟨hexSet, hhex, h⟩ := bind_eq_ok_iff.1 h
      cases h
      obtain ⟨n, hn, rfl⟩ := hexEscaped_eq_ok_iff.1 hhex
      exact ⟨['x', a, b], _, rfl, .hex hn, fun _ => CharSet.mem_single⟩
    · cases h
    · rename_i c after _ hx
      cases h
      obtain ⟨S, hS, hset⟩ := exists_escape (c := c) fun hc => hx hc
      exact ⟨[c], S, rfl, hS, hset⟩
  · rintro ⟨u, S, rfl, hu, hset⟩
    obtain ⟨set', hread, hset'⟩ := hu.exists_readEscape
    rw [hread, CharSet.ext_mem fun c => (hset' c).trans (hset c).symm]

theorem ofCodes_escaped (c : Char) : (escaped c).OfCodes := by
  unfold escaped
  split
  case h_3 | h_4 => exact CharSet.ofCodes_single (by decide)
  case h_6 => exact CharSet.ofCodes_ofIntervals (by decide)
  case h_9 => exact CharSet.ofCodes_ofChar c
  all_goals exact CharSet.ofCodes_ofString _

theorem Escape.isCode (h : Escape u S) {k : Int} (hk : k ∈ S) : IsCode k := by
  cases h with
  | letter hS => exact ofCodes_escaped _ k ((mem_escaped_iff hS k).2 hk)
  | other _ _ => exact hk ▸ CharSet.isCode_codeOf _
  | hex hn =>
    have hlt := Text.readInt?_lt hn
    rw [Set.mem_singleton_iff.1 hk]
    refine ⟨Int.natCast_nonneg _, ?_⟩
    simp only [Text.Base.radix, List.length_cons, List.length_nil, maxCode] at hlt ⊢
    omega

/-! ### The grammar of a class -/

/-- The text of a unit, and the values that the unit denotes. -/
inductive ClassUnit : List Char → Set Int → Prop where
  /-- A character that stands for itself. -/
  | plain {c : Char} : c ≠ ']' → c ≠ '-' → c ≠ '\\' → ClassUnit [c] {codeOf c}
  /-- An escape. -/
  | escape {u : List Char} {S : Set Int} : Escape u S → ClassUnit ('\\' :: u) S

/-- What stands behind the first unit of a range and its first hyphen: more hyphens or none, and the
second unit. Both units denote a single value, the second one no smaller than the first. -/
inductive RangeEnd (lo : Int) : List Char → Set Int → Prop where
  /-- The range from the value of the first unit to that of the second, both included. -/
  | mk (hyphens : Nat) {v : List Char} {hi : Int} :
      ClassUnit v {hi} → lo ≤ hi →
      RangeEnd lo (List.replicate hyphens '-' ++ v) (valuesBetween lo hi)

/-- The text of the items of a class, and the values that they denote. -/
inductive ClassItems : List Char → Set Int → Prop where
  /-- No items. -/
  | nil : ClassItems [] ∅
  /-- A unit that has no hyphen behind it, before other items. -/
  | unit {u v : List Char} {S T : Set Int} :
      ClassUnit u S → v.head? ≠ some '-' → ClassItems v T → ClassItems (u ++ v) (S ∪ T)
  /-- A range before other items. -/
  | range {u v w : List Char} {lo : Int} {S T : Set Int} :
      ClassUnit u {lo} → RangeEnd lo v S → ClassItems w T →
      ClassItems (u ++ '-' :: (v ++ w)) (S ∪ T)

/-- The text of a class up to its closing bracket, and the values that it denotes. -/
inductive ClassText : List Char → Set Int → Prop where
  /-- The values of the items. -/
  | items {u : List Char} {S : Set Int} : u.head? ≠ some '^' → ClassItems u S → ClassText u S
  /-- Behind a `^`, the code points that are no values of the items. -/
  | negated {u : List Char} {S : Set Int} :
      ClassItems u S → ClassText ('^' :: u) {c | IsCode c ∧ c ∉ S}

theorem ClassUnit.isCode (h : ClassUnit u S) {c : Int} (hc : c ∈ S) : IsCode c := by
  cases h with
  | plain _ _ _ => exact hc ▸ CharSet.isCode_codeOf _
  | escape hu => exact hu.isCode hc

theorem ClassUnit.head?_append_ne (h : ClassUnit u S) : (u ++ v).head? ≠ some '-' := by
  cases h with
  | plain _ hhyphen _ => simpa using hhyphen
  | escape _ => simp

/-- No item begins with a hyphen: a unit with a hyphen behind it can only start a range. -/
theorem ClassItems.head?_ne (h : ClassItems u S) : u.head? ≠ some '-' := by
  cases h with
  | nil => simp
  | unit hu _ _ => exact hu.head?_append_ne
  | range hu _ _ => exact hu.head?_append_ne

/-- The first unit of a range is one of its values. -/
theorem RangeEnd.mem_of_mem_single (h : RangeEnd lo v S) {c : Int} (hc : c ∈ CharSet.single lo) :
    c ∈ S := by
  cases h with
  | mk hyphens hlast hle =>
    rw [CharSet.mem_single.1 hc]
    exact ⟨Int.le_refl _, hle⟩

theorem RangeEnd.isCode (h : RangeEnd lo v S) (hlo : IsCode lo) {c : Int} (hc : c ∈ S) :
    IsCode c := by
  cases h with
  | mk hyphens hlast hle =>
    exact ⟨Int.le_trans hlo.1 hc.1, Int.le_trans hc.2 (hlast.isCode rfl).2⟩

/-- All values that items denote are code points. -/
theorem ClassItems.isCode (h : ClassItems u S) {c : Int} (hc : c ∈ S) : IsCode c := by
  induction h with
  | nil => cases hc
  | unit hu _ _ ih =>
    rcases hc with hc | hc
    · exact hu.isCode hc
    · exact ih hc
  | range hu hend _ ih =>
    rcases hc with hc | hc
    · exact hend.isCode (hu.isCode rfl) hc
    · exact ih hc

/-! ### Adding units -/

theorem add_eq_ok_iff : st.add unit = .ok st' ↔
    (st.inRange = false ∧
      st' = { set := st.set.union unit, last := some unit, inRange := false }) ∨
    (st.inRange = true ∧ ∃ lo hi, st.last = some (.single lo) ∧ unit = .single hi ∧ lo ≤ hi ∧
      st' = { set := st.set.union (.range lo hi), last := none, inRange := false }) := by
  unfold ClassState.add
  cases hrange : st.inRange with
  | false => simp [eq_comm]
  | true =>
    rw [if_pos rfl]
    constructor
    · intro h
      split at h
      · rename_i hi lo hunit hlast
        obtain ⟨first, hfirst, hlo⟩ := Option.bind_eq_some_iff.1 hlast
        obtain rfl := CharSet.single?_eq_some_iff.1 hlo
        split at h
        · rename_i hle
          cases h
          exact .inr ⟨rfl, lo, hi, hfirst, CharSet.single?_eq_some_iff.1 hunit, hle, rfl⟩
        · cases h
      · cases h
    · rintro (⟨h, -⟩ | ⟨-, lo, hi, hlast, rfl, hle, rfl⟩)
      · cases h
      · rw [hlast, Option.bind_some, CharSet.single?_single, CharSet.single?_single]
        simp [hle]

theorem add_of_inRange_eq_false (hrange : st.inRange = false) (unit : CharSet) :
    st.add unit = .ok { set := st.set.union unit, last := some unit, inRange := false } :=
  add_eq_ok_iff.2 (.inl ⟨hrange, rfl⟩)

/-! ### What is read is of the grammar -/

/-- The text leads from a state to the closing bracket, and adds the values to the class. -/
inductive ClassState.Completes (st : ClassState) : List Char → Set Int → Prop where
  /-- Items. -/
  | items {u : List Char} {S : Set Int} :
      st.inRange = false → ClassItems u S → st.Completes u S
  /-- A hyphen and the end of the range that the last unit starts, then items. -/
  | hyphen {lo : Int} {v w : List Char} {S T : Set Int} :
      st.inRange = false → st.last = some (.single lo) → RangeEnd lo v S → ClassItems w T →
      st.Completes ('-' :: (v ++ w)) (S ∪ T)
  /-- The end of the range that the last unit starts, then items. -/
  | rangeEnd {lo : Int} {v w : List Char} {S T : Set Int} :
      st.inRange = true → st.last = some (.single lo) → RangeEnd lo v S → ClassItems w T →
      st.Completes (v ++ w) (S ∪ T)

theorem RangeEnd.cons (h : RangeEnd lo v S) : RangeEnd lo ('-' :: v) S := by
  cases h with
  | mk hyphens hlast hle => exact .mk (hyphens + 1) hlast hle

/-- A hyphen before a text that completes an open range. -/
theorem ClassState.Completes.of_hyphen
    (h : ClassState.Completes { st with inRange := true } u S) : st.Completes ('-' :: u) S := by
  cases h with
  | items h | hyphen h => cases h
  | rangeEnd _ hlast hend hitems =>
    cases hrange : st.inRange with
    | false => exact .hyphen hrange hlast hend hitems
    | true => exact .rangeEnd hrange hlast hend.cons hitems

theorem ClassUnit.singleton (hu : ClassUnit u S) (hset : ∀ c, c ∈ CharSet.single lo ↔ c ∈ S) :
    ClassUnit u {lo} := by
  have hS : S = {lo} := Set.ext fun c => (hset c).symm.trans CharSet.mem_single
  rwa [← hS]

/-- A unit before a text that completes the state with the unit. -/
theorem ClassState.Completes.of_unit (hu : ClassUnit u S) (hset : ∀ c, c ∈ unit ↔ c ∈ S)
    (hadd : st.add unit = .ok st') (h : st'.Completes v T) :
    ∃ V, st.Completes (u ++ v) V ∧ ∀ c, c ∈ st'.set ∨ c ∈ T ↔ c ∈ st.set ∨ c ∈ V := by
  rcases add_eq_ok_iff.1 hadd with ⟨hrange, rfl⟩ | ⟨hrange, lo, hi, hlast, rfl, hle, rfl⟩
  · cases h with
    | items _ hitems =>
      refine ⟨_, .items hrange (.unit hu hitems.head?_ne hitems), fun c => ?_⟩
      simp only [CharSet.mem_union, hset, Set.mem_union, or_assoc]
    | hyphen _ hlast hend hitems =>
      cases hlast
      refine ⟨_, .items hrange (.range (hu.singleton hset) hend hitems), fun c => ?_⟩
      have hfirst : c ∈ CharSet.single _ → c ∈ _ := hend.mem_of_mem_single
      simp only [CharSet.mem_union, Set.mem_union]
      tauto
    | rangeEnd h => cases h
  · cases h with
    | items _ hitems =>
      have hend : RangeEnd lo u (valuesBetween lo hi) := .mk 0 (hu.singleton hset) hle
      refine ⟨_, .rangeEnd hrange hlast hend hitems, fun c => ?_⟩
      simp only [CharSet.mem_union, CharSet.mem_range, Set.mem_union, mem_valuesBetween, or_assoc]
    | hyphen _ hlast => cases hlast
    | rangeEnd h => cases h

/-- Where the items of a class are read, a text of the grammar has been read up to the closing
bracket. -/
theorem exists_completes_of_readItems (h : readItems st s = .ok (set, rest)) :
    ∃ u S, s = u ++ ']' :: rest ∧ st.Completes u S ∧ ∀ c, c ∈ set ↔ c ∈ st.set ∨ c ∈ S := by
  fun_induction readItems st s with
  | case1 | case2 | case4 | case6 | case7 | case9 => cases h
  | case3 st rest hrange =>
    cases h
    exact ⟨[], ∅, rfl, .items (by simpa using hrange) .nil, by simp⟩
  | case5 st after hlast ih =>
    obtain ⟨u, S, rfl, hu, hset⟩ := ih h
    exact ⟨'-' :: u, S, rfl, hu.of_hyphen, hset⟩
  | case8 st s unit after hread _ st' hadd ih =>
    obtain ⟨v, S, hs, hescape, hunit⟩ := readEscape_eq_ok_iff.1 hread
    obtain ⟨u, T, rfl, hu, hset⟩ := ih h
    obtain ⟨V, hV, hmem⟩ := hu.of_unit (.escape hescape) hunit hadd
    exact ⟨_, V, by simp [hs], hV, fun c => (hset c).trans (hmem c)⟩
  | case10 st c after hbracket hhyphen hbackslash st' hadd ih =>
    obtain ⟨u, T, rfl, hu, hset⟩ := ih h
    obtain ⟨V, hV, hmem⟩ :=
      hu.of_unit (.plain hbracket hhyphen hbackslash) (fun _ => CharSet.mem_single) hadd
    exact ⟨_, V, rfl, hV, fun c => (hset c).trans (hmem c)⟩

/-! ### What is of the grammar is read -/

/-- Some set has the values of a unit. -/
theorem ClassUnit.exists_set (h : ClassUnit u S) : ∃ set : CharSet, ∀ c, c ∈ set ↔ c ∈ S := by
  cases h with
  | @plain c _ _ _ => exact ⟨.ofChar c, fun _ => CharSet.mem_single⟩
  | escape hu =>
    obtain ⟨set, -, hset⟩ := hu.exists_readEscape
    exact ⟨set, hset⟩

/-- Reading a unit adds the set of its values to the state. -/
theorem readItems_unit (hu : ClassUnit u S) (hset : ∀ c, c ∈ unit ↔ c ∈ S)
    (hadd : st.add unit = .ok st') : readItems st (u ++ s) = readItems st' s := by
  cases hu with
  | plain hbracket hhyphen hbackslash =>
    obtain rfl := CharSet.eq_single_iff.2 hset
    rw [List.cons_append, List.nil_append, readItems, CharSet.ofChar, hadd]
    exacts [hbracket, hhyphen, hbackslash]
  | @escape u _ hescape =>
    have hread : readEscape (u ++ s) = .ok (unit, s) :=
      readEscape_eq_ok_iff.2 ⟨u, S, rfl, hescape, hset⟩
    rw [List.cons_append, readItems]
    split
    · rename_i fault hfault
      rw [hread] at hfault
      cases hfault
    · rename_i unit' after hok
      rw [hread] at hok
      cases hok
      rw [hadd]

theorem readItems_hyphen (hlast : st.last = some unit) :
    readItems st ('-' :: s) = readItems { st with inRange := true } s := by
  rw [readItems, if_neg (by simp [hlast])]

theorem readItems_hyphens (hlast : st.last = some unit) (hrange : st.inRange = true)
    (hyphens : Nat) : readItems st (List.replicate hyphens '-' ++ s) = readItems st s := by
  induction hyphens with
  | zero => rfl
  | succ hyphens ih =>
    rw [List.replicate_succ, List.cons_append, readItems_hyphen hlast, ← hrange, ih]

/-- Reading the end of an open range adds its values to the class. -/
theorem RangeEnd.readItems_eq (h : RangeEnd lo v S) (hlast : st.last = some (.single lo))
    (hrange : st.inRange = true) :
    ∃ st', st'.inRange = false ∧ (∀ c, c ∈ st'.set ↔ c ∈ st.set ∨ c ∈ S) ∧
      ∀ s, readItems st (v ++ s) = readItems st' s := by
  cases h with
  | @mk hyphens v hi hunit hle =>
    have hadd := add_eq_ok_iff.2 (.inr ⟨hrange, lo, hi, hlast, rfl, hle, rfl⟩)
    refine ⟨{ set := st.set.union (.range lo hi) }, rfl, fun c => ?_, fun s => ?_⟩
    · rw [CharSet.mem_union, CharSet.mem_range, mem_valuesBetween]
    · rw [List.append_assoc, readItems_hyphens hlast hrange,
        readItems_unit hunit (fun _ => CharSet.mem_single) hadd]

/-- Where no range is open, items are read up to the closing bracket, and their values are added to
the class. -/
theorem ClassItems.exists_readItems (h : ClassItems u S) (st : ClassState)
    (hrange : st.inRange = false) (rest : List Char) :
    ∃ set, readItems st (u ++ ']' :: rest) = .ok (set, rest) ∧
      ∀ c, c ∈ set ↔ c ∈ st.set ∨ c ∈ S := by
  induction h generalizing st with
  | nil => exact ⟨st.set, by simp [readItems, hrange], by simp⟩
  | @unit u v S T hu _ _ ih =>
    obtain ⟨unit, hunit⟩ := hu.exists_set
    obtain ⟨set, hread, hset⟩ := ih { set := st.set.union unit, last := some unit } rfl
    refine ⟨set, ?_, fun c => (hset c).trans ?_⟩
    · rw [List.append_assoc, readItems_unit hu hunit (add_of_inRange_eq_false hrange unit), hread]
    · simp only [CharSet.mem_union, hunit, Set.mem_union, or_assoc]
  | @range u v w lo S T hu hend _ ih =>
    let opened : ClassState :=
      { set := st.set.union (.single lo), last := some (.single lo), inRange := true }
    obtain ⟨st', hrange', hset', heq⟩ := hend.readItems_eq (rfl : opened.last = _) rfl
    obtain ⟨set, hread, hset⟩ := ih st' hrange'
    refine ⟨set, ?_, fun c => (hset c).trans ?_⟩
    · rw [List.append_assoc,
        readItems_unit hu (fun _ => CharSet.mem_single) (add_of_inRange_eq_false hrange _),
        List.cons_append, readItems_hyphen rfl, List.append_assoc, heq, hread]
    · have hfirst : c ∈ CharSet.single lo → c ∈ S := hend.mem_of_mem_single
      rw [hset', CharSet.mem_union, Set.mem_union]
      tauto

/-! ### Classes -/

theorem exists_items_of_readItems (h : readItems {} s = .ok (set, rest)) :
    ∃ u S, s = u ++ ']' :: rest ∧ ClassItems u S ∧ ∀ c, c ∈ set ↔ c ∈ S := by
  obtain ⟨u, S, hs, hu, hset⟩ := exists_completes_of_readItems h
  cases hu with
  | items _ hitems => exact ⟨u, S, hs, hitems, by simpa using hset⟩
  | hyphen _ hlast => cases hlast
  | rangeEnd h => cases h

theorem mem_complement_of_items (h : ClassItems u S) (hset : ∀ c, c ∈ set ↔ c ∈ S) (c : Int) :
    c ∈ set.complement ↔ IsCode c ∧ c ∉ S := by
  rw [CharSet.mem_complement_iff fun c hc => h.isCode ((hset c).1 hc), hset]

theorem readClass_of_head?_ne (h : s.head? ≠ some '^') : readClass s = readItems {} s := by
  unfold readClass
  split
  · exact absurd rfl h
  · rfl

theorem exists_classText_of_readClass (h : readClass s = .ok (set, rest)) :
    ∃ u S, s = u ++ ']' :: rest ∧ ClassText u S ∧ ∀ c, c ∈ set ↔ c ∈ S := by
  by_cases hcaret : s.head? = some '^'
  · obtain ⟨s, rfl⟩ := List.head?_eq_some_iff.1 hcaret
    cases hread : readItems {} s with
    | error fault =>
      rw [readClass, hread] at h
      cases h
    | ok items =>
      rw [readClass, hread] at h
      cases h
      obtain ⟨u, S, rfl, hu, hset⟩ := exists_items_of_readItems hread
      exact ⟨_, _, rfl, .negated hu, mem_complement_of_items hu hset⟩
  · rw [readClass_of_head?_ne hcaret] at h
    obtain ⟨u, S, rfl, hu, hset⟩ := exists_items_of_readItems h
    refine ⟨u, S, rfl, .items (fun hu => hcaret ?_) hu, hset⟩
    rw [List.head?_append, hu, Option.some_or]

theorem ClassText.exists_readClass (h : ClassText u S) (rest : List Char) :
    ∃ set, readClass (u ++ ']' :: rest) = .ok (set, rest) ∧ ∀ c, c ∈ set ↔ c ∈ S := by
  cases h with
  | items hcaret hu =>
    obtain ⟨set, hread, hset⟩ := hu.exists_readItems {} rfl rest
    refine ⟨set, ?_, by simpa using hset⟩
    rw [readClass_of_head?_ne, hread]
    cases u with
    | nil => simp
    | cons c u => simpa using hcaret
  | negated hu =>
    obtain ⟨set, hread, hset⟩ := hu.exists_readItems {} rfl rest
    refine ⟨set.complement, ?_, mem_complement_of_items hu (by simpa using hset)⟩
    rw [List.cons_append, readClass, hread]
    rfl

/-- **Character classes denote their items.** A class is accepted just when its text up to a closing
bracket is of the grammar. The set then has the values that this text denotes, and what is behind
the bracket is left. The class is refused, with a fault of the notation, just when no such text
stands at the front. -/
theorem readClass_classText (s : List Char) :
    (∀ set rest, readClass s = .ok (set, rest) ↔
      ∃ u S, s = u ++ ']' :: rest ∧ ClassText u S ∧ ∀ c, c ∈ set ↔ c ∈ S) ∧
    ((∃ fault, readClass s = .error fault ∧ fault.Syntactic) ↔
      ¬ ∃ u S rest, s = u ++ ']' :: rest ∧ ClassText u S) := by
  refine ⟨fun set rest => ⟨exists_classText_of_readClass, ?_⟩, ?_⟩
  · rintro ⟨u, S, rfl, hu, hset⟩
    obtain ⟨set', hread, hset'⟩ := hu.exists_readClass rest
    rw [hread, CharSet.ext_mem fun c => (hset' c).trans (hset c).symm]
  · constructor
    · rintro ⟨fault, hfault, -⟩ ⟨u, S, rest, rfl, hu⟩
      obtain ⟨set, hread, -⟩ := hu.exists_readClass rest
      rw [hread] at hfault
      cases hfault
    · intro hnone
      cases hread : readClass s with
      | error fault => exact ⟨fault, rfl, syntactic_of_readClass hread⟩
      | ok p =>
        obtain ⟨set, rest⟩ := p
        obtain ⟨u, S, hs, hu, -⟩ := exists_classText_of_readClass hread
        exact absurd ⟨u, S, rest, hs, hu⟩ hnone

/-- The class `[\n\da-c]` denotes the line feed, the digits and three letters. -/
theorem readClass_lineFeedDigitsLetters :
    ∃ set, readClass "\\n\\da-c]+".toList = .ok (set, ['+']) ∧
      ∀ k, k ∈ set ↔ k = 0x0A ∨ (0x30 ≤ k ∧ k ≤ 0x39) ∨ (0x61 ≤ k ∧ k ≤ 0x63) := by
  have hletters : ClassItems ['a', '-', 'c'] (valuesBetween 0x61 0x63 ∪ ∅) :=
    .range (u := ['a']) (v := ['c']) (.plain (by decide) (by decide) (by decide))
      (.mk 0 (.plain (by decide) (by decide) (by decide)) (by decide)) .nil
  have hdigits := ClassItems.unit (.escape (.letter .digits)) (by decide) hletters
  have hitems := ClassItems.unit (.escape (.letter .lineFeed)) (by decide) hdigits
  let set := (CharSet.single 0x0A).union ((CharSet.range 0x30 0x39).union (.range 0x61 0x63))
  have hset : ∀ k, k ∈ set ↔ k = 0x0A ∨ (0x30 ≤ k ∧ k ≤ 0x39) ∨ (0x61 ≤ k ∧ k ≤ 0x63) := by
    simp [set, CharSet.mem_union]
  refine ⟨set, ((readClass_classText _).1 _ _).2 ⟨_, _, rfl, .items (by decide) hitems, ?_⟩, hset⟩
  intro k
  rw [hset]
  simp [codeOf]

end LexParse.Regex
