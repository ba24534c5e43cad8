import LexParse.Regex.Basic

/-!
# The language of an expression

The words that an expression matches, by the shape of the expression. Words are lists of code
values, and what the named patterns match is a parameter, so that references need not be resolved.
The statements `matches_*_iff` say what a word of each shape looks like, and `matchesEmpty?_iff`
that the question about the empty word is answered rightly wherever it is answered.
-/

namespace LexParse.Regex

/-- A word is in the language of an expression, where `names` says what named patterns match. -/
inductive Matches (names : String → List Int → Prop) : Regex → List Int → Prop where
  /-- The empty expression matches the empty word. -/
  | empty : Matches names .empty []
  /-- A set matches each of its members. -/
  | chars {set : CharSet} {c : Int} : c ∈ set → Matches names (.chars set) [c]
  /-- A reference matches what its name does. -/
  | named {name : String} {w : List Int} : names name w → Matches names (.named name) w
  /-- A sequence matches a word of each part. -/
  | seq {a b : Regex} {u v : List Int} :
      Matches names a u → Matches names b v → Matches names (.seq a b) (u ++ v)
  /-- An alternative matches what its first part does. -/
  | altFirst {a b : Regex} {w : List Int} : Matches names a w → Matches names (.alt a b) w
  /-- An alternative matches what its second part does. -/
  | altSecond {a b : Regex} {w : List Int} : Matches names b w → Matches names (.alt a b) w
  /-- An option matches the empty word. -/
  | optNone {a : Regex} : Matches names (.opt a) []
  /-- An option matches what its body does. -/
  | optSome {a : Regex} {w : List Int} : Matches names a w → Matches names (.opt a) w
  /-- A repetition matches the empty word. -/
  | starNone {a : Regex} : Matches names (.star a) []
  /-- A repetition matches a word of its body before a word of itself. -/
  | starSome {a : Regex} {u v : List Int} :
      Matches names a u → Matches names (.star a) v → Matches names (.star a) (u ++ v)

variable {names : String → List Int → Prop}

/-! ### The words of each shape -/

theorem matches_empty_iff {w : List Int} : Matches names .empty w ↔ w = [] := by
  constructor
  · intro h
    cases h
    rfl
  · rintro rfl
    exact .empty

theorem matches_chars_iff {set : CharSet} {w : List Int} :
    Matches names (.chars set) w ↔ ∃ c ∈ set, w = [c] := by
  constructor
  · intro h
    cases h with
    | chars hc => exact ⟨_, hc, rfl⟩
  · rintro ⟨c, hc, rfl⟩
    exact .chars hc

theorem matches_named_iff {name : String} {w : List Int} :
    Matches names (.named name) w ↔ names name w := by
  constructor
  · intro h
    cases h with
    | named hw => exact hw
  · exact .named

theorem matches_seq_iff {a b : Regex} {w : List Int} :
    Matches names (.seq a b) w ↔ ∃ u v, w = u ++ v ∧ Matches names a u ∧ Matches names b v := by
  constructor
  · intro h
    cases h with
    | seq hu hv => exact ⟨_, _, rfl, hu, hv⟩
  · rintro ⟨u, v, rfl, hu, hv⟩
    exact .seq hu hv

theorem matches_alt_iff {a b : Regex} {w : List Int} :
    Matches names (.alt a b) w ↔ Matches names a w ∨ Matches names b w := by
  constructor
  · intro h
    cases h with
    | altFirst hw => exact .inl hw
    | altSecond hw => exact .inr hw
  · rintro (hw | hw)
    · exact .altFirst hw
    · exact .altSecond hw

theorem matches_opt_iff {a : Regex} {w : List Int} :
    Matches names (.opt a) w ↔ w = [] ∨ Matches names a w := by
  constructor
  · intro h
    cases h with
    | optNone => exact .inl rfl
    | optSome hw => exact .inr hw
  · rintro (rfl | hw)
    · exact .optNone
    · exact .optSome hw

theorem matches_star_iff {a : Regex} {w : List Int} :
    Matches names (.star a) w ↔
      w = [] ∨ ∃ u v, w = u ++ v ∧ Matches names a u ∧ Matches names (.star a) v := by
  constructor
  · intro h
    cases h with
    | starNone => exact .inl rfl
    | starSome hu hv => exact .inr ⟨_, _, rfl, hu, hv⟩
  · rintro (rfl | ⟨u, v, rfl, hu, hv⟩)
    · exact .starNone
    · exact .starSome hu hv

/-! ### The empty word -/

theorem matches_seq_nil_iff {a b : Regex} :
    Matches names (.seq a b) [] ↔ Matches names a [] ∧ Matches names b [] := by
  rw [matches_seq_iff]
  constructor
  · rintro ⟨u, v, h, hu, hv⟩
    obtain ⟨rfl, rfl⟩ := List.append_eq_nil_iff.1 h.symm
    exact ⟨hu, hv⟩
  · rintro ⟨ha, hb⟩
    exact ⟨[], [], rfl, ha, hb⟩

/-- Where it is answered without asking a reference, the question whether an expression matches the
empty word is answered rightly. -/
theorem matchesEmpty?_iff {r : Regex} {answer : Bool} (h : r.matchesEmpty? = some answer) :
    answer = true ↔ Matches names r [] := by
  induction r generalizing answer with
  | empty =>
    cases h
    simp [matches_empty_iff]
  | chars set =>
    cases h
    simp [matches_chars_iff]
  | named name => cases h
  | seq a b iha ihb =>
    rw [matches_seq_nil_iff]
    obtain ⟨first, ha, h⟩ := Option.bind_eq_some_iff.1 h
    have hfirst := iha ha
    cases first with
    | false =>
      -- the second part is not asked
      cases h
      simp only [Bool.false_eq_true, false_iff] at hfirst ⊢
      exact fun hab => hfirst hab.1
    | true =>
      have hsecond := ihb h
      simp only [true_iff] at hfirst
      simp [hsecond, hfirst]
  | alt a b iha ihb =>
    rw [matches_alt_iff]
    obtain ⟨first, ha, h⟩ := Option.bind_eq_some_iff.1 h
    have hfirst := iha ha
    cases first with
    | false =>
      have hsecond := ihb h
      simp only [Bool.false_eq_true, false_iff] at hfirst
      simp [hsecond, hfirst]
    | true =>
      cases h
      simp only [true_iff] at hfirst ⊢
      exact .inl hfirst
  | opt a _ =>
    cases h
    simp [matches_opt_iff]
  | star a _ =>
    cases h
    exact ⟨fun _ => .starNone, fun _ => rfl⟩

end LexParse.Regex
