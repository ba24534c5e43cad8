import LexParse.Regex.Language
import Mathlib.Algebra.BigOperators.Group.List.Defs
import Mathlib.Computability.Language

/-!
# Languages of expressions that are put together

An expression denotes a language, and each of its operations an operation on languages. Long chains
are joined two by two, which changes their shape and keeps their order; so what they denote is what
the same chain denotes joined from left to right, for each operation that is associative. A
repetition is a chain of copies, and denotes a range of powers.

## What is proved

* `map_balanced`, `apply_balanced`: balanced joining by any operation, and by an associative one.
* `wordsOf_seq`, `wordsOf_star` and so on: what the operations denote.
* `wordsOf_sequence`: a chain denotes the product of its items, in order.
* `wordsOf_repeated`: a repetition denotes the powers from its least to its greatest count.
-/

namespace LexParse.Regex

open scoped Computability

/-! ### Balanced joining -/

section balanced

variable {α β : Type} {join : α → α → α} {op : β → β → β} {f : α → β}

theorem map_pairUp (hjoin : ∀ a b, f (join a b) = op (f a) (f b)) :
    ∀ l : List α, (pairUp join l).map f = pairUp op (l.map f)
  | [] => rfl
  | [_] => rfl
  | a :: b :: rest => by simp only [pairUp, List.map_cons, hjoin, map_pairUp hjoin rest]

/-- Joining goes the same way for every operation. -/
theorem map_balanced (hjoin : ∀ a b, f (join a b) = op (f a) (f b)) (first : α) (rest : List α) :
    f (balanced join first rest) = balanced op (f first) (rest.map f) := by
  fun_induction balanced join first rest with
  | case1 first => rw [List.map_nil, balanced]
  | case2 first second rest ih => rw [ih, hjoin, map_pairUp hjoin, List.map_cons, balanced]

variable (op) [Std.Associative op]

/-- Joining neighbours does not change what a list comes to. -/
theorem foldl_pairUp (x : β) (l : List β) : (pairUp op l).foldl op x = l.foldl op x := by
  fun_induction pairUp op l generalizing x with
  | case1 a b rest ih =>
    simp only [List.foldl_cons, ih]
    exact congrArg (fun y => rest.foldl op y) (Std.Associative.assoc x a b).symm
  | case2 => rfl

/-- What is joined round by round comes to the same as what is joined from left to right. -/
theorem apply_balanced (hjoin : ∀ a b, f (join a b) = op (f a) (f b)) (first : α) (l : List α) :
    f (balanced join first l) = (l.map f).foldl op (f first) := by
  rw [map_balanced hjoin]
  generalize f first = x, l.map f = ys
  fun_induction balanced op x ys with
  | case1 x => rfl
  | case2 x y ys ih => rw [ih, foldl_pairUp, List.foldl_cons]

end balanced

/-! ### Operations -/

variable {names : String → List Int → Prop} {a b r : Regex} {w : List Int}

/-- The language of an expression, where `names` says what named patterns match. -/
def wordsOf (names : String → List Int → Prop) (r : Regex) : Language Int :=
  {w | Matches names r w}

theorem mem_wordsOf_iff : w ∈ wordsOf names r ↔ Matches names r w := Iff.rfl

@[simp] theorem wordsOf_empty : wordsOf names .empty = 1 :=
  Language.ext fun _ => matches_empty_iff.trans (Language.mem_one _).symm

@[simp] theorem wordsOf_seq :
    wordsOf names (.seq a b) = wordsOf names a * wordsOf names b := by
  ext w
  rw [mem_wordsOf_iff, matches_seq_iff, Language.mem_mul]
  constructor
  · rintro ⟨u, v, rfl, hu, hv⟩
    exact ⟨u, hu, v, hv, rfl⟩
  · rintro ⟨u, hu, v, hv, rfl⟩
    exact ⟨u, v, rfl, hu, hv⟩

@[simp] theorem wordsOf_alt :
    wordsOf names (.alt a b) = wordsOf names a + wordsOf names b :=
  Language.ext fun _ => matches_alt_iff.trans (Language.mem_add _ _ _).symm

@[simp] theorem wordsOf_opt : wordsOf names (.opt a) = 1 + wordsOf names a := by
  ext w
  rw [mem_wordsOf_iff, matches_opt_iff, Language.mem_add, Language.mem_one]
  rfl

@[simp] theorem wordsOf_star : wordsOf names (.star a) = (wordsOf names a)∗ := by
  ext w
  rw [mem_wordsOf_iff, Language.mem_kstar]
  constructor
  · intro h
    generalize hstar : Regex.star a = r at h
    induction h with
    | starNone => exact ⟨[], rfl, nofun⟩
    | @starSome a' u v hu _ _ ih =>
      obtain rfl := Regex.star.inj hstar
      obtain ⟨words, rfl, hwords⟩ := ih hstar
      exact ⟨u :: words, rfl, List.forall_mem_cons.2 ⟨hu, hwords⟩⟩
    | _ => cases hstar
  · rintro ⟨words, rfl, hwords⟩
    induction words with
    | nil => exact .starNone
    | cons u words ih =>
      obtain ⟨hu, hrest⟩ := List.forall_mem_cons.1 hwords
      exact .starSome hu (ih hrest)

/-- A chain denotes the product of its items, in order. -/
theorem wordsOf_sequence (items : List Regex) :
    wordsOf names (sequence items) = (items.map (wordsOf names)).prod := by
  cases items with
  | nil => exact wordsOf_empty
  | cons first rest =>
    rw [sequence, apply_balanced (· * ·) fun _ _ => wordsOf_seq, List.prod_eq_foldl,
      List.map_cons, List.foldl_cons, one_mul]

/-! ### Repetitions -/

/-- The powers of a language from a least one on, up to a greatest one if there is one. -/
def powers (l : Language Int) (least : Nat) (most : Option Nat) : Language Int :=
  {w | ∃ k, least ≤ k ∧ (∀ m ∈ most, k ≤ m) ∧ w ∈ l ^ k}

theorem mem_powers_iff {l : Language Int} {least : Nat} {most : Option Nat} :
    w ∈ powers l least most ↔ ∃ k, least ≤ k ∧ (∀ m ∈ most, k ≤ m) ∧ w ∈ l ^ k := Iff.rfl

variable {l : Language Int} {least n d : Nat}

theorem powers_none : powers l n none = l ^ n * l∗ := by
  ext w
  rw [mem_powers_iff, Language.kstar_eq_iSup_pow, Language.mul_iSup, Language.mem_iSup]
  constructor
  · rintro ⟨k, hk, -, hw⟩
    obtain ⟨i, rfl⟩ := Nat.exists_eq_add_of_le hk
    exact ⟨i, by rwa [← pow_add]⟩
  · rintro ⟨i, hw⟩
    exact ⟨n + i, Nat.le_add_right .., nofun, by rwa [pow_add]⟩

/-- Optional copies denote the powers up to their number. -/
theorem mem_one_add_pow_iff : w ∈ (1 + l) ^ d ↔ ∃ k ≤ d, w ∈ l ^ k := by
  induction d generalizing w with
  | zero => simp
  | succ d ih =>
    rw [pow_succ, mul_add, mul_one, Language.mem_add, ih]
    constructor
    · rintro (⟨k, hk, hw⟩ | hw)
      · exact ⟨k, Nat.le_succ_of_le hk, hw⟩
      · obtain ⟨u, hu, v, hv, rfl⟩ := Language.mem_mul.1 hw
        obtain ⟨k, hk, hu⟩ := ih.1 hu
        exact ⟨k + 1, Nat.succ_le_succ hk, by
          rw [pow_succ]
          exact Language.append_mem_mul hu hv⟩
    · rintro ⟨k, hk, hw⟩
      cases k with
      | zero => exact .inl ⟨0, Nat.zero_le d, hw⟩
      | succ k =>
        rw [pow_succ] at hw
        obtain ⟨u, hu, v, hv, rfl⟩ := Language.mem_mul.1 hw
        exact .inr (Language.append_mem_mul (ih.2 ⟨k, Nat.le_of_succ_le_succ hk, hu⟩) hv)

theorem powers_some : powers l n (some (n + d)) = l ^ n * (1 + l) ^ d := by
  ext w
  rw [mem_powers_iff, Language.mem_mul]
  constructor
  · rintro ⟨k, hk, hle, hw⟩
    obtain ⟨i, rfl⟩ := Nat.exists_eq_add_of_le hk
    have hi : i ≤ d := Nat.le_of_add_le_add_left (hle (n + d) rfl)
    rw [pow_add] at hw
    obtain ⟨u, hu, v, hv, rfl⟩ := Language.mem_mul.1 hw
    exact ⟨u, hu, v, mem_one_add_pow_iff.2 ⟨i, hi, hv⟩, rfl⟩
  · rintro ⟨u, hu, v, hv, rfl⟩
    obtain ⟨i, hi, hv⟩ := mem_one_add_pow_iff.1 hv
    refine ⟨n + i, Nat.le_add_right .., fun m hm => ?_, ?_⟩
    · cases hm
      exact Nat.add_le_add_left hi n
    · rw [pow_add]
      exact Language.append_mem_mul hu hv

/-- A repetition denotes the powers from its least to its greatest count. -/
theorem wordsOf_repeated {most : Option Nat} (h : ∀ m ∈ most, least ≤ m) :
    wordsOf names (r.repeated least most) = powers (wordsOf names r) least most := by
  cases most with
  | none =>
    rw [repeated, wordsOf_sequence, powers_none]
    simp
  | some m =>
    obtain ⟨d, rfl⟩ := Nat.exists_eq_add_of_le (h m rfl)
    rw [repeated, wordsOf_sequence, powers_some]
    simp

end LexParse.Regex
