import LexParse.Proofs.CharSet
import LexParse.Proofs.Regex.Phrases
import Mathlib.Data.Nat.Log

/-!
# Balanced joining

A list is joined in rounds. A round joins neighbours two by two and leaves an odd last item alone,
so that it halves the length, rounded up; the rounds end when one item is left. What they build is a
tree over the items, and the same one for every operation, which only says what the tree comes to.
So the rounds are followed where joining makes a pair and forgets nothing.

Keywords are joined in this way from single characters, and repetitions from copies of their body.
Products of languages are associative, so what is denoted does not depend on the tree, but on the
items and their order alone.

## What is proved

* `length_iterate_pairUp_le_one_iff`, `iterate_pairUp_eq`: after how many rounds one item is left,
  and which.
* `Joining.items_ofRounds`, `Joining.depth_ofRounds`, `Joining.value_ofRounds`: the tree of a list
  has its items in order and is as shallow as a tree of so many items can be, and every operation
  follows it.
* `wordsOf_literal`, `mem_wordsOf_repeated_iff`: what literals and repetitions denote.
* `balanced_joining`: all of this together, and when a repetition is made at all.
-/

namespace LexParse.Regex

variable {α : Type}

/-! ### Rounds -/

section rounds

variable {join : α → α → α} {k : Nat} {l : List α}

theorem length_pairUp (join : α → α → α) :
    ∀ l : List α, (pairUp join l).length = (l.length + 1) / 2
  | [] => by simp [pairUp]
  | [_] => by simp [pairUp]
  | a :: b :: rest => by
    rw [pairUp, List.length_cons, length_pairUp join rest]
    simp only [List.length_cons]
    omega

/-- Rounds come down to one item just if the items are not too many to be halved so often. -/
theorem length_iterate_pairUp_le_one_iff :
    ((pairUp join)^[k] l).length ≤ 1 ↔ l.length ≤ 2 ^ k := by
  induction k generalizing l with
  | zero => rfl
  | succ k ih =>
    rw [Function.iterate_succ_apply, ih, length_pairUp, Nat.pow_succ]
    omega

/-- What is left after enough rounds is the joined list. -/
theorem iterate_pairUp_eq {first : α} {rest : List α} (h : (first :: rest).length ≤ 2 ^ k) :
    (pairUp join)^[k] (first :: rest) = [balanced join first rest] := by
  -- the first round is taken off, as `balanced` does; the list that it leaves is another one
  induction k generalizing first rest with
  | zero =>
    obtain rfl : rest = [] := List.length_eq_zero_iff.1 (by simpa using h)
    rw [balanced]
    rfl
  | succ k ih =>
    rw [Function.iterate_succ_apply]
    cases rest with
    | nil => exact ih Nat.one_le_two_pow
    | cons second rest =>
      rw [balanced, pairUp]
      apply ih
      simp only [List.length_cons, length_pairUp, Nat.pow_succ] at h ⊢
      omega

end rounds

/-! ### The tree of a list -/

/-- A way to join items two by two. -/
inductive Joining (α : Type) where
  /-- An item alone. -/
  | item (a : α)
  /-- Two that are joined. -/
  | pair (first second : Joining α)

namespace Joining

/-- The items, from left to right. -/
def items : Joining α → List α
  | .item a => [a]
  | .pair s t => s.items ++ t.items

/-- The greatest number of joins around an item. -/
def depth : Joining α → Nat
  | .item _ => 0
  | .pair s t => max s.depth t.depth + 1

/-- What the items come to when they are joined by an operation. -/
def value (join : α → α → α) : Joining α → α
  | .item a => a
  | .pair s t => join (s.value join) (t.value join)

/-- The depth bounds how many items there are. -/
theorem length_items_le (t : Joining α) : t.items.length ≤ 2 ^ t.depth := by
  induction t with
  | item a => exact Nat.le_refl 1
  | pair s t hs ht =>
    have hsmax : 2 ^ s.depth ≤ 2 ^ max s.depth t.depth :=
      Nat.pow_le_pow_right (by decide) (Nat.le_max_left ..)
    have htmax : 2 ^ t.depth ≤ 2 ^ max s.depth t.depth :=
      Nat.pow_le_pow_right (by decide) (Nat.le_max_right ..)
    simp only [items, depth, List.length_append, Nat.pow_succ]
    omega

/-- A round makes a tree deeper by one join at most. -/
theorem depth_le_of_mem_pairUp {l : List (Joining α)} {d : Nat} (h : ∀ t ∈ l, t.depth ≤ d) :
    ∀ t ∈ pairUp .pair l, t.depth ≤ d + 1 := by
  fun_induction pairUp Joining.pair l with
  | case1 s t rest ih =>
    obtain ⟨hs, ht, hrest⟩ : s.depth ≤ d ∧ t.depth ≤ d ∧ ∀ t ∈ rest, t.depth ≤ d := by
      simpa using h
    apply List.forall_mem_cons.2 ⟨?_, ih hrest⟩
    simp only [depth]
    omega
  | case2 => exact fun t ht => Nat.le_succ_of_le (h t ht)

theorem depth_le_of_mem_iterate {l : List (Joining α)} {d k : Nat} (h : ∀ t ∈ l, t.depth ≤ d) :
    ∀ t ∈ (pairUp .pair)^[k] l, t.depth ≤ d + k := by
  induction k generalizing l d with
  | zero => exact h
  | succ k ih =>
    intro t ht
    rw [Function.iterate_succ_apply] at ht
    have := ih (depth_le_of_mem_pairUp h) t ht
    omega

/-- The way that a list is joined round by round. -/
def ofRounds (first : α) (rest : List α) : Joining α :=
  balanced .pair (item first) (rest.map item)

variable (first : α) (rest : List α)

/-- No item is lost, repeated or moved. -/
theorem items_ofRounds : (ofRounds first rest).items = first :: rest := by
  have hfold : (ofRounds first rest).items =
      ((rest.map .item).map items).foldl (fun l l' : List α => l ++ l') [first] :=
    apply_balanced (fun l l' : List α => l ++ l') (fun _ _ => rfl) (item first) (rest.map item)
  rw [hfold, List.map_map, List.foldl_map]
  exact List.foldl_append_eq_append.trans (congrArg (first :: ·) (List.flatMap_singleton' rest))

/-- The tree is as deep as there are rounds, and no way to join so many items is less deep. -/
theorem depth_ofRounds : (ofRounds first rest).depth = Nat.clog 2 (first :: rest).length := by
  apply Nat.le_antisymm
  · have hlength : (item first :: rest.map item).length ≤
        2 ^ Nat.clog 2 (first :: rest).length := by
      simpa using Nat.le_pow_clog Nat.one_lt_two (rest.length + 1)
    have hleft : ofRounds first rest ∈
        (pairUp pair)^[Nat.clog 2 (first :: rest).length] (item first :: rest.map item) := by
      rw [iterate_pairUp_eq hlength]
      exact List.mem_singleton.2 rfl
    have hflat : ∀ t ∈ item first :: rest.map item, t.depth ≤ 0 := by simp [depth]
    simpa using depth_le_of_mem_iterate hflat _ hleft
  · rw [← items_ofRounds first rest]
    exact Nat.clog_le_of_le_pow (length_items_le _)

/-- Every operation joins the list in the same way. -/
theorem value_ofRounds (join : α → α → α) :
    (ofRounds first rest).value join = balanced join first rest := by
  have hvalue : (ofRounds first rest).value join =
      balanced join first ((rest.map .item).map (value join)) :=
    map_balanced (fun _ _ => rfl) (item first) (rest.map item)
  rw [hvalue, List.map_map]
  exact congrArg (balanced join first) (List.map_id rest)

end Joining

/-! ### Literals -/

variable {names : String → List Int → Prop}

theorem wordsOf_chars_single (c : Int) : wordsOf names (.chars (.single c)) = {[c]} := by
  ext w
  rw [mem_wordsOf_iff, matches_chars_iff]
  simp only [CharSet.mem_single, exists_eq_left]
  exact Iff.rfl

/-- A chain of single characters denotes one word. -/
theorem wordsOf_sequence_single (codes : List Int) :
    wordsOf names (sequence (codes.map fun c => .chars (.single c))) = {codes} := by
  rw [wordsOf_sequence, List.map_map]
  induction codes with
  | nil => rfl
  | cons c codes ih =>
    rw [List.map_cons, List.prod_cons, ih, Function.comp_apply, wordsOf_chars_single]
    exact Set.image2_singleton

/-- A literal denotes its text. -/
theorem wordsOf_literal (text : List Char) :
    wordsOf names (literal text) = {text.map codeOf} := by
  rw [← wordsOf_sequence_single, List.map_map]
  rfl

/-! ### Repetitions -/

theorem mem_wordsOf_repeated_iff {r : Regex} {n m : Nat} {w : List Int} (h : n ≤ m) :
    w ∈ wordsOf names (r.repeated n (some m)) ↔ ∃ k, n ≤ k ∧ k ≤ m ∧ w ∈ wordsOf names r ^ k := by
  rw [wordsOf_repeated (by simpa using h), mem_powers_iff]
  simp

theorem applyCounts_of_fits {room : Nat} {r : Regex} {n m : Nat} (h : n ≤ m)
    (hfits : Fits room n (some m)) :
    applyCounts room r [some n, some m] = .ok (r.repeated n (some m)) := by
  rw [applyCounts_eq (.between h)]
  exact repeatWithin_eq_ok_iff.2 ⟨hfits, rfl⟩

theorem exists_exceeds_of_not_fits {room : Nat} {r : Regex} {n m : Nat} (h : n ≤ m)
    (hfits : ¬ Fits room n (some m)) :
    ∃ fault, applyCounts room r [some n, some m] = .error fault ∧
      Exceeds room n (some m) fault := by
  rw [applyCounts_eq (.between h)]
  cases hresult : repeatWithin room r n (some m) with
  | ok r' => exact absurd (repeatWithin_eq_ok_iff.1 hresult).1 hfits
  | error fault => exact ⟨fault, rfl, repeatWithin_eq_error hresult⟩

/-! ### What joined lists come to -/

/-- **Joining keeps the order and stays shallow.** A list is joined along one tree, whatever the
operation is: its leaves are the items in their order, its depth is the binary logarithm of their
number, rounded up, and so many rounds are made, all of them on more than one item. So a literal
denotes its text alone, and a repetition from `n` to `m` times the powers from `n` to `m`. However
much room there is, the repetition is made just if its parts can be. -/
theorem balanced_joining :
    (∀ {α : Type} (first : α) (rest : List α), ∃ t : Joining α,
      t.items = first :: rest ∧ t.depth = Nat.clog 2 (first :: rest).length ∧
      ∀ join : α → α → α, joinAll? join (first :: rest) = some (t.value join) ∧
        (pairUp join)^[t.depth] (first :: rest) = [t.value join] ∧
        ∀ k < t.depth, 1 < ((pairUp join)^[k] (first :: rest)).length) ∧
    (∀ names text, wordsOf names (literal text) = {text.map codeOf}) ∧
    ∀ (names : String → List Int → Prop) (r : Regex) (n m : Nat), n ≤ m →
      (∀ w, w ∈ wordsOf names (r.repeated n (some m)) ↔
        ∃ k, n ≤ k ∧ k ≤ m ∧ w ∈ wordsOf names r ^ k) ∧
      ∀ room,
        (Fits room n (some m) →
          applyCounts room r [some n, some m] = .ok (r.repeated n (some m))) ∧
        (¬ Fits room n (some m) → ∃ fault,
          applyCounts room r [some n, some m] = .error fault ∧
            Exceeds room n (some m) fault) := by
  refine ⟨fun first rest => ⟨.ofRounds first rest, ?_, ?_, fun join => ⟨?_, ?_, fun k hk => ?_⟩⟩,
    ?_, fun names r n m h => ⟨fun w => ?_, fun room => ⟨?_, ?_⟩⟩⟩
  · exact Joining.items_ofRounds first rest
  · exact Joining.depth_ofRounds first rest
  · rw [Joining.value_ofRounds, joinAll?]
  · rw [Joining.value_ofRounds, Joining.depth_ofRounds]
    exact iterate_pairUp_eq (Nat.le_pow_clog Nat.one_lt_two _)
  · rw [Joining.depth_ofRounds] at hk
    have hlength : ¬ (first :: rest).length ≤ 2 ^ k := Nat.not_le.2 (Nat.pow_lt_of_lt_clog hk)
    exact Nat.not_le.1 (length_iterate_pairUp_le_one_iff.not.2 hlength)
  · exact fun names text => wordsOf_literal text
  · exact mem_wordsOf_repeated_iff h
  · exact applyCounts_of_fits h
  · exact exists_exceeds_of_not_fits h

/-- Five items are joined in three rounds. With room for three parts, two or three letters are made,
and more than can be counted are refused. A keyword matches its three letters. -/
theorem balanced_joining_twoOrThree :
    (∃ t : Joining Nat, t.items = [1, 2, 3, 4, 5] ∧ t.depth = 3) ∧
    2 ≤ 3 ∧ Fits 3 2 (some 3) ∧ ¬ Fits 3 9223372036854775808 (some 9223372036854775808) ∧
    applyCounts 3 (.chars (.range 97 122)) [some 2, some 3] =
      .ok ((Regex.chars (.range 97 122)).repeated 2 (some 3)) ∧
    (∃ fault, applyCounts 3 (.chars (.range 97 122))
      [some 9223372036854775808, some 9223372036854775808] = .error fault) ∧
    [101, 110, 100] ∈ wordsOf (fun _ _ => False) (literal ['e', 'n', 'd']) := by
  obtain ⟨hjoined, hliteral, hrepeated⟩ := balanced_joining
  obtain ⟨t, hitems, hdepth, -⟩ := hjoined 1 [2, 3, 4, 5]
  have hrounds : Nat.clog 2 [1, 2, 3, 4, 5].length = 3 := by decide
  have hfits : Fits 3 2 (some 3) := ⟨by decide, by decide⟩
  have hunfit : ¬ Fits 3 9223372036854775808 (some 9223372036854775808) :=
    fun h => absurd h.1 (by decide)
  obtain ⟨-, hmade⟩ := hrepeated (fun _ _ => False) (.chars (.range 97 122)) 2 3 (by decide)
  obtain ⟨-, hrefused⟩ := hrepeated (fun _ _ => False) (.chars (.range 97 122))
    9223372036854775808 9223372036854775808 (Nat.le_refl _)
  obtain ⟨fault, hfault, -⟩ := (hrefused 3).2 hunfit
  refine ⟨⟨t, hitems, hdepth.trans hrounds⟩, by decide, hfits, hunfit, (hmade 3).1 hfits,
    ⟨fault, hfault⟩, ?_⟩
  rw [hliteral]
  rfl

/-- **A repetition whose copies cannot be counted is refused**, though its counts are in order, and
a pattern that has one is refused with it, however much room there is. -/
theorem applyCounts_uncountable :
    (∀ room, applyCounts room (.chars (.ofChar 'a'))
      [some 9223372036854775808, some 9223372036854775808] = .error .countTooLarge) ∧
    (∀ room, parse room "a{9223372036854775808,9223372036854775808}" = .error .countTooLarge) ∧
    ∀ room, ¬ ∀ (r : Regex) (n m : Nat), n ≤ m →
      ∃ r', applyCounts room r [some n, some m] = .ok r' := by
  have hrefused : ∀ room, applyCounts room (.chars (.ofChar 'a'))
      [some 9223372036854775808, some 9223372036854775808] = .error .countTooLarge :=
    fun _ => rfl
  have htokens : tokens "a{9223372036854775808,9223372036854775808}".toList =
      .ok [.chars (.ofChar 'a'),
        .repetition [some 9223372036854775808, some 9223372036854775808]] := by decide +kernel
  refine ⟨hrefused, fun room => ?_, fun room hmade => ?_⟩
  · rw [parse, htokens]
    rfl
  · obtain ⟨r', hr'⟩ := hmade (.chars (.ofChar 'a')) 9223372036854775808 9223372036854775808
      (Nat.le_refl _)
    cases (hrefused room).symm.trans hr'

end LexParse.Regex
