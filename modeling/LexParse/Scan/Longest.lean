import LexParse.Regex.Language
import LexParse.Scan.Table

/-!
# The longest match

What a scanner is to find, said without a table: at the start of a text, the longest non-empty run
of symbols of the alphabet that some rule matches, and the first rule that matches it.
-/

namespace LexParse

/-- A rule of the list matches the first `n` characters of a text. They are at least one, and
symbols of the alphabet. -/
structure IsMatch (alphabet : Alphabet) (rules : List ScanRule) (text : List Char) (n rule : Nat) :
    Prop where
  pos : 0 < n
  le_length : n ≤ text.length
  symbols : ∀ c ∈ text.take n, alphabet.contains (codeOf c) = true
  matched : ∃ r, rules[rule]? = some r ∧
    r.pattern.Matches (fun _ _ => False) ((text.take n).map codeOf)

/-- A match that no other one is longer than, by the first rule that makes it. -/
structure IsLongest (alphabet : Alphabet) (rules : List ScanRule) (text : List Char)
    (n rule : Nat) : Prop where
  isMatch : IsMatch alphabet rules text n rule
  length_le : ∀ m other, IsMatch alphabet rules text m other → m ≤ n
  rule_le : ∀ other, IsMatch alphabet rules text n other → rule ≤ other

/-- There is at most one longest match. -/
theorem IsLongest.unique {alphabet : Alphabet} {rules : List ScanRule} {text : List Char}
    {n m i j : Nat} (h : IsLongest alphabet rules text n i)
    (k : IsLongest alphabet rules text m j) : n = m ∧ i = j := by
  obtain rfl : n = m := Nat.le_antisymm (k.length_le _ _ h.isMatch) (h.length_le _ _ k.isMatch)
  exact ⟨rfl, Nat.le_antisymm (h.rule_le _ k.isMatch) (k.rule_le _ h.isMatch)⟩

end LexParse
