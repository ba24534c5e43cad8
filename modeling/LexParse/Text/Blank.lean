/-!
# White space

Two classes of separating characters. `isSpace` is the White_Space property of the Unicode standard:
it may surround a numeral. `isBlank` adds the four information separators `0x1C` to `0x1F`: it is
what is stripped from an entry and what divides a list of names.
-/

namespace LexParse.Text

/-- The characters with the White_Space property. -/
def isSpace (c : Char) : Bool :=
  let n := c.toNat
  (0x09 ≤ n && n ≤ 0x0D) || n == 0x20 || n == 0x85 || n == 0xA0 || n == 0x1680 ||
    (0x2000 ≤ n && n ≤ 0x200A) || n == 0x2028 || n == 0x2029 || n == 0x202F || n == 0x205F ||
    n == 0x3000

/-- White space or one of the four information separators. -/
def isBlank (c : Char) : Bool :=
  isSpace c || (0x1C ≤ c.toNat && c.toNat ≤ 0x1F)

theorem isBlank_of_isSpace {c : Char} (h : isSpace c = true) : isBlank c = true := by
  simp [isBlank, h]

/-- Drop the characters of a class from both ends. -/
def trimBoth (p : Char → Bool) (s : List Char) : List Char :=
  ((s.dropWhile p).reverse.dropWhile p).reverse

/-- Drop the blanks at both ends. -/
def strip (s : List Char) : List Char := trimBoth isBlank s

/-- The longest runs of characters that are not blank, in order: `word` is the run being read, last
character first. -/
def wordsFrom (word : List Char) : List Char → List (List Char)
  | [] => if word.isEmpty then [] else [word.reverse]
  | c :: rest =>
    if isBlank c then
      if word.isEmpty then wordsFrom [] rest else word.reverse :: wordsFrom [] rest
    else wordsFrom (c :: word) rest

/-- The words of a text divided by blanks; no word is empty. -/
def words (s : String) : List String := (wordsFrom [] s.toList).map String.ofList

theorem ne_nil_of_mem_wordsFrom {word s w : List Char} (h : w ∈ wordsFrom word s) : w ≠ [] := by
  induction s generalizing word with
  | nil => cases word <;> simp_all [wordsFrom]
  | cons c rest ih =>
    rw [wordsFrom] at h
    split at h
    · cases word with
      | nil => exact ih (by simpa using h)
      | cons d word =>
        -- the run that the blank ends is not empty
        rcases List.mem_cons.1 (by simpa using h) with rfl | h
        · simp
        · exact ih h
    · exact ih h

end LexParse.Text
