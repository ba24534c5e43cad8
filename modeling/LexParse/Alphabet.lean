import LexParse.Text.Decode

/-!
# Input alphabets

A scanner reads either bytes or code points. The alphabet fixes how many symbols there are and how
byte input is decoded to them.
-/

namespace LexParse

/-- The alphabets a scanner can be built over. -/
inductive Alphabet where
  /-- The byte values, `0` to `255`. -/
  | bytes
  /-- All code points. -/
  | unicode
deriving DecidableEq, Repr

namespace Alphabet

/-- The number of symbols; they are the values below it. -/
def size : Alphabet → Nat
  | .bytes => 256
  | .unicode => 0x110000

/-- The name of an alphabet. -/
def name : Alphabet → String
  | .bytes => "bytes"
  | .unicode => "unicode"

/-- The alphabet of a name. -/
def ofName? : String → Option Alphabet
  | "bytes" => some .bytes
  | "unicode" => some .unicode
  | _ => none

/-- The encoding byte input has unless another one is given. -/
def encoding : Alphabet → Text.Encoding
  | .bytes => .latin1
  | .unicode => .utf8

/-- Whether a code value is a symbol of the alphabet. -/
def contains (a : Alphabet) (c : Int) : Bool := 0 ≤ c && c < a.size

theorem size_pos (a : Alphabet) : 0 < a.size := by cases a <;> decide

theorem ofName?_name (a : Alphabet) : ofName? a.name = some a := by cases a <;> rfl

end Alphabet

end LexParse
