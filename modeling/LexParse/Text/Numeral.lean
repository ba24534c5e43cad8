import LexParse.Text.Blank

/-!
# Integer numerals

Reading an integer in base ten or sixteen. White space around the numeral is ignored; then come an
optional sign, in base sixteen an optional `0x`, and digits, where one underscore may stand between
two digits and one after the `0x`. A decimal digit is any character of the Unicode class Nd,
whatever its script; the letters of base sixteen are ASCII.

In base ten the time that reading takes is not linear in the number of digits, so that number is
bounded. Zeros in front count as well, underscores do not.
-/

namespace LexParse.Text

/-- The zeros of the scripts that have decimal digits: the digits of a script follow its zero. -/
def zeroDigits : List Nat := [
  0x30, 0x660, 0x6F0, 0x7C0, 0x966, 0x9E6, 0xA66, 0xAE6, 0xB66, 0xBE6, 0xC66, 0xCE6, 0xD66,
  0xDE6, 0xE50, 0xED0, 0xF20, 0x1040, 0x1090, 0x17E0, 0x1810, 0x1946, 0x19D0, 0x1A80, 0x1A90,
  0x1B50, 0x1BB0, 0x1C40, 0x1C50, 0xA620, 0xA8D0, 0xA900, 0xA9D0, 0xA9F0, 0xAA50, 0xABF0, 0xFF10,
  0x104A0, 0x10D30, 0x11066, 0x110F0, 0x11136, 0x111D0, 0x112F0, 0x11450, 0x114D0, 0x11650,
  0x116C0, 0x11730, 0x118E0, 0x11950, 0x11C50, 0x11D50, 0x11DA0, 0x16A60, 0x16AC0, 0x16B50,
  0x1D7CE, 0x1D7D8, 0x1D7E2, 0x1D7EC, 0x1D7F6, 0x1E140, 0x1E2F0, 0x1E950, 0x1FBF0]

/-- The value of a decimal digit of any script. -/
def decimalDigit? (c : Char) : Option Nat :=
  (zeroDigits.find? fun z => z ≤ c.toNat && c.toNat ≤ z + 9).map (c.toNat - ·)

/-- The bases a numeral can be read in. -/
inductive Base where
  /-- Base ten. -/
  | decimal
  /-- Base sixteen. -/
  | hexadecimal
deriving DecidableEq, Repr

/-- The number of digits of the base. -/
def Base.radix : Base → Nat
  | .decimal => 10
  | .hexadecimal => 16

/-- The value of a digit in the base. -/
def Base.digit? (base : Base) (c : Char) : Option Nat :=
  match decimalDigit? c, base with
  | some d, _ => some d
  | none, .decimal => none
  | none, .hexadecimal =>
    if 'a' ≤ c ∧ c ≤ 'f' then some (c.toNat - 'a'.toNat + 10)
    else if 'A' ≤ c ∧ c ≤ 'F' then some (c.toNat - 'A'.toNat + 10)
    else none

/-- Read digits with single underscores between them. `acc` is the value read so far, and
`afterDigit` says whether the last character was a digit: only there may an underscore or the end
stand. -/
def Base.digits? (base : Base) (acc : Nat) (afterDigit : Bool) : List Char → Option Nat
  | [] => if afterDigit then some acc else none
  | c :: rest =>
    if c = '_' then
      if afterDigit then base.digits? acc false rest else none
    else
      match base.digit? c with
      | some d => base.digits? (acc * base.radix + d) true rest
      | none => none

/-- Drop the mark of base sixteen, and one underscore after it. -/
def Base.dropMark (base : Base) (s : List Char) : List Char :=
  match base, s with
  | .hexadecimal, z :: x :: rest =>
    if decimalDigit? z = some 0 ∧ (x = 'x' ∨ x = 'X') then
      match rest with
      | '_' :: rest => rest
      | rest => rest
    else s
  | _, s => s

/-- The most digits that a numeral may have, where there is a bound. -/
def Base.digitLimit? : Base → Option Nat
  | .decimal => some 4300
  | .hexadecimal => none

/-- The character may stand among the digits of a numeral. -/
def Base.isNumeralChar (base : Base) (c : Char) : Bool := c == '_' || (base.digit? c).isSome

/-- Why a text is not read as an integer. -/
inductive NumeralFault where
  /-- It is no numeral. -/
  | invalid
  /-- It has more digits than a numeral may have. -/
  | tooLong (limit digits : Nat)
deriving DecidableEq, Repr

/-- Read the digits of a numeral. Their number is looked at before what stands behind them. -/
def Base.readDigits (base : Base) (s : List Char) : Except NumeralFault Nat :=
  let run := s.takeWhile base.isNumeralChar
  let count := run.countP (· != '_')
  match base.digits? 0 false run, base.digitLimit?.filter (· < count) with
  | none, _ => .error .invalid
  | some _, some limit => .error (.tooLong limit count)
  | some n, none => if (s.dropWhile base.isNumeralChar).isEmpty then .ok n else .error .invalid

/-- Read an integer numeral. -/
def readInt (base : Base) (s : List Char) : Except NumeralFault Int :=
  match trimBoth isSpace s with
  | '-' :: rest => (base.readDigits (base.dropMark rest)).map fun n : Nat => -(n : Int)
  | '+' :: rest => (base.readDigits (base.dropMark rest)).map Int.ofNat
  | rest => (base.readDigits (base.dropMark rest)).map Int.ofNat

/-- The integer of a numeral, if a text is one. -/
def readInt? (base : Base) (s : List Char) : Option Int := (readInt base s).toOption

example : readInt? .decimal " -1_000 ".toList = some (-1000) := by decide +kernel
example : readInt? .decimal "1__0".toList = none := by decide +kernel
example : readInt? .hexadecimal "0x_1F".toList = some 31 := by decide +kernel
example : readInt? .hexadecimal "0x".toList = none := by decide +kernel
example : readInt? .decimal (List.replicate 4299 '0' ++ ['_', '7']) = some 7 := by decide +kernel
example : readInt? .decimal (List.replicate 4300 '0' ++ ['_', '7']) = none := by decide +kernel

end LexParse.Text
