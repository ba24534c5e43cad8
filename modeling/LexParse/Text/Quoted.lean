import LexParse.Text.Printable

/-!
# Quoted text

The written form of a text, a code point or a sequence of bytes as a literal. A literal stands
between single quotes, or between double quotes when the text holds a single quote and no double
one. The backslash and the delimiter are escaped by a backslash, line feed, carriage return and tab
by their letter, and every other code point that is not printable by its hexadecimal digits, two,
four or eight of them as needed.
-/

namespace LexParse.Text

/-- The lower case hexadecimal digits of a number, at least `width` of them. -/
def hexDigits (width n : Nat) : String :=
  let digits := Nat.toDigits 16 n
  String.ofList (List.replicate (width - digits.length) '0' ++ digits)

/-- The delimiter of a literal: the single quote, unless the text has one and has no double
quote. -/
def delimiter (codes : List Nat) : Char :=
  if codes.contains '\''.toNat && !codes.contains '"'.toNat then '"' else '\''

/-- One code point inside a literal. -/
def escapeCode (delim : Char) (code : Nat) : String :=
  if code = '\\'.toNat then "\\\\"
  else if code = delim.toNat then String.ofList ['\\', delim]
  else if code = '\n'.toNat then "\\n"
  else if code = '\r'.toNat then "\\r"
  else if code = '\t'.toNat then "\\t"
  else if isPrintable code then String.singleton (Char.ofNat code)
  else if code < 0x100 then "\\x" ++ hexDigits 2 code
  else if code < 0x10000 then "\\u" ++ hexDigits 4 code
  else "\\U" ++ hexDigits 8 code

/-- The literal of a sequence of code points. -/
def quotedCodes (codes : List Nat) : String :=
  let delim := delimiter codes
  String.singleton delim ++ String.join (codes.map (escapeCode delim)) ++ String.singleton delim

/-- The literal of a text. -/
def quoted (s : String) : String := quotedCodes (s.toList.map Char.toNat)

/-- One byte inside a literal of bytes: only ASCII is shown as it is. -/
def escapeByte (delim : Char) (code : Nat) : String :=
  if code < 0x80 then escapeCode delim code else "\\x" ++ hexDigits 2 code

/-- The literal of a sequence of bytes, marked by a leading `b`. -/
def quotedBytes (bytes : List UInt8) : String :=
  let codes := bytes.map UInt8.toNat
  let delim := delimiter codes
  "b" ++ String.singleton delim ++ String.join (codes.map (escapeByte delim)) ++
    String.singleton delim

end LexParse.Text
