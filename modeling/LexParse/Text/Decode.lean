/-!
# Decoding bytes

Three encodings of text. A sequence that is no character is reported by the offsets of its first
byte and of the byte after its last one. In UTF-8 these delimit the longest prefix of the sequence
that could still have become a character, and at least one byte.
-/

namespace LexParse.Text

/-- The encodings of byte input. -/
inductive Encoding where
  /-- Every byte is the code point of the same value. -/
  | latin1
  /-- UTF-8, shortest forms only and no surrogates. -/
  | utf8
  /-- The bytes below `0x80`. -/
  | ascii
deriving DecidableEq, Repr

/-- The name of an encoding. -/
def Encoding.name : Encoding → String
  | .latin1 => "latin-1"
  | .utf8 => "utf-8"
  | .ascii => "ascii"

/-- The encoding of a name. -/
def Encoding.ofName? : String → Option Encoding
  | "latin-1" => some .latin1
  | "utf-8" => some .utf8
  | "ascii" => some .ascii
  | _ => none

/-- Bytes that are no character: those from `start` up to, not including, `stop`. `before` is the
text decoded up to them. -/
structure DecodeFault where
  /-- The text before the fault. -/
  before : List Char
  /-- The offset of the first byte at fault. -/
  start : Nat
  /-- The offset after the last byte at fault. -/
  stop : Nat
deriving Repr

/-- The byte continues a UTF-8 sequence. -/
def isContinuation (b : UInt8) : Bool := 0x80 ≤ b && b ≤ 0xBF

/-- The second byte may follow the first byte of a sequence of three. -/
def isSecondOfThree (first second : UInt8) : Bool :=
  (if first = 0xE0 then 0xA0 else 0x80) ≤ second && second ≤ (if first = 0xED then 0x9F else 0xBF)

/-- The second byte may follow the first byte of a sequence of four. -/
def isSecondOfFour (first second : UInt8) : Bool :=
  (if first = 0xF0 then 0x90 else 0x80) ≤ second && second ≤ (if first = 0xF4 then 0x8F else 0xBF)

/-- The character whose bits are the given low bits of a first byte, followed by six bits of each
continuation byte. -/
def assemble (first : Nat) (rest : List UInt8) : Char :=
  Char.ofNat (rest.foldl (fun acc b => acc * 64 + (b.toNat - 0x80)) first)

/-- Decode UTF-8. `seen` are the characters decoded so far, last one first, and `offset` is the
offset of the next byte. -/
def decodeUtf8 (seen : List Char) (offset : Nat) : List UInt8 → Except DecodeFault (List Char)
  | [] => .ok seen.reverse
  | a :: rest =>
    let fault (n : Nat) : Except DecodeFault (List Char) :=
      .error { before := seen.reverse, start := offset, stop := offset + n }
    if a < 0x80 then decodeUtf8 (Char.ofNat a.toNat :: seen) (offset + 1) rest
    else if 0xC2 ≤ a && a ≤ 0xDF then
      match rest with
      | b :: rest =>
        if isContinuation b then
          decodeUtf8 (assemble (a.toNat - 0xC0) [b] :: seen) (offset + 2) rest
        else fault 1
      | [] => fault 1
    else if 0xE0 ≤ a && a ≤ 0xEF then
      match rest with
      | b :: rest =>
        if isSecondOfThree a b then
          match rest with
          | c :: rest =>
            if isContinuation c then
              decodeUtf8 (assemble (a.toNat - 0xE0) [b, c] :: seen) (offset + 3) rest
            else fault 2
          | [] => fault 2
        else fault 1
      | [] => fault 1
    else if 0xF0 ≤ a && a ≤ 0xF4 then
      match rest with
      | b :: rest =>
        if isSecondOfFour a b then
          match rest with
          | c :: rest =>
            if isContinuation c then
              match rest with
              | d :: rest =>
                if isContinuation d then
                  decodeUtf8 (assemble (a.toNat - 0xF0) [b, c, d] :: seen) (offset + 4) rest
                else fault 3
              | [] => fault 3
            else fault 2
          | [] => fault 2
        else fault 1
      | [] => fault 1
    else fault 1

/-- Decode ASCII, with the same accumulators as `decodeUtf8`. -/
def decodeAscii (seen : List Char) (offset : Nat) : List UInt8 → Except DecodeFault (List Char)
  | [] => .ok seen.reverse
  | a :: rest =>
    if a < 0x80 then decodeAscii (Char.ofNat a.toNat :: seen) (offset + 1) rest
    else .error { before := seen.reverse, start := offset, stop := offset + 1 }

/-- Decode bytes to text. -/
def Encoding.decode : Encoding → List UInt8 → Except DecodeFault (List Char)
  | .latin1, bytes => .ok (bytes.map fun b => Char.ofNat b.toNat)
  | .utf8, bytes => decodeUtf8 [] 0 bytes
  | .ascii, bytes => decodeAscii [] 0 bytes

-- three bytes of one character, and the surrogate that the same pattern would spell
example : (Encoding.utf8.decode [0xE2, 0x82, 0xAC]).toOption = some ['€'] := by decide +kernel
example : (Encoding.utf8.decode [0xED, 0xA0, 0x80]).toOption = none := by decide +kernel

end LexParse.Text
