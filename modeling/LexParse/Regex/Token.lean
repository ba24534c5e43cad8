import LexParse.Regex.Basic
import LexParse.Text.Numeral

/-!
# The tokens of the pattern notation

The text of a pattern is first divided into tokens: sets of characters, operators, brackets,
references and repetition counts. A set is a plain character, an escape `\c`, a dot, or a bracketed
class `[...]`. What stands between braces is a repetition if all its entries are integers or empty,
and otherwise the name of a pattern.
-/

namespace LexParse.Regex

/-- What can be wrong with the text of a pattern. The last two faults are not faults of the
notation: they say that a repetition has more copies than can be made. -/
inductive Fault where
  /-- The text ends within an escape. -/
  | incompleteEscape
  /-- The two characters after `\x` are no code in base sixteen. -/
  | invalidHexEscape
  /-- A hyphen of a class lacks one of its ends. -/
  | incompleteRange
  /-- An end of a range denotes several characters or none. -/
  | rangeBoundNotSingle
  /-- The end of a range lies before its start. -/
  | reversedRange
  /-- A class has no closing bracket. -/
  | unclosedClass
  /-- The braces hold several entries that are not all counts. -/
  | commaInReference
  /-- An opening brace without a closing one. -/
  | unclosedBrace
  /-- A closing bracket without an opening one. -/
  | strayBracket
  /-- A closing brace without an opening one. -/
  | strayBrace
  /-- A repetition with more than two counts. -/
  | tooManyCounts
  /-- A repetition whose first count is missing, or that has a negative one. -/
  | invalidCount
  /-- A repetition with a least count above its greatest. -/
  | reversedCounts
  /-- A group that is not closed where it ends. -/
  | missingParen
  /-- A postfix operator with nothing before it. -/
  | missingOperand (operator : Char)
  /-- A repetition with nothing before it. -/
  | missingRepeated
  /-- A closing parenthesis without an opening one. -/
  | strayParen
  /-- More copies than can be counted are asked for at once. -/
  | countTooLarge
  /-- The parts of a repetition do not fit into memory. -/
  | outOfMemory
deriving DecidableEq, Repr

/-- The wording of a fault. -/
def Fault.message : Fault → String
  | .incompleteEscape => "incomplete escape sequence"
  | .invalidHexEscape => "invalid hex escape"
  | .incompleteRange => "incomplete range in character class"
  | .rangeBoundNotSingle => "range bounds must be single characters"
  | .reversedRange => "reversed range in character class"
  | .unclosedClass => "unclosed character class"
  | .commaInReference => "comma in named regex reference"
  | .unclosedBrace => "unclosed brace expression"
  | .strayBracket => "single closing bracket"
  | .strayBrace => "single closing brace"
  | .tooManyCounts => "too many numbers in repetition operator"
  | .invalidCount => "item in brace repetition operator not a non-negative integer"
  | .reversedCounts => "n greater than m in \x7bn,m\x7d-style repetition"
  | .missingParen => "missing closing paren"
  | .missingOperand operator =>
    "missing argument for '" ++ String.singleton operator ++ "' operator"
  | .missingRepeated => "missing argument for repetition operator"
  | .strayParen => "superfluous closing paren"
  | .countTooLarge => "cannot fit 'int' into an index-sized integer"
  | .outOfMemory => ""

/-- The postfix operators. -/
inductive Postfix where
  /-- `*`, any number. -/
  | star
  /-- `+`, at least one. -/
  | plus
  /-- `?`, at most one. -/
  | option
deriving DecidableEq, Repr

/-- The character of a postfix operator. -/
def Postfix.char : Postfix → Char
  | .star => '*'
  | .plus => '+'
  | .option => '?'

/-- Apply a postfix operator. -/
def Postfix.apply : Postfix → Regex → Regex
  | .star, r => .star r
  | .plus, r => .seq r (.star r)
  | .option, r => .opt r

/-- A token of the notation. -/
inductive Token where
  /-- One character of a set. -/
  | chars (set : CharSet)
  /-- A postfix operator. -/
  | postfixOp (operator : Postfix)
  /-- An opening parenthesis. -/
  | opening
  /-- A closing parenthesis. -/
  | closing
  /-- A bar. -/
  | bar
  /-- A reference to a named pattern. -/
  | reference (name : String)
  /-- A repetition with its counts; an empty entry is a missing count. -/
  | repetition (counts : List (Option Int))
deriving DecidableEq

/-! ### Escapes -/

/-- The set of an escaped character that is not `x`: some letters name a set, any other character
stands for itself. -/
def escaped : Char → CharSet
  | 'n' => .ofString "\n"
  | 't' => .ofString "\t"
  | 'f' => .single 0x0C
  | 'v' => .single 0x0B
  | 'r' => .ofString "\r"
  | 's' => .ofIntervals [⟨0x09, 0x0D⟩, ⟨0x20, 0x20⟩]
  | 'd' => .ofString "0123456789"
  | 'w' => .ofString "abcdefghijklmnopqrstuvwxyzABCDEFGHIJKLMNOPQRSTUVWXYZ0123456789_"
  | c => .ofChar c

/-- The set of the escape `\x` with its two characters, read as a numeral in base sixteen. -/
def hexEscaped (a b : Char) : Except Fault CharSet :=
  match Text.readInt? .hexadecimal [a, b] with
  | some n => if 0 ≤ n then .ok (.single n) else .error .invalidHexEscape
  | none => .error .invalidHexEscape

/-- Read what follows a backslash. -/
def readEscape : List Char → Except Fault (CharSet × List Char)
  | [] => .error .incompleteEscape
  | 'x' :: a :: b :: rest => return (← hexEscaped a b, rest)
  | 'x' :: _ => .error .incompleteEscape
  | c :: rest => .ok (escaped c, rest)

theorem length_of_readEscape {s rest : List Char} {set : CharSet}
    (h : readEscape s = .ok (set, rest)) : rest.length < s.length := by
  unfold readEscape at h
  split at h
  · simp at h
  · rename_i a b r
    cases hx : hexEscaped a b <;> simp_all [bind, Except.bind, pure, Except.pure]
    omega
  · simp at h
  · simp only [Except.ok.injEq, Prod.mk.injEq] at h
    simp [h.2]

/-! ### Character classes -/

/-- A class being read. -/
structure ClassState where
  /-- The union of the items so far. -/
  set : CharSet := ∅
  /-- The last unit, if it can start a range. -/
  last : Option CharSet := none
  /-- A hyphen has been read after the last unit. -/
  inRange : Bool := false

/-- Add a unit to a class: as an item of its own, or as the end of a range. -/
def ClassState.add (st : ClassState) (unit : CharSet) : Except Fault ClassState :=
  if st.inRange then
    match unit.single?, st.last.bind (·.single?) with
    | some hi, some lo =>
      if lo ≤ hi then .ok { set := st.set.union (.range lo hi), last := none, inRange := false }
      else .error .reversedRange
    | _, _ => .error .rangeBoundNotSingle
  else .ok { set := st.set.union unit, last := some unit, inRange := false }

/-- Read the items of a class up to its closing bracket. -/
def readItems (st : ClassState) : List Char → Except Fault (CharSet × List Char)
  | [] => .error .unclosedClass
  | ']' :: rest => if st.inRange then .error .incompleteRange else .ok (st.set, rest)
  | '-' :: rest =>
    if st.last.isNone then .error .incompleteRange else readItems { st with inRange := true } rest
  | '\\' :: rest =>
    match h : readEscape rest with
    | .error fault => .error fault
    | .ok (unit, after) =>
      have := length_of_readEscape h
      match st.add unit with
      | .error fault => .error fault
      | .ok st => readItems st after
  | c :: rest =>
    match st.add (.ofChar c) with
    | .error fault => .error fault
    | .ok st => readItems st rest
termination_by s => s.length

/-- Read a class, from behind its opening bracket: a leading `^` takes the complement of the
items. -/
def readClass : List Char → Except Fault (CharSet × List Char)
  | '^' :: rest => (readItems {} rest).map fun p => (p.1.complement, p.2)
  | s => readItems {} s

theorem length_of_readItems {st : ClassState} {s rest : List Char} {set : CharSet}
    (h : readItems st s = .ok (set, rest)) : rest.length < s.length := by
  fun_induction readItems st s with
  | case1 => simp at h
  | case2 => simp at h
  | case3 st rest hr => simp at h; simp [h.2]
  | case4 => simp at h
  | case5 st rest hr ih => have := ih h; simp only [List.length_cons]; omega
  | case6 => simp at h
  | case7 => simp at h
  | case8 st r unit after he hlt st' hadd ih =>
    have := ih h
    simp only [List.length_cons]
    omega
  | case9 => simp at h
  | case10 st c r _ _ _ st' hadd ih => have := ih h; simp only [List.length_cons]; omega

theorem length_of_readClass {s rest : List Char} {set : CharSet}
    (h : readClass s = .ok (set, rest)) : rest.length < s.length := by
  unfold readClass at h
  split at h
  · rename_i r
    cases hr : readItems {} r with
    | error e => simp [hr, Except.map] at h
    | ok p =>
      have := @length_of_readItems _ _ p.2 p.1 hr
      simp only [hr, Except.map, Except.ok.injEq, Prod.mk.injEq] at h
      simp only [List.length_cons, ← h.2]
      omega
  · exact length_of_readItems h

/-! ### Braces -/

/-- Divide a text at its commas. -/
def entries (s : List Char) : List (List Char) := s.splitOn ','

/-- A count, or nothing for an empty entry; no count at all for any other entry that is not an
integer. -/
def readCount? (entry : List Char) : Option (Option Int) :=
  if entry.isEmpty then some none else (Text.readInt? .decimal entry).map some

/-- The token of a text between braces. -/
def braced (content : List Char) : Except Fault Token :=
  let parts := (entries content).map Text.strip
  match parts.mapM readCount? with
  | some counts => .ok (.repetition counts)
  | none =>
    match parts with
    | [name] => .ok (.reference (String.ofList name))
    | _ => .error .commaInReference

-- a count with more digits than a numeral may have is no count
example : (braced (List.replicate 4300 '0' ++ ['1', ','])).toOption = none := by decide +kernel

/-- The character is no closing brace. -/
def notBrace (c : Char) : Bool := c != '}'

/-- Read what stands before the first closing brace. -/
def readBraced (s : List Char) : Except Fault (Token × List Char) :=
  match s.dropWhile notBrace with
  | [] => .error .unclosedBrace
  | _ :: rest => (braced (s.takeWhile notBrace)).map (·, rest)

theorem length_dropWhile_le {α : Type} (p : α → Bool) (l : List α) :
    (l.dropWhile p).length ≤ l.length := (List.dropWhile_sublist p).length_le

theorem length_of_readBraced {s rest : List Char} {t : Token}
    (h : readBraced s = .ok (t, rest)) : rest.length < s.length := by
  unfold readBraced at h
  split at h
  · simp at h
  · rename_i c r hs
    have hle := length_dropWhile_le notBrace s
    rw [hs] at hle
    cases hb : braced (s.takeWhile notBrace) with
    | error e => simp [hb, Except.map] at h
    | ok b =>
      simp only [hb, Except.map, Except.ok.injEq, Prod.mk.injEq] at h
      simp only [List.length_cons, h.2] at hle
      omega

/-! ### Texts -/

/-- All characters but the line feed. -/
def dot : CharSet := (CharSet.ofString "\n").complement

/-- Divide the text of a pattern into tokens. `seen` are the tokens so far, last one first. -/
def tokensFrom (seen : List Token) : List Char → Except Fault (List Token)
  | [] => .ok seen.reverse
  | '\\' :: rest =>
    match h : readEscape rest with
    | .error fault => .error fault
    | .ok (set, after) =>
      have := length_of_readEscape h
      tokensFrom (.chars set :: seen) after
  | '[' :: rest =>
    match h : readClass rest with
    | .error fault => .error fault
    | .ok (set, after) =>
      have := length_of_readClass h
      tokensFrom (.chars set :: seen) after
  | '{' :: rest =>
    match h : readBraced rest with
    | .error fault => .error fault
    | .ok (t, after) =>
      have := length_of_readBraced h
      tokensFrom (t :: seen) after
  | ']' :: _ => .error .strayBracket
  | '}' :: _ => .error .strayBrace
  | '*' :: rest => tokensFrom (.postfixOp .star :: seen) rest
  | '+' :: rest => tokensFrom (.postfixOp .plus :: seen) rest
  | '?' :: rest => tokensFrom (.postfixOp .option :: seen) rest
  | '|' :: rest => tokensFrom (.bar :: seen) rest
  | '(' :: rest => tokensFrom (.opening :: seen) rest
  | ')' :: rest => tokensFrom (.closing :: seen) rest
  | '.' :: rest => tokensFrom (.chars dot :: seen) rest
  | c :: rest => tokensFrom (.chars (.ofChar c) :: seen) rest
termination_by s => s.length

/-- The tokens of the text of a pattern. -/
def tokens (s : List Char) : Except Fault (List Token) := tokensFrom [] s

end LexParse.Regex
