import LexParse.Regex.Parse

/-!
# The descent through the notation

The notation of patterns has a grammar, and there is a reader with one function for each of its
lines,

    pattern  ::=  chain | pattern '|' chain
    chain    ::=  nothing | chain item
    item     ::=  base | item postfix | item repetition
    base     ::=  set | name | '(' pattern ')'

Each of them takes the tokens in front and leaves those behind. They recurse by way of the groups: a
base that is a group calls for a pattern. That call is a parameter here, `group`, and `readGroup`
closes the circle, one group at a time. So calls are nested as deep as groups are, and where an
interpreter limits how deep calls may be nested, only so many groups can be open at once.
`LexParse.Regex.parse` keeps the open groups on a stack instead, and has no such limit.
-/

namespace LexParse.Regex

namespace Descent

/-- Why the descent ends without an expression. -/
inductive Abort where
  /-- There is a fault in the pattern, or a repetition has too many copies. -/
  | fault (fault : Fault)
  /-- One group too many is open. -/
  | tooDeep
  /-- Something has been left behind that no reader leaves. -/
  | unexpected
deriving DecidableEq

/-- What has been read, and the tokens behind it, of which there are fewer than `n`. -/
structure Reading (α : Type) (n : Nat) where
  /-- What has been read. -/
  value : α
  /-- The tokens behind it. -/
  rest : List Token
  /-- How many tokens are left. -/
  fewer : rest.length < n

theorem Reading.length_lt {α : Type} {n : Nat} {reading : Reading α n} {t : Token}
    {rest : List Token} (h : reading.rest = t :: rest) : rest.length + 1 < n := by
  simpa [h] using reading.fewer

/-- A reader of patterns: none of the tokens need be taken. -/
abbrev PatternReader := (ts : List Token) → Except Abort (Reading Regex (ts.length + 1))

/-- Read the postfix operators and the repetitions of an expression. -/
def readPostfixes (room : Nat) (r : Regex) :
    (ts : List Token) → Except Abort (Reading Regex (ts.length + 1))
  | .postfixOp operator :: ts =>
    match readPostfixes room (operator.apply r) ts with
    | .error abort => .error abort
    | .ok ⟨r, rest, fewer⟩ => .ok ⟨r, rest, Nat.lt_succ_of_lt fewer⟩
  | .repetition counts :: ts =>
    match applyCounts room r counts with
    | .error fault => .error (.fault fault)
    | .ok r =>
      match readPostfixes room r ts with
      | .error abort => .error abort
      | .ok ⟨r, rest, fewer⟩ => .ok ⟨r, rest, Nat.lt_succ_of_lt fewer⟩
  | ts => .ok ⟨r, ts, Nat.lt_succ_self _⟩

section

variable (room : Nat) (group : PatternReader)

/-- Read a set, a name or a group, if there is one. -/
def readBase : (ts : List Token) → Except Abort (Option (Reading Regex ts.length))
  | .chars set :: ts => .ok (some ⟨.chars set, ts, Nat.lt_succ_self _⟩)
  | .reference name :: ts => .ok (some ⟨.named name, ts, Nat.lt_succ_self _⟩)
  | .opening :: ts =>
    match group ts with
    | .error abort => .error abort
    | .ok inside =>
      match h : inside.rest with
      | .closing :: rest =>
        .ok (some ⟨inside.value, rest, Nat.lt_of_succ_lt (Reading.length_lt h)⟩)
      | _ => .error (.fault .missingParen)
  | _ => .ok none

/-- Read a base with its postfix operators and repetitions, if there is one. -/
def readItem (ts : List Token) : Except Abort (Option (Reading Regex ts.length)) :=
  match readBase group ts with
  | .error abort => .error abort
  | .ok none => .ok none
  | .ok (some ⟨r, rest, fewer⟩) =>
    match readPostfixes room r rest with
    | .error abort => .error abort
    | .ok ⟨r, rest', fewer'⟩ =>
      .ok (some ⟨r, rest', Nat.lt_of_lt_of_le fewer' (Nat.succ_le_of_lt fewer)⟩)

/-- Read items as long as there are any. -/
def readItems (ts : List Token) : Except Abort (Reading (List Regex) (ts.length + 1)) :=
  match readItem room group ts with
  | .error abort => .error abort
  | .ok none => .ok ⟨[], ts, Nat.lt_succ_self _⟩
  | .ok (some ⟨item, rest, fewer⟩) =>
    match readItems rest with
    | .error abort => .error abort
    | .ok ⟨items, rest', fewer'⟩ =>
      .ok ⟨item :: items, rest', Nat.lt_of_lt_of_le fewer' (Nat.succ_le_succ (Nat.le_of_lt fewer))⟩
termination_by ts.length

/-- Read a chain. One without items is nothing. -/
def readChain (ts : List Token) : Except Abort (Reading (Option Regex) (ts.length + 1)) :=
  match readItems room group ts with
  | .error abort => .error abort
  | .ok ⟨items, rest, fewer⟩ => .ok ⟨joinAll? .seq items, rest, fewer⟩

/-- Read chains as long as there are bars between them. -/
def readChains (ts : List Token) : Except Abort (Reading (List (Option Regex)) (ts.length + 1)) :=
  match readChain room group ts with
  | .error abort => .error abort
  | .ok chain =>
    match h : chain.rest with
    | .bar :: rest =>
      have fewer : rest.length < ts.length := Nat.lt_of_succ_lt_succ (Reading.length_lt h)
      match readChains rest with
      | .error abort => .error abort
      | .ok ⟨chains, rest', fewer'⟩ =>
        .ok ⟨chain.value :: chains, rest', Nat.lt_succ_of_lt (Nat.lt_of_lt_of_le fewer' fewer)⟩
    | _ => .ok ⟨[chain.value], chain.rest, chain.fewer⟩
termination_by ts.length

/-- Read a pattern. A chain that is nothing matches the empty word. -/
def readPattern : PatternReader := fun ts =>
  match readChains room group ts with
  | .error abort => .error abort
  | .ok ⟨chains, rest, fewer⟩ =>
    match joinAll? .alt (chains.map (·.getD .empty)) with
    | some r => .ok ⟨r, rest, fewer⟩
    | none => .error .unexpected

end

/-- Read the pattern in a group, where so many groups may be open, this one included. -/
def readGroup (room : Nat) : Nat → PatternReader
  | 0 => fun _ => .error .tooDeep
  | depth + 1 => readPattern room (readGroup room depth)

end Descent

/-- Read a pattern that all tokens are to belong to, where so many groups may be open at once. -/
def descend (room depth : Nat) (ts : List Token) : Except Descent.Abort Regex :=
  match Descent.readPattern room (Descent.readGroup room depth) ts with
  | .error abort => .error abort
  | .ok pattern =>
    match pattern.rest with
    | [] => .ok pattern.value
    | .postfixOp operator :: _ => .error (.fault (.missingOperand operator.char))
    | .repetition _ :: _ => .error (.fault .missingRepeated)
    | .closing :: _ => .error (.fault .strayParen)
    | _ => .error .unexpected

/-- The expression of the text of a pattern, by descent. -/
def parseByDescent (room depth : Nat) (text : String) : Except Descent.Abort Regex :=
  match tokens text.toList with
  | .error fault => .error (.fault fault)
  | .ok ts => descend room depth ts

end LexParse.Regex
