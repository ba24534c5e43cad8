import LexParse.Regex.Token

/-!
# Reading patterns

The tokens of a pattern are read from left to right with a stack of open groups. A *level* is what
has been read of one group, or of the whole pattern: the alternatives before the last bar, and the
items of the chain after it. A postfix operator works on the last item, a bar ends the chain, and a
closing parenthesis turns a level into an item of the level around it.

The notation is: a pattern is chains divided by bars, a chain is any number of items, an item is a
set, a reference or a parenthesised pattern, followed by any number of postfix operators and
repetitions.

Since the levels are on a stack of its own, reading does not recurse as deep as groups are nested.
The descent through the grammar, which does, is in `LexParse.Regex.Descent`; where the limit of an
interpreter on recursion stops it, is not part of what is said here.
-/

namespace LexParse.Regex

/-- What has been read of one group, last things first. -/
structure Level where
  /-- The alternatives that a bar has ended. -/
  alternatives : List Regex := []
  /-- The items of the chain being read. -/
  items : List Regex := []
deriving Inhabited

/-- The chain being read, as an expression. -/
def Level.chain (level : Level) : Regex := sequence level.items.reverse

/-- A level as an expression: the balanced union of its alternatives, of which the chain being read
is the last. -/
def Level.close (level : Level) : Regex :=
  match (level.chain :: level.alternatives).reverse with
  | [] => .empty
  | first :: rest => balanced .alt first rest

/-- Add an item to the chain. -/
def Level.push (level : Level) (item : Regex) : Level :=
  { level with items := item :: level.items }

/-- End the chain. -/
def Level.divide (level : Level) : Level :=
  { alternatives := level.chain :: level.alternatives, items := [] }

/-- The greatest number of copies that can be asked for, one of sixty-four bits with a sign. -/
def maxCopies : Nat := 0x7FFFFFFFFFFFFFFF

/-- The number of parts that a repetition is written out in: the copies that have to match, and
then an optional copy for each further one or, without a greatest count, one that repeats. -/
def partCount (least : Nat) (most : Option Nat) : Nat := most.getD (least + 1)

/-- Repeat an expression, if its parts can be made. The copies that have to match are asked for at
once; how many parts fit into the memory at hand is `room`. -/
def repeatWithin (room : Nat) (body : Regex) (least : Nat) (most : Option Nat) :
    Except Fault Regex :=
  if maxCopies < least then .error .countTooLarge
  else if room < partCount least most then .error .outOfMemory
  else .ok (body.repeated least most)

/-- Repeat an expression by the counts of a repetition: one count is exact, two are the least and
the greatest, and a missing greatest count sets no bound. -/
def applyCounts (room : Nat) (body : Regex) : List (Option Int) → Except Fault Regex
  | [some n] =>
    if 0 ≤ n then repeatWithin room body n.toNat (some n.toNat) else .error .invalidCount
  | [some n, none] => if 0 ≤ n then repeatWithin room body n.toNat none else .error .invalidCount
  | [some n, some m] =>
    if n < 0 ∨ m < 0 then .error .invalidCount
    else if m < n then .error .reversedCounts
    else repeatWithin room body n.toNat (some m.toNat)
  | _ :: _ :: _ :: _ => .error .tooManyCounts
  | _ => .error .invalidCount

/-- An operator without an operand ends the group it stands in: if there is one, its parenthesis is
missing, and otherwise the operand is. -/
def noOperand (outer : List Level) (fault : Fault) : Fault :=
  if outer.isEmpty then fault else .missingParen

/-- Read tokens, with the innermost open level and the levels around it. -/
def parseFrom (room : Nat) (level : Level) (outer : List Level) : List Token → Except Fault Regex
  | [] => if outer.isEmpty then .ok level.close else .error .missingParen
  | .chars set :: rest => parseFrom room (level.push (.chars set)) outer rest
  | .reference name :: rest => parseFrom room (level.push (.named name)) outer rest
  | .bar :: rest => parseFrom room level.divide outer rest
  | .opening :: rest => parseFrom room {} (level :: outer) rest
  | .closing :: rest =>
    match outer with
    | [] => .error .strayParen
    | around :: outer => parseFrom room (around.push level.close) outer rest
  | .postfixOp operator :: rest =>
    match level.items with
    | [] => .error (noOperand outer (.missingOperand operator.char))
    | item :: items =>
      parseFrom room { level with items := operator.apply item :: items } outer rest
  | .repetition counts :: rest =>
    match level.items with
    | [] => .error (noOperand outer .missingRepeated)
    | item :: items =>
      match applyCounts room item counts with
      | .error fault => .error fault
      | .ok item => parseFrom room { level with items := item :: items } outer rest

/-- The expression of a list of tokens. -/
def parseTokens (room : Nat) (ts : List Token) : Except Fault Regex := parseFrom room {} [] ts

/-- The expression of the text of a pattern. -/
def parse (room : Nat) (text : String) : Except Fault Regex :=
  tokens text.toList >>= parseTokens room

end LexParse.Regex
