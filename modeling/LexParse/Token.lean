import LexParse.Position
import LexParse.Value

/-!
# Tokens

A token is a piece of the input: its kind, the value its text stands for, the text and where it
stands. The kind `$EOF` is that of the token that ends every stream. A token kind may be declared
with a *payload*, a function from texts to values; without one the text itself is the value.
Functions cannot be compared, so a payload has a key, and a kind that is declared again has to come
with a payload of the same key.
-/

namespace LexParse

/-- A function that computes the value of a token from its text. -/
structure Payload where
  /-- What the payload is told apart by. -/
  key : String
  /-- The payload in print, if it has a name of its own. -/
  literal? : Option String := none
  /-- The value of a text. -/
  value : String → Except ValueFault Value

/-- Payloads with the same key count as the same. -/
instance : BEq Payload := ⟨fun p q => p.key == q.key⟩

/-- Read a text as an integer. -/
def readNumeral (base : Text.Base) (text : String) : Except ValueFault Value :=
  match Text.readInt base text.toList with
  | .ok n => .ok (.int n)
  | .error .invalid => .error (.invalidNumeral base text)
  | .error (.tooLong limit digits) => .error (.tooManyDigits limit digits)

namespace Payload

/-- The integer that a text denotes in base ten. -/
def decimal : Payload := ⟨"int", some "<class 'int'>", readNumeral .decimal⟩

/-- The integer that a text denotes in base sixteen. -/
def hexadecimal : Payload := ⟨"hex", none, readNumeral .hexadecimal⟩

/-- The number of characters of a text. -/
def length : Payload := ⟨"len", none, fun text => .ok (.int text.length)⟩

end Payload

/-- The value of a text, by a payload or without one. -/
def valueBy (payload : Option Payload) (text : String) : Except ValueFault Value :=
  match payload with
  | none => .ok (.str text)
  | some payload => payload.value text

/-- A declared kind of token. -/
structure TokenKind where
  /-- The name of the kind. -/
  name : String
  /-- The function for values. -/
  payload : Option Payload := none
deriving BEq

/-- The kind as a literal. Only payloads that have a name of their own can be written. -/
def TokenKind.literal? (kind : TokenKind) : Option String :=
  match kind.payload with
  | none => some ("TokenKind(" ++ Text.quoted kind.name ++ ")")
  | some payload => payload.literal?.map fun literal =>
    "TokenKind(" ++ Text.quoted kind.name ++ ", " ++ literal ++ ")"

/-- A token. -/
structure Token where
  /-- The name of its kind. -/
  kind : String
  /-- Its value. -/
  value : Value
  /-- Its text. -/
  text : String
  /-- Where it stands. -/
  position : Position
deriving Inhabited

namespace Token

/-- The kind of the token that ends a stream. -/
def endKind : String := "$EOF"

/-- The token that ends a stream. -/
def endOfInput (position : Position) : Token := ⟨endKind, .none, "", position⟩

/-- The token ends the stream. -/
def isEnd (t : Token) : Bool := t.kind == endKind

/-- A token in print. -/
def render (t : Token) : String := t.kind ++ "(" ++ t.value.render ++ ")"

end Token

end LexParse
