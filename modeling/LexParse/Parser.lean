import LexParse.Lr.Table
import LexParse.Scan.Lexer

/-!
# Parsing

The parser keeps a stack of states, each with the value and the position of the symbol that led to
it, and one token to look at. A step does what the table says: it takes the token, replaces the
topmost values by one, accepts, or reports that the token cannot stand here.

Nothing bounds the number of steps of a parse in general: precedences can make a reduction of
nothing repeat forever. A run is given a limit and says when it was not enough.
-/

namespace LexParse.Lr

/-- Where tokens come from: the next one, if there is one. -/
structure TokenSource (σ : Type) where
  /-- Hand out the next token. -/
  next : σ → Except ScanFault (Option LexParse.Token) × σ

namespace TokenSource

/-- The tokens of a list. -/
def list : TokenSource (List Token) where
  next
    | [] => (.ok none, [])
    | token :: rest => (.ok (some token), rest)

/-- The tokens of a lexer. -/
def lexer : TokenSource Lexer where
  next l :=
    match l.next with
    | (.ok token, l) => (.ok (some token), l)
    | (.error fault, l) => (.error fault, l)

end TokenSource

/-- Why an input is rejected. -/
inductive Rejection where
  /-- The grammar does not know the kind of a token. -/
  | unknownKind (token : Token)
  /-- A token cannot stand where it does; the kinds that can are given. -/
  | unexpected (token : Token) (expected : List String)

namespace Rejection

/-- The token at which the input is rejected. -/
def token : Rejection → Token
  | .unknownKind token | .unexpected token _ => token

/-- The kinds of tokens that could have stood there. -/
def expected : Rejection → List String
  | .unknownKind _ => []
  | .unexpected _ expected => expected

/-- The wording of a rejection. -/
def message (r : Rejection) : String :=
  r.token.position.render ++ ":" ++
    match r with
    | .unknownKind token => "unknown token kind " ++ token.kind
    | .unexpected token _ =>
      if token.isEnd then "unexpected end of input"
      else "unexpected " ++ token.kind ++ " " ++ Text.quoted token.text

end Rejection

/-- Why a parse fails. -/
inductive Failure where
  /-- The input is rejected. -/
  | rejected (rejection : Rejection)
  /-- The next token cannot be read. -/
  | scan (fault : ScanFault)
  /-- An action has no value. -/
  | value (fault : ValueFault)
  /-- The table has no entry where one is needed. No table of a grammar lacks one. -/
  | stuck

/-- An entry of the stack. -/
structure Frame where
  /-- The state. -/
  state : Nat
  /-- The value of the symbol that led to it. -/
  value : Value
  /-- The position of that symbol. -/
  position : Position
deriving Inhabited

/-- A parse in progress. -/
structure Config (σ : Type) where
  /-- The stack, topmost entry first. -/
  stack : List Frame
  /-- The token to look at. -/
  token : Token
  /-- Where the tokens after it come from. -/
  source : σ

/-- What a step did. -/
inductive Move where
  /-- Took the token. -/
  | shift
  /-- Replaced a right side by its left side. -/
  | reduce
  /-- Accepted the input. -/
  | accept
deriving DecidableEq, Repr

/-- The name of a move. -/
def Move.name : Move → String
  | .shift => "shift"
  | .reduce => "reduce"
  | .accept => "accept"

/-- A line of the trace of a parse: the stack after a move, and the token it looked at. -/
structure Event where
  /-- The stack after the move. -/
  stack : List Frame
  /-- The move. -/
  move : Move
  /-- The token. -/
  token : Token

/-- An event in print. -/
def Event.render (e : Event) : String :=
  " ".intercalate (e.stack.reverse.map fun f => toString f.state) ++ " # " ++ e.move.name ++ " " ++
    e.token.kind ++ " " ++ Text.quoted e.token.text

/-- The outcome of a step. -/
inductive Step (σ : Type) where
  /-- The parse goes on. -/
  | next (event : Event) (config : Config σ)
  /-- The parse is over. -/
  | stop (event : Option Event) (result : Except Failure Value) (source : σ)

section
variable {σ : Type}

/-- The next token. When there is none it is the end of the input, at a given position. -/
def TokenSource.pull (source : TokenSource σ) (position : Position) (s : σ) :
    Except ScanFault Token × σ :=
  match source.next s with
  | (.ok (some token), s) => (.ok token, s)
  | (.ok none, s) => (.ok (.endOfInput position), s)
  | (.error fault, s) => (.error fault, s)

/-- The position of a reduction: from the first to the last symbol it replaces, or that of the token
to look at when it replaces none. `popped` are the entries it replaces, last one first. -/
def reducedPosition (popped : List Frame) (token : Token) : Position :=
  match popped.getLast?, popped.head? with
  | some first, some last => first.position.span last.position
  | _, _ => token.position

/-- The stack after a reduction. -/
def reduceStack (table : ParseTable) (r : Reduction) (stack : List Frame) (token : Token) :
    Except Failure (List Frame) :=
  let popped := stack.take r.size
  let rest := stack.drop r.size
  match rest.head?.bind fun top => table.gotoAt? top.state r.left with
  | none => .error .stuck
  | some state =>
    match r.action (popped.reverse.map (·.value)) with
    | .error fault => .error (.value fault)
    | .ok value => .ok ({ state, value, position := reducedPosition popped token } :: rest)

/-- One step of a parse. -/
def step (table : ParseTable) (source : TokenSource σ) (c : Config σ) : Step σ :=
  match c.stack with
  | [] => .stop none (.error .stuck) c.source
  | top :: _ =>
    match table.terminalNumber? c.token.kind with
    | none => .stop none (.error (.rejected (.unknownKind c.token))) c.source
    | some terminal =>
      match table.actionAt top.state terminal with
      | .shift state =>
        let stack := { state, value := c.token.value, position := c.token.position } :: c.stack
        let event : Event := ⟨stack, .shift, c.token⟩
        match source.pull c.token.position c.source with
        | (.ok token, rest) => .next event { stack, token, source := rest }
        | (.error fault, rest) => .stop (some event) (.error (.scan fault)) rest
      | .reduce n =>
        match reduceStack table (table.reductions.getD n default) c.stack c.token with
        | .ok stack => .next ⟨stack, .reduce, c.token⟩ { c with stack }
        | .error failure => .stop none (.error failure) c.source
      | .accept => .stop (some ⟨c.stack, .accept, c.token⟩) (.ok top.value) c.source
      | .error =>
        .stop none (.error (.rejected (.unexpected c.token (table.expected top.state)))) c.source

/-- The outcome of a run. -/
structure Run (σ : Type) where
  /-- What happened, last event first. -/
  events : List Event
  /-- The value of the input, or why there is none; nothing when the limit was not enough. -/
  result : Option (Except Failure Value)
  /-- What is left of the tokens. -/
  source : σ

/-- Take steps until the parse is over, but no more than a limit. -/
def runFrom (table : ParseTable) (source : TokenSource σ) (events : List Event) :
    Nat → Config σ → Run σ
  | 0, c => ⟨events, none, c.source⟩
  | limit + 1, c =>
    match step table source c with
    | .next event c => runFrom table source (event :: events) limit c
    | .stop event result rest => ⟨event.toList ++ events, some result, rest⟩

/-- Parse tokens, in no more steps than a limit. -/
def parse (table : ParseTable) (source : TokenSource σ) (limit : Nat) (tokens : σ) : Run σ :=
  match source.pull .origin tokens with
  | (.error fault, rest) => ⟨[], some (.error (.scan fault)), rest⟩
  | (.ok token, rest) =>
    runFrom table source [] limit
      { stack := [⟨table.start, .none, .origin⟩], token, source := rest }

end

end LexParse.Lr
