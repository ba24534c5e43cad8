import LexParse.Scan.Buffer
import LexParse.Scan.Table

/-!
# Scanning

A lexer reads tokens off a buffer by a scan table. To find the next token it follows the table until
nothing more can match, marking every match on the way, and takes the last one; so the longest match
wins, and among rules of equal length the first. When nothing matches it reports the character at
the root and stays where the scan stopped: the next call scans on from there, still for a text that
starts at the root.
-/

namespace LexParse

/-- What can go wrong in a scan. -/
inductive ScanFault where
  /-- No rule matches at a position; the character there is given. -/
  | noMatch (char : String) (position : Position)
  /-- Bytes of the input are no text in the encoding. -/
  | undecodable (encoding : Text.Encoding) (bytes : List UInt8) (position : Position)
  /-- The end of the input has been handed out before. -/
  | exhausted
  /-- The text of a token has no value. -/
  | payload (fault : ValueFault)
  /-- The buffer maps a symbol to a class that the table does not have. A buffer maps to the classes
  of the last lexer that was made on it, so this can happen to the lexers before. -/
  | noColumn

/-- The wording of a fault. -/
def ScanFault.message : ScanFault → String
  | .noMatch char position =>
    position.render ++ ":no lexing rule matches " ++ Text.quoted char
  | .undecodable encoding bytes position =>
    position.render ++ ":invalid " ++ encoding.name ++ " input " ++ Text.quotedBytes bytes
  | .exhausted => "the token stream is exhausted, reset the lexer to scan again"
  | .payload fault => fault.message
  | .noColumn => PlaceFault.beyond.message "tuple"

/-- A text to be scanned, or bytes to be decoded first. -/
inductive Source where
  /-- A text. -/
  | text (chars : List Char)
  /-- The bytes of a text. -/
  | bytes (data : List UInt8)

/-- The position of the character that undecodable bytes would have been. -/
def Text.DecodeFault.position (fault : Text.DecodeFault) (file : String) : Position :=
  let line : Int := fault.before.count '\n' + 1
  let col : Int := (fault.before.reverse.takeWhile (· ≠ '\n')).length
  ⟨file, line, col, line, col + 1⟩

/-- The buffer of a source. Only bytes are decoded. -/
def Buffer.ofSource (source : Source) (file : String) (encoding : Text.Encoding) :
    Except Text.DecodeFault Buffer :=
  match source with
  | .text chars => .ok (.ofText chars file)
  | .bytes data => (encoding.decode data).map (.ofText · file)

/-- A scanner: a table, the input, and whether its end has been handed out. -/
structure Lexer where
  /-- The table that drives the scan. -/
  table : ScanTable
  /-- The input. -/
  buffer : Buffer
  /-- The end of the input has been handed out. -/
  finished : Bool := false

namespace Lexer

/-- A lexer on a buffer, which from now on maps symbols to the classes of the table. -/
def ofBuffer (table : ScanTable) (buffer : Buffer) : Lexer :=
  { table, buffer := buffer.mapTo table.classes }

/-- A lexer on a source. -/
def ofSource (table : ScanTable) (source : Source) (file : String) (encoding : Text.Encoding) :
    Except ScanFault Lexer :=
  match Buffer.ofSource source file encoding, source with
  | .ok buffer, _ => .ok (ofBuffer table buffer)
  | .error fault, .bytes data =>
    .error (.undecodable encoding ((data.take fault.stop).drop fault.start) (fault.position file))
  | .error fault, .text _ => .error (.undecodable encoding [] (fault.position file))

/-- What a scan finds: the rule of the longest match, if there is a match. -/
abbrev Found := Except ScanFault (Option Nat)

/-- Follow the table from a state on, marking every match; `best` is the rule of the last one. -/
def scan (table : ScanTable) (state : Nat) (best : Option Nat) (b : Buffer) : Found × Buffer :=
  match h : b.step with
  | none => (.ok best, b)
  | some (none, b') => (.ok best, b')
  | some (some cls, b') =>
    have := Buffer.step_eq_some h
    match table.automaton.next? state cls with
    | none => (.error .noColumn, b')
    | some state =>
      if state = table.automaton.dead then (.ok best, b')
      else
        match table.accepting state with
        | some rule => scan table state (some rule) b'.setMark
        | none => scan table state best b'
termination_by b.text.size - b.pos
decreasing_by all_goals simp_all; omega

/-- A scan does not move the root, and if it finds a match then the mark is behind the root. -/
theorem scan_root {table : ScanTable} {state : Nat} {best : Option Nat} {b : Buffer}
    (hb : best.isSome → b.root < b.mark) :
    (scan table state best b).2.root = b.root ∧ (scan table state best b).2.text = b.text ∧
      (∀ rule, (scan table state best b).1 = .ok (some rule) →
        b.root < (scan table state best b).2.mark) := by
  fun_induction scan table state best b with
  | case1 state best b h =>
    refine ⟨rfl, rfl, fun rule hr => hb ?_⟩
    cases hr
    rfl
  | case2 state best b b' h =>
    have hs := Buffer.step_eq_some h
    refine ⟨hs.2.2.1, hs.2.2.2.2, fun rule hr => hs.2.2.2.1 ▸ hb ?_⟩
    cases hr
    rfl
  | case3 state best b cls b' h hs hnone =>
    refine ⟨hs.2.2.1, hs.2.2.2.2, fun rule hr => ?_⟩
    cases hr
  | case4 state best b cls b' h hs hdead =>
    refine ⟨hs.2.2.1, hs.2.2.2.2, fun rule hr => hs.2.2.2.1 ▸ hb ?_⟩
    cases hr
    rfl
  | case5 state best b cls b' h hs next hnext hdead rule hrule ih =>
    have hroot := b.root_le_mark
    have hmark := b.mark_le_pos
    have := ih (fun _ => by simp only [Buffer.root_setMark, Buffer.mark_setMark]; omega)
    simpa [hs] using this
  | case6 state best b cls b' h hs next hnext hdead hrule ih =>
    have := ih (fun hsome => by rw [hs.2.2.1, hs.2.2.2.1]; exact hb hsome)
    simpa [hs] using this

/-- The outcome of a search for the next token: a token or a fault, the buffer after it, and whether
the input has been finished. -/
abbrev Outcome := Except ScanFault Token × Buffer × Bool

/-- Search for the next token from the root on, dropping what the rules say to drop. -/
def search (table : ScanTable) (b : Buffer) : Outcome :=
  if b.atEnd then (.ok (.endOfInput b.position), b, true)
  else
    match h : scan table table.automaton.start none b with
    | (.error fault, b') => (.error fault, b', false)
    | (.ok none, b') => (.error (.noMatch b'.current b'.position), b', false)
    | (.ok (some rule), b') =>
      have hs := @scan_root table table.automaton.start none b (by simp)
      match table.actionOf rule with
      | .emit kind =>
        let (text, position, after) := b'.extract
        match valueBy (table.payloadOf kind) text with
        | .ok value => (.ok ⟨kind, value, text, position⟩, after, false)
        | .error fault => (.error (.payload fault), after, false)
      | .finish =>
        let (_, position, after) := b'.extract
        (.ok (.endOfInput position), after, true)
      | .skip => search table b'.advance
termination_by b.remaining
decreasing_by
  have hlt : b.root < b'.mark := by simpa [h] using hs.2.2 rule
  have htext : b'.text = b.text := by simpa [h] using hs.2.1
  have h1 := b'.mark_le_pos
  have h2 := b'.pos_le_size
  simp only [Buffer.remaining, Buffer.root_advance, Buffer.text_advance, htext] at *
  omega

/-- The next token. The token that ends the input is handed out once. -/
def next (l : Lexer) : Except ScanFault Token × Lexer :=
  if l.finished then (.error .exhausted, l)
  else
    let (result, buffer, finished) := search l.table l.buffer
    (result, { l with buffer, finished })

/-- Start again at the beginning of the input. -/
def reset (l : Lexer) : Lexer := { l with buffer := l.buffer.reset, finished := false }

/-- All tokens up to and including the first one that ends the stream, or up to a fault. Each token
but the last uses up a character, so `steps` above the number of characters left are enough. -/
def tokensFrom : Nat → Lexer → List Token × Option ScanFault × Lexer
  | 0, l => ([], none, l)
  | steps + 1, l =>
    match l.next with
    | (.error fault, l) => ([], some fault, l)
    | (.ok token, l) =>
      if token.isEnd then ([token], none, l)
      else
        let (rest, fault, l) := tokensFrom steps l
        (token :: rest, fault, l)

/-- The remaining tokens, with the one that ends the stream, and the fault that cut them short if
there was one. -/
def tokens (l : Lexer) : List Token × Option ScanFault × Lexer :=
  tokensFrom (l.buffer.remaining + 1) l

end Lexer

end LexParse
