import LexParse.Text.Quoted

/-!
# Positions

A position is a stretch of a text, given by the line and column of its first and of its last end.
Lines count from one, columns from zero.
-/

namespace LexParse

/-- A stretch of a file. -/
structure Position where
  /-- The name of the file. -/
  file : String
  /-- The line of the first end. -/
  line0 : Int
  /-- The column of the first end. -/
  col0 : Int
  /-- The line of the last end. -/
  line1 : Int
  /-- The column of the last end. -/
  col1 : Int
deriving DecidableEq, Repr, Inhabited

namespace Position

/-- The position of a parse before its first token. -/
def origin : Position := ⟨"", 1, 0, 1, 0⟩

/-- From the first end of one position to the last end of another. -/
def span (p q : Position) : Position := { p with line1 := q.line1, col1 := q.col1 }

/-- A position in a message. -/
def render (p : Position) : String :=
  p.file ++ " Line " ++ toString p.line0 ++ ":" ++ toString p.col0 ++ " - " ++
    toString p.line1 ++ ":" ++ toString p.col1

/-- A position as a literal. -/
def literal (p : Position) : String :=
  "Position(" ++ Text.quoted p.file ++ ", " ++
    ", ".intercalate ([p.line0, p.col0, p.line1, p.col1].map toString) ++ ")"

end Position

end LexParse
