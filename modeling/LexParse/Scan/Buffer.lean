import LexParse.Position
import LexParse.SymbolClasses

/-!
# Input buffers

A buffer holds a whole text and three offsets into it. The text before the *root* has been handed
out; the scan has gone up to the *position*; and the *mark* in between is where the last match
ended. Extracting hands out the text from the root to the mark, and the scan starts again from
there.

The buffer keeps the line of the root and the offset at which that line starts, and counts on from
them when text is handed out.
-/

namespace LexParse

/-- A text being scanned. -/
structure Buffer where
  /-- The whole text. -/
  text : Array Char
  /-- The name of the file it comes from. -/
  file : String
  /-- The classes that symbols are mapped to; without them a symbol is a code point. -/
  classes : Option SymbolClasses
  /-- The text before this offset has been handed out. -/
  root : Nat
  /-- The last match ended at this offset. -/
  mark : Nat
  /-- The scan has gone up to this offset. -/
  pos : Nat
  /-- The line of the root. -/
  line : Nat
  /-- The offset at which that line starts. -/
  lineStart : Nat
  root_le_mark : root ≤ mark
  mark_le_pos : mark ≤ pos
  pos_le_size : pos ≤ text.size

namespace Buffer

/-- The number of characters of a text. -/
def size (b : Buffer) : Nat := b.text.size

/-- A buffer at the start of a text. -/
def ofText (text : List Char) (file : String) : Buffer :=
  { text := text.toArray, file, classes := none, root := 0, mark := 0, pos := 0, line := 1
    lineStart := 0, root_le_mark := by omega, mark_le_pos := by omega, pos_le_size := by omega }

/-- Go back to the start of the text. -/
def reset (b : Buffer) : Buffer :=
  { b with root := 0, mark := 0, pos := 0, line := 1, lineStart := 0
           root_le_mark := by omega, mark_le_pos := by omega, pos_le_size := by omega }

/-- Map symbols to classes from now on. -/
def mapTo (b : Buffer) (classes : SymbolClasses) : Buffer := { b with classes := some classes }

/-- The symbol of a character: its class, if it has one, or its code point when no classes are
set. -/
def symbol (b : Buffer) (c : Char) : Option Nat :=
  match b.classes with
  | some k => k.classify (codeOf c)
  | none => some c.toNat

/-- Read one character; there is none at the end of the text. -/
def step (b : Buffer) : Option (Option Nat × Buffer) :=
  if h : b.pos < b.text.size then
    have := b.mark_le_pos
    some (b.symbol b.text[b.pos],
      { b with pos := b.pos + 1, mark_le_pos := by omega, pos_le_size := by omega })
  else none

/-- Remember that a match ends here. -/
def setMark (b : Buffer) : Buffer :=
  have := b.root_le_mark
  have := b.mark_le_pos
  { b with mark := b.pos, root_le_mark := by omega, mark_le_pos := by omega }

/-- All of the text has been handed out. -/
def atEnd (b : Buffer) : Bool := b.root == b.text.size

/-- The character at the root; empty at the end of the text. -/
def current (b : Buffer) : String := String.ofList (b.text.extract b.root (b.root + 1)).toList

/-- The position of the root. -/
def position (b : Buffer) : Position :=
  let col := (b.root : Int) - b.lineStart
  ⟨b.file, b.line, col, b.line, col⟩

/-- The text from the root to the mark. -/
def marked (b : Buffer) : List Char := (b.text.extract b.root b.mark).toList

/-- The number of characters up to and including the last line feed of a text. -/
def lastLineEnd (s : List Char) : Nat := (s.reverse.dropWhile (· ≠ '\n')).length

/-- The buffer after handing out the marked text. -/
def advance (b : Buffer) : Buffer :=
  let handed := b.marked
  have := b.mark_le_pos
  have := b.pos_le_size
  { b with
    root := b.mark
    pos := b.mark
    line := b.line + handed.count '\n'
    lineStart := if '\n' ∈ handed then b.root + lastLineEnd handed else b.lineStart
    root_le_mark := by omega
    mark_le_pos := by omega
    pos_le_size := by omega }

/-- Hand out the marked text, with its position. -/
def extract (b : Buffer) : String × Position × Buffer :=
  let after := b.advance
  (String.ofList b.marked,
    ⟨b.file, b.line, (b.root : Int) - b.lineStart, after.line, (b.mark : Int) - after.lineStart⟩,
    after)

/-- The number of characters that have not been handed out. -/
def remaining (b : Buffer) : Nat := b.text.size - b.root

/-! ### What the operations do to the offsets -/

theorem step_eq_some {b b' : Buffer} {s : Option Nat} (h : b.step = some (s, b')) :
    b.pos < b.text.size ∧ b'.pos = b.pos + 1 ∧ b'.root = b.root ∧ b'.mark = b.mark ∧
      b'.text = b.text := by
  unfold step at h
  split at h
  · rename_i hlt
    cases h
    exact ⟨hlt, rfl, rfl, rfl, rfl⟩
  · cases h

@[simp] theorem mark_setMark (b : Buffer) : b.setMark.mark = b.pos := rfl
@[simp] theorem root_setMark (b : Buffer) : b.setMark.root = b.root := rfl
@[simp] theorem pos_setMark (b : Buffer) : b.setMark.pos = b.pos := rfl
@[simp] theorem text_setMark (b : Buffer) : b.setMark.text = b.text := rfl
@[simp] theorem root_advance (b : Buffer) : b.advance.root = b.mark := rfl
@[simp] theorem text_advance (b : Buffer) : b.advance.text = b.text := rfl

end Buffer

end LexParse
