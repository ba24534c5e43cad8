/-!
# Columns of fixed width

Texts are clipped to a width, and table cells are centred in their column. A cell that is too wide
is left as it is.
-/

namespace LexParse.Text

/-- The first characters of a text, as many as a column is wide. -/
def clip (width : Nat) (s : String) : String := String.ofList (s.toList.take width)

/-- Centre a text in a column. Of an odd padding the larger half goes to the left exactly when the
width of the column is odd. -/
def center (width : Nat) (s : String) : String :=
  let padding := width - s.length
  let left := padding / 2 + (if padding % 2 = 1 ∧ width % 2 = 1 then 1 else 0)
  String.ofList (List.replicate left ' ') ++ s ++
    String.ofList (List.replicate (padding - left) ' ')

end LexParse.Text
