import LexParse.Place
import LexParse.Text.Column
import LexParse.Text.Numeral
import LexParse.Text.Quoted

/-!
# Semantic values

The values that tokens carry and that reductions compute: plain data, sequences of two kinds, and
nodes, which are sequences with a name and named fields. A printed value can be read off as a
literal.
-/

namespace LexParse

/-- The name of a kind of node and the names of its fields. -/
structure NodeKind where
  /-- The name of the kind. -/
  name : String
  /-- The names of the fields, in order. -/
  fields : List String
deriving DecidableEq, Repr

/-- A semantic value. -/
inductive Value where
  /-- No value. -/
  | none
  /-- A truth value. -/
  | bool (b : Bool)
  /-- An integer. -/
  | int (n : Int)
  /-- A text. -/
  | str (s : String)
  /-- A list. -/
  | list (items : List Value)
  /-- A tuple. -/
  | tuple (items : List Value)
  /-- A node, with the values of its fields. -/
  | node (kind : NodeKind) (fields : List Value)
deriving Inhabited

/-- Why a value cannot be computed. -/
inductive ValueFault where
  /-- A text is no numeral in the base. -/
  | invalidNumeral (base : Text.Base) (text : String)
  /-- A numeral has more digits than it may have. -/
  | tooManyDigits (limit digits : Nat)
  /-- There is no value at a place. -/
  | place (fault : PlaceFault)
  /-- Only values of one sort can be joined to a value of that sort; the sort of the other one is
  given. -/
  | cannotJoin (sort other : String)
  /-- Values of two sorts have no sum. -/
  | cannotAdd (left right : String)
  /-- An action gave up, with its own words. -/
  | failed (text : String)
deriving DecidableEq, Repr

/-- The wording of a fault. The literal of a text that is no numeral is clipped. -/
def ValueFault.message : ValueFault → String
  | .invalidNumeral base text =>
    "invalid literal for int() with base " ++ toString base.radix ++ ": " ++
      Text.clip 200 (Text.quoted text)
  | .tooManyDigits limit digits =>
    "Exceeds the limit (" ++ toString limit ++ " digits) for integer string conversion: " ++
      "value has " ++ toString digits ++ " digits; " ++
      "use sys.set_int_max_str_digits() to increase the limit"
  | .place fault => fault.message "tuple"
  | .cannotJoin sort other =>
    "can only concatenate " ++ sort ++ " (not \"" ++ other ++ "\") to " ++ sort
  | .cannotAdd left right =>
    "unsupported operand type(s) for +: '" ++ left ++ "' and '" ++ right ++ "'"
  | .failed text => text

namespace Value

/-! ### Sums -/

/-- The name of the sort of a value. -/
def sort : Value → String
  | .none => "NoneType"
  | .bool _ => "bool"
  | .int _ => "int"
  | .str _ => "str"
  | .list _ => "list"
  | .tuple _ => "tuple"
  | .node kind _ => kind.name

/-- A value as a number; truth values count as one and zero. -/
def number? : Value → Option Int
  | .int n => some n
  | .bool b => some (if b then 1 else 0)
  | _ => Option.none

/-- The components of a tuple or a node. -/
def components? : Value → Option (List Value)
  | .tuple items | .node _ items => some items
  | _ => Option.none

/-- The sum of two values: of numbers, or of two sequences of one sort, one behind the other. -/
def plus (a b : Value) : Except ValueFault Value :=
  match a, b with
  | .str s, .str t => .ok (.str (s ++ t))
  | .list l, .list m => .ok (.list (l ++ m))
  | .str _, _ | .list _, _ => .error (.cannotJoin a.sort b.sort)
  | _, _ =>
    match a.components?, b.components?, a.number?, b.number? with
    | some l, some m, _, _ => .ok (.tuple (l ++ m))
    | some _, Option.none, _, _ => .error (.cannotJoin "tuple" b.sort)
    | Option.none, _, some m, some n => .ok (.int (m + n))
    | _, _, _, _ => .error (.cannotAdd a.sort b.sort)

/-! ### Printing -/

/-- Texts in parentheses; a single one is followed by a comma. -/
def parenthesized : List String → String
  | [one] => "(" ++ one ++ ",)"
  | parts => "(" ++ ", ".intercalate parts ++ ")"

/-- Fields in print, each behind its name. -/
def renderFields (names values : List String) : String :=
  ", ".intercalate ((names.zip values).map fun (name, value) => name ++ "=" ++ value)

mutual

/-- A value in print. -/
def render : Value → String
  | .none => "None"
  | .bool true => "True"
  | .bool false => "False"
  | .int n => toString n
  | .str s => Text.quoted s
  | .list items => "[" ++ ", ".intercalate (renderAll items) ++ "]"
  | .tuple items => parenthesized (renderAll items)
  | .node kind fields => kind.name ++ "(" ++ renderFields kind.fields (renderAll fields) ++ ")"

/-- Values in print, one by one. -/
def renderAll : List Value → List String
  | [] => []
  | v :: rest => v.render :: renderAll rest

end

end Value

end LexParse
