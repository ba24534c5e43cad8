import LexParse.Description.Basic

/-!
# Built-in descriptions

Three small languages to try the generator with: arithmetic over integers, whose grammar is
ambiguous but for its precedences; balanced parentheses; and expressions with bindings and
conditionals.
-/

namespace LexParse.Builtin

/-- The patterns have no repetitions with counts, so no room is needed for copies. -/
def room : Nat := 0

/-- Arithmetic: the value of an expression is the tuple of its operator and operands. -/
def arithmeticSteps : Describe Unit := do
  Describe.token "INT" (some .decimal)
  Describe.skip room "\\s+"
  Describe.emit room "[0-9]+" "INT"
  Describe.keyword "+" "PLUS"
  Describe.keyword "-" "MINUS"
  Describe.keyword "*" "TIMES"
  Describe.keyword "^" "POW"
  Describe.keyword "(" "LPAREN"
  Describe.keyword ")" "RPAREN"
  Describe.group .left ["PLUS", "MINUS"]
  Describe.group .left ["TIMES"]
  Describe.group .right ["POW"]
  Describe.production "expr" ["expr", "PLUS", "expr"] (.tupleOf (.str "+") [0, 2]) none
  Describe.production "expr" ["expr", "MINUS", "expr"] (.tupleOf (.str "-") [0, 2]) none
  Describe.production "expr" ["expr", "TIMES", "expr"] (.tupleOf (.str "*") [0, 2]) none
  Describe.production "expr" ["expr", "POW", "expr"] (.tupleOf (.str "^") [0, 2]) none
  Describe.production "expr" ["LPAREN", "expr", "RPAREN"] (.pick 1) none
  Describe.production "expr" ["INT"] .first none

/-- The description of arithmetic. -/
def arithmetic : Description := (Description.apply {} arithmeticSteps).2

/-- Balanced parentheses: the value of a group is the list of the groups in it. -/
def parensSteps : Describe Unit := do
  Describe.skip room "[ \\n]+"
  Describe.keyword "(" "LPAREN"
  Describe.keyword ")" "RPAREN"
  Describe.production "S" [] (.const (.list [])) none
  Describe.production "S" ["S", "LPAREN", "S", "RPAREN"] (.append 0 2) none

/-- The description of balanced parentheses. -/
def parens : Description := (Description.apply {} parensSteps).2

/-- The keywords of the expression language, with their token kinds. -/
def simplKeywords : List (String × String) :=
  [("let", "LET"), ("in", "IN"), ("if", "IF"), ("then", "THEN"), ("else", "ELSE"), ("true", "TRUE"),
    ("false", "FALSE")]

/-- An integer. -/
def intNode : NodeKind := ⟨"Int", ["value"]⟩
/-- A variable. -/
def varNode : NodeKind := ⟨"Var", ["name"]⟩
/-- A truth value. -/
def boolNode : NodeKind := ⟨"Bool", ["value"]⟩
/-- An operator with its operands. -/
def binopNode : NodeKind := ⟨"Binop", ["op", "left", "right"]⟩
/-- A binding. -/
def letNode : NodeKind := ⟨"Let", ["name", "bound", "body"]⟩
/-- A conditional. -/
def ifNode : NodeKind := ⟨"If", ["cond", "then", "else_"]⟩

/-- The kinds of nodes of the expression language. -/
def nodeKinds : List NodeKind := [intNode, varNode, boolNode, binopNode, letNode, ifNode]

/-- Expressions with bindings and conditionals: the value of an expression is its tree. -/
def simplSteps : Describe Unit := do
  Describe.token "INT" (some .decimal)
  Describe.define room "ident" "[a-zA-Z][a-zA-Z0-9_]*"
  Describe.skip room "\\s+"
  simplKeywords.forM fun (text, kind) => Describe.keyword text kind
  Describe.emit room "\x7bident\x7d" "ID"
  Describe.emit room "[0-9]+" "INT"
  Describe.keyword "<=" "LEQ"
  Describe.keyword "*" "TIMES"
  Describe.keyword "+" "PLUS"
  Describe.keyword "(" "LPAREN"
  Describe.keyword ")" "RPAREN"
  Describe.keyword "=" "EQUALS"
  Describe.group .nonassoc ["IN"]
  Describe.group .nonassoc ["ELSE"]
  Describe.group .left ["LEQ"]
  Describe.group .left ["PLUS"]
  Describe.group .left ["TIMES"]
  Describe.production "prog" ["expr"] .first none
  Describe.production "expr" ["INT"] (.node intNode [] [0]) none
  Describe.production "expr" ["ID"] (.node varNode [] [0]) none
  Describe.production "expr" ["TRUE"] (.node boolNode [.bool true] []) none
  Describe.production "expr" ["FALSE"] (.node boolNode [.bool false] []) none
  Describe.production "expr" ["expr", "LEQ", "expr"] (.node binopNode [.str "<="] [0, 2]) none
  Describe.production "expr" ["expr", "TIMES", "expr"] (.node binopNode [.str "*"] [0, 2]) none
  Describe.production "expr" ["expr", "PLUS", "expr"] (.node binopNode [.str "+"] [0, 2]) none
  Describe.production "expr" ["LPAREN", "expr", "RPAREN"] (.pick 1) none
  Describe.production "expr" ["LET", "ID", "EQUALS", "expr", "IN", "expr"]
    (.node letNode [] [1, 3, 5]) none
  Describe.production "expr" ["IF", "expr", "THEN", "expr", "ELSE", "expr"]
    (.node ifNode [] [1, 3, 5]) none

/-- The description of expressions with bindings and conditionals. -/
def simpl : Description := (Description.apply {} simplSteps).2

/-- The built-in description of a name. -/
def ofName? : String → Option Description
  | "arithmetic" => some arithmetic
  | "parens" => some parens
  | "simpl" => some simpl
  | _ => none

end LexParse.Builtin
