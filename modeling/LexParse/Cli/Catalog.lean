import LexParse.Description.Builtin

/-!
# Catalogs of descriptions

The command line refers to a description by the dotted name of a module and, behind a colon, a name
in it. A catalog holds the modules that can be referred to.
-/

namespace LexParse.Cli

/-- What a name in a module stands for. -/
inductive Definition where
  /-- A description. -/
  | description (d : Description)
  /-- A kind of node. -/
  | node (kind : NodeKind)
  /-- Anything else. -/
  | other

/-- A module. -/
structure Module where
  /-- Its dotted name. -/
  name : String
  /-- The names in it. -/
  definitions : List (String × Definition) := []
  /-- Other modules may lie in it. -/
  isPackage : Bool := false

/-- The modules that can be referred to. -/
abbrev Catalog := List Module

/-- Why a reference does not lead to a description. -/
inductive ReferenceFault where
  /-- The reference lacks a module or a name. -/
  | malformed (reference : String)
  /-- There is no such module; the reason is given. -/
  | cannotLoad (location reason : String)
  /-- The module has no such name. -/
  | noAttribute (location name : String)
  /-- The name stands for something else. -/
  | notDescription (reference : String)
  /-- The module is named relative to another one, and there is no other one. -/
  | relative (location : String)
  /-- The name stands for a kind of node, and no node can be made without its fields. -/
  | noFields (kind : NodeKind)
deriving DecidableEq, Repr

/-- Items in a sentence. -/
def enumerated : List String → String
  | [] => ""
  | [one] => one
  | [one, two] => one ++ " and " ++ two
  | items => ", ".intercalate items.dropLast ++ ", and " ++ items.getLast?.getD ""

/-- A fault that the program does not expect of a reference, so it does not report it as an
error. -/
def ReferenceFault.isUnexpected : ReferenceFault → Bool
  | .relative _ | .noFields _ => true
  | _ => false

/-- The wording of a fault. -/
def ReferenceFault.message : ReferenceFault → String
  | .malformed reference =>
    "description must be given as MODULE:ATTR or PATH.py:ATTR, not " ++ reference
  | .cannotLoad location reason => "cannot load " ++ location ++ ": " ++ reason
  | .noAttribute location name => location ++ " has no attribute " ++ name
  | .notDescription reference => reference ++ " is not a Syntax"
  | .relative location =>
    "the 'package' argument is required to perform a relative import for " ++ Text.quoted location
  | .noFields kind =>
    kind.name ++ ".__new__() missing " ++ toString kind.fields.length ++
      " required positional argument" ++ (if kind.fields.length = 1 then "" else "s") ++ ": " ++
      enumerated (kind.fields.map Text.quoted)

/-- Divide a text at its last colon. -/
def splitLastColon (s : List Char) : Option (List Char × List Char) :=
  let last := s.reverse.takeWhile (· != ':')
  if last.length = s.length then none
  else some (s.take (s.length - last.length - 1), last.reverse)

/-- The dotted names that lead to a module, outermost first. -/
def ancestors (location : String) : List String :=
  let parts := location.splitOn "."
  (List.range parts.length).map fun n => ".".intercalate (parts.take (n + 1))

namespace Catalog

/-- The module of a dotted name. -/
def find? (c : Catalog) (name : String) : Option Module := List.find? (·.name == name) c

/-- Why a module cannot be found: the first of the names leading to it that is missing, and whether
it was looked for in a module that holds no others. `parent` is the module before the names. -/
def missing (c : Catalog) (parent : Option Module) : List String → Option String
  | [] => none
  | name :: rest =>
    match c.find? name with
    | some found => missing c (some found) rest
    | none =>
      let tail :=
        match parent with
        | some m => if m.isPackage then "" else "; " ++ Text.quoted m.name ++ " is not a package"
        | none => ""
      some ("No module named " ++ Text.quoted name ++ tail)

/-- The description a reference leads to. -/
def load (c : Catalog) (reference : String) : Except ReferenceFault Description :=
  match splitLastColon reference.toList with
  | none => .error (.malformed reference)
  | some (location, name) =>
    if location.isEmpty || name.isEmpty then .error (.malformed reference)
    else if location.head? = some '.' then .error (.relative (String.ofList location))
    else
      let location := String.ofList location
      let name := String.ofList name
      match missing c none (ancestors location), c.find? location with
      | none, some m =>
        match m.definitions.lookup name with
        | some (.description d) => .ok d
        | some (.node kind) => .error (.noFields kind)
        | some .other => .error (.notDescription reference)
        | none => .error (.noAttribute location name)
      | reason, _ => .error (.cannotLoad location (reason.getD ""))

end Catalog

/-- The name of the program. -/
def programName : String := "lrgen"

/-- The version of the program. -/
def programVersion : String := "0.3.0"

/-- The modules that come with the program. -/
def builtinModules : Catalog := [
  { name := programName, isPackage := true, definitions := [("Syntax", .description {})] },
  { name := programName ++ ".test", isPackage := true },
  { name := programName ++ ".test.grammars"
    definitions := [("arithmetic", .description Builtin.arithmetic),
      ("parens", .description Builtin.parens), ("simpl", .description Builtin.simpl),
      ("KEYWORDS", .other), ("Syntax", .description {})] ++
      Builtin.nodeKinds.map fun kind => (kind.name, .node kind) }]

end LexParse.Cli
