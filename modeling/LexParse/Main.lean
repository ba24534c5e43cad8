import LexParse.Cli.Run

/-!
# The command line program

Reads the files that the arguments name and prints what `Cli.run` says.
-/

open LexParse LexParse.Cli

/-- The most steps a parse may take. -/
def stepLimit : Nat := 1000000000000

/-- Why the system could not open a file. -/
def faultOf : IO.Error → FileFault
  | .inappropriateType _ code _ =>
    if code = 20 ∨ code = -20 then .notDirectory else .isDirectory
  | .invalidArgument .. => .nameTooLong
  | _ => .missing

/-- The content of the file at a path. -/
def contentOf (path : String) : IO (Except FileFault (List UInt8)) := do
  if path.toList.contains (Char.ofNat 0) then return .error .nullCharacter
  try
    return .ok (← IO.FS.readBinFile path).toList
  catch error => return .error (faultOf error)

/-- The paths of the files that a request reads. -/
def pathsOf : Request → List String
  | .process s _ => (s.lex.toList ++ s.parse.toList).filterMap Argument.text?
  | _ => []

/-- The program. -/
def main (args : List String) : IO UInt32 := do
  let paths := match readArguments args with
    | .ok request => pathsOf request
    | .error _ => []
  let contents ← paths.mapM fun path => return (path, ← contentOf path)
  let env : Environment :=
    { catalog := builtinModules
      content := fun path => (contents.lookup path).getD (.error .missing)
      limit := stepLimit }
  let output := run env args
  IO.print output.stdout
  IO.eprint output.stderr
  match output.ended with
  | .exit status =>
    if status == 2 then IO.eprintln ""
    return status.toUInt32
  | .uncaught fault =>
    IO.eprintln fault.message
    return 1
