import LexParse.Cli.Arguments
import LexParse.Cli.Catalog
import LexParse.Cli.Directory
import LexParse.Compile

/-!
# Running the command line

What the program prints and how it ends, as a function of its arguments, the catalog of descriptions
and the files it may read. Messages of the generation and of the parse go to the error output, as
far as they have the weight that the settings ask for. Most faults are reported as an error; some
the program does not expect, and they end it as they are.
-/

namespace LexParse.Cli

/-- A fault that the program does not expect. -/
inductive Uncaught where
  /-- A reference is at fault. -/
  | reference (fault : ReferenceFault)
  /-- The settings ask for tables that cannot be generated. -/
  | compile (fault : CompileFault)
  /-- The path of a file is at fault. -/
  | file (path : String) (fault : FileFault)
  /-- A scan is at fault. -/
  | scan (fault : ScanFault)
  /-- A value cannot be computed. -/
  | value (fault : ValueFault)

/-- The wording of a fault. -/
def Uncaught.message : Uncaught → String
  | .reference fault => fault.message
  | .compile fault => fault.message
  | .file path fault => fault.message path
  | .scan fault => fault.message
  | .value fault => fault.message

/-- How a run of the program ends. -/
inductive Ended where
  /-- With a status. -/
  | exit (status : Nat)
  /-- By a fault that the program does not expect. -/
  | uncaught (fault : Uncaught)

/-- What a run of the program leaves. -/
structure Output where
  /-- What it prints. -/
  stdout : String := ""
  /-- What it prints to the error output. -/
  stderr : String := ""
  /-- How it ends. -/
  ended : Ended := .exit 0

namespace Output

/-- Print more. -/
def print (o : Output) (text : String) : Output := { o with stdout := o.stdout ++ text }

/-- Give a message. -/
def complain (o : Output) (line : String) : Output := { o with stderr := o.stderr ++ line ++ "\n" }

/-- End by an error. -/
def failed (o : Output) (message : String) : Output :=
  { o.complain ("error: " ++ message) with ended := .exit 1 }

/-- End by a fault that is not expected. -/
def aborted (o : Output) (fault : Uncaught) : Output := { o with ended := .uncaught fault }

end Output

/-- What the program can see. -/
structure Environment where
  /-- The descriptions it can be referred to. -/
  catalog : Catalog
  /-- The content of the file at a path. -/
  content : String → Except FileFault (List UInt8)
  /-- The most steps a parse may take. -/
  limit : Nat

/-- The least weight of the messages that are given. -/
def Settings.level (s : Settings) : Level :=
  if s.trace then .debug else if s.quiet then .warning else .info

/-- What to generate. -/
def Settings.options (s : Settings) : Options :=
  { method := if s.lalr then .merged else .canonical
    alphabet := s.alphabet.text?
    minimize := !s.fast
    printGraph := s.printGraph }

/-- A line of a trace. Its parts are not filled in: the message is printed as it was handed over. -/
def traceLine : String := "%s # %s %s %r"

/-- End by a fault of a reference. -/
def Output.failedReference (o : Output) (fault : ReferenceFault) : Output :=
  if fault.isUnexpected then o.aborted (.reference fault) else o.failed fault.message

/-- End by a fault of a generation. -/
def Output.failedCompile (o : Output) : CompileFault → Output
  | .noAlphabet => o.aborted (.compile .noAlphabet)
  | fault => o.failed fault.message

/-- End by a fault of a file. -/
def Output.failedFile (o : Output) (path : String) (fault : FileFault) : Output :=
  if fault.isUnexpected then o.aborted (.file path fault) else o.failed (fault.message path)

/-- End by a fault of a scan. -/
def Output.failedScan (o : Output) : ScanFault → Output
  | .payload fault => o.aborted (.value fault)
  | .noColumn => o.aborted (.scan .noColumn)
  | fault => o.failed fault.message

/-- End by a fault of an input. -/
def Output.failedInput (o : Output) : InputFault → Output
  | .compile fault => o.failedCompile fault
  | .scan fault => o.failedScan fault
  | .parse (.rejected rejection) => o.failed rejection.message
  | .parse (.scan fault) => o.failedScan fault
  | .parse (.value fault) => o.aborted (.value fault)
  | .parse .stuck => o.failed "the parse table has no entry"
  | .unfinished => o.failed "the parse does not end"

/-- A token in the listing of a file. -/
def tokenLine (t : Token) : String :=
  t.position.render ++ " " ++ t.kind ++ " " ++ t.value.render ++ "\n"

/-- Go on with the path and the content of the file that an argument names. -/
def Output.withFile (env : Environment) (file : Argument) (o : Output)
    (next : String → List UInt8 → Output) : Output :=
  match file with
  | .nothing => o.failedFile "" .noPath
  | .text path =>
    match env.content path with
    | .error fault => o.failedFile path fault
    | .ok bytes => next path bytes

/-- Print the tokens of a file. -/
def runLex (env : Environment) (tables : Compiled) (file : Argument) (o : Output) : Output :=
  o.withFile env file fun file bytes =>
    match tables.lexer (.bytes bytes) file with
    | .error fault => o.failedInput fault
    | .ok lexer =>
      match lexer.tokens with
      | (_, some fault, _) => o.failedScan fault
      | (tokens, none, _) => o.print (String.join ((tokens.takeWhile (!·.isEnd)).map tokenLine))

/-- Print the value of a file. -/
def runParse (env : Environment) (tables : Compiled) (trace : Bool) (file : Argument)
    (o : Output) : Output :=
  o.withFile env file fun file bytes =>
    let (result, events) := tables.parse (.bytes bytes) file env.limit
    let o := if trace then events.foldl (fun o _ => o.complain traceLine) o else o
    match result with
    | .ok value => o.print (value.render ++ "\n")
    | .error fault => o.failedInput fault

/-- Print what the settings ask for. -/
def runTables (env : Environment) (s : Settings) (tables : Compiled) (o : Output) : Output :=
  let o := if s.printParseTable then
    o.print ((tables.parseTable.map (·.render)).getD "") else o
  let o := if s.printScanTable then
    o.print ((tables.scanTable.map (·.render)).getD "") else o
  match s.lex, s.parse with
  | some file, _ => runLex env tables file o
  | none, some file => runParse env tables s.trace file o
  | none, none => o

/-- Process a description. -/
def process (env : Environment) (s : Settings) (reference : String) : Output :=
  match env.catalog.load reference with
  | .error fault => Output.failedReference {} fault
  | .ok d =>
    let (result, journal) := d.compile s.options
    let o := (journal.messagesFrom s.level).foldl Output.complain { stdout := journal.printed }
    match result with
    | .error fault => o.failedCompile fault
    | .ok tables => runTables env s tables o

/-- A short help text. -/
def helpText : String :=
  "usage: " ++ programName ++ " [options] description\n\noptions:\n" ++
    String.join (spellings.map fun p => "  " ++ p.1 ++ "\n")

/-- Answer a request. -/
def answer (env : Environment) : Request → Output
  | .help => { stdout := helpText }
  | .version => { stdout := programName ++ " " ++ programVersion ++ "\n" }
  | .process s reference => process env s reference

/-- The message about a command line that cannot be understood. -/
def usageMessage (fault : UsageFault) : String := programName ++ ": error: " ++ fault.message

/-- Run the program. A command line that cannot be understood ends it with status two. -/
def run (env : Environment) (words : List String) : Output :=
  match readArguments words with
  | .error fault => { stderr := usageMessage fault, ended := .exit 2 }
  | .ok request => answer env request

end LexParse.Cli
