import LexParse.Text.Numeral
import LexParse.Text.Quoted

/-!
# Command line arguments

A command line holds options and one positional argument, the reference to a description, in any
order. A long option may be shortened as long as only one option starts so, and takes its argument
behind an equals sign or from the next word. Short options without an argument can be bundled behind
one dash, and the first of them may have an equals sign behind it. After `--` all words are
positional. An option whose word holds `--` as its argument is given, but has nothing for an
argument.

Every word is classified first, so an ambiguous option is reported before anything else. Options
then take effect one after the other, and what is left over, or missing, is reported last.
-/

namespace LexParse.Cli

/-- The options. -/
inductive Flag where
  /-- Print a help text. -/
  | help
  /-- Print the version. -/
  | version
  /-- Choose the alphabet. -/
  | inputMode
  /-- Merge the states of the parser by their items. -/
  | lalr
  /-- Print the states of the parser. -/
  | printGraph
  /-- Print the table of the scanner. -/
  | printScanTable
  /-- Print the table of the parser. -/
  | printParseTable
  /-- Do not minimise the table of the scanner. -/
  | fast
  /-- Give warnings and errors only. -/
  | quiet
  /-- Tell every step of a parse. -/
  | trace
  /-- Print the tokens of a file. -/
  | lex
  /-- Print the value of a file. -/
  | parse
deriving DecidableEq, Repr

/-- The spellings of the options, in the order in which they are listed. -/
def spellings : List (String × Flag) := [
  ("-h", .help), ("--help", .help), ("--version", .version),
  ("-m", .inputMode), ("--input-mode", .inputMode), ("-L", .lalr), ("--lalr", .lalr),
  ("-g", .printGraph), ("--print-graph", .printGraph), ("--print-lextable", .printScanTable),
  ("--print-parsetable", .printParseTable), ("-f", .fast), ("--fast", .fast), ("-q", .quiet),
  ("--quiet", .quiet), ("-T", .trace), ("--trace", .trace), ("--lex", .lex), ("--parse", .parse)]

/-- The option of a spelling. -/
def Flag.ofSpelling? (s : String) : Option Flag := spellings.lookup s

/-- The name of an option: all its spellings. -/
def Flag.name (flag : Flag) : String :=
  "/".intercalate ((spellings.filter (·.2 == flag)).map (·.1))

/-- The option takes an argument. -/
def Flag.takesArgument : Flag → Bool
  | .inputMode | .lex | .parse => true
  | _ => false

/-- Why a command line cannot be understood. -/
inductive UsageFault where
  /-- A shortened option fits several options. -/
  | ambiguous (given : String) (candidates : List String)
  /-- An option lacks its argument. -/
  | expectedArgument (flag : Flag)
  /-- An option does not take this argument. -/
  | invalidChoice (flag : Flag) (given : String)
  /-- An option that takes no argument has one. -/
  | ignoredArgument (flag : Flag) (given : String)
  /-- Two options exclude each other. -/
  | excluded (flag other : Flag)
  /-- There is no reference to a description. -/
  | missingDescription
  /-- Words that are left over. -/
  | unrecognized (words : List String)
deriving DecidableEq, Repr

/-- The alphabets that can be chosen. -/
def inputModes : List String := ["bytes", "unicode"]

/-- The wording of a fault. -/
def UsageFault.message : UsageFault → String
  | .ambiguous given candidates =>
    "ambiguous option: " ++ given ++ " could match " ++ ", ".intercalate candidates
  | .expectedArgument flag => "argument " ++ flag.name ++ ": expected one argument"
  | .invalidChoice flag given =>
    "argument " ++ flag.name ++ ": invalid choice: " ++ Text.quoted given ++ " (choose from " ++
      ", ".intercalate (inputModes.map Text.quoted) ++ ")"
  | .ignoredArgument flag given =>
    "argument " ++ flag.name ++ ": ignored explicit argument " ++ Text.quoted given
  | .excluded flag other =>
    "argument " ++ flag.name ++ ": not allowed with argument " ++ other.name
  | .missingDescription => "the following arguments are required: description"
  | .unrecognized words => "unrecognized arguments: " ++ " ".intercalate words

/-! ### Words -/

/-- The argument of an option. -/
inductive Argument where
  /-- A text. -/
  | text (s : String)
  /-- Nothing: the argument was written `--`. -/
  | nothing
deriving DecidableEq, Repr

/-- The text of an argument. -/
def Argument.text? : Argument → Option String
  | .text s => some s
  | .nothing => none

/-- The argument that the word of an option holds. -/
def Argument.ofAttached (s : List Char) : Argument :=
  if s = ['-', '-'] then .nothing else .text (String.ofList s)

/-- A classified word. -/
inductive Word where
  /-- A positional word. -/
  | positional (text : String)
  /-- The word `--`. -/
  | separator
  /-- An option, with the argument its word holds; `long` when it was spelled with two dashes. -/
  | option (flag : Flag) (long : Bool) (attached : Option (List Char))
  /-- A word that looks like an option and is none. -/
  | unknown (text : String)
deriving DecidableEq, Repr

/-- The word itself, where it is no option. -/
def Word.text : Word → String
  | .positional text | .unknown text => text
  | .separator => "--"
  | .option flag _ _ => flag.name

/-- The word is an option, known or not. -/
def Word.isOption : Word → Bool
  | .option .. | .unknown _ => true
  | _ => false

/-- Divide a word at its first equals sign. -/
def splitEquals (s : List Char) : Option (List Char × List Char) :=
  match s.dropWhile (· != '=') with
  | [] => none
  | _ :: argument => some (s.takeWhile (· != '='), argument)

/-- A decimal digit of any script. -/
def isDigit (c : Char) : Bool := (Text.decimalDigit? c).isSome

/-- The text without the end of its last line. -/
def dropLineEnd (s : List Char) : List Char :=
  if s.getLast? = some '\n' then s.dropLast else s

/-- Digits, with a point before the last ones if there is one. -/
def isDecimal (s : List Char) : Bool :=
  match s.dropWhile isDigit with
  | [] => !s.isEmpty
  | '.' :: fraction => !fraction.isEmpty && fraction.all isDigit
  | _ => false

/-- A minus sign and a number, on a line that may be ended. -/
def isNegativeNumber : List Char → Bool
  | '-' :: rest => isDecimal (dropLineEnd rest)
  | _ => false

/-- What a word that is no spelling of an option may stand for: the spelling, the option and its
argument. -/
def interpretations (s : List Char) : List (String × Word) :=
  match s with
  | '-' :: '-' :: _ =>
    let (given, attached) :=
      match splitEquals s with
      | some (given, argument) => (given, some argument)
      | none => (s, none)
    (spellings.filter fun p => given.isPrefixOf p.1.toList).map fun p =>
      (p.1, .option p.2 true attached)
  | '-' :: c :: rest =>
    spellings.filterMap fun p =>
      if p.1.toList = ['-', c] then some (p.1, .option p.2 false (some rest))
      else if s.isPrefixOf p.1.toList then some (p.1, .option p.2 true none)
      else none
  | _ => []

/-- A spelling has two dashes. -/
def isLong (s : List Char) : Bool := ['-', '-'].isPrefixOf s

/-- Classify a word that starts with a dash and is no spelling of an option. -/
def classifyOther (word : String) : Except UsageFault Word :=
  let s := word.toList
  match interpretations s with
  | [(_, w)] => .ok w
  | [] =>
    if isNegativeNumber s || s.contains ' ' then .ok (.positional word) else .ok (.unknown word)
  | several => .error (.ambiguous word (several.map (·.1)))

/-- The option before an equals sign, if there is one. -/
def beforeEquals (s : List Char) : Option Word :=
  match splitEquals s with
  | some (spelling, argument) =>
    (Flag.ofSpelling? (String.ofList spelling)).map fun flag =>
      .option flag (isLong spelling) (some argument)
  | none => none

/-- Classify a word. -/
def classify (word : String) : Except UsageFault Word :=
  let s := word.toList
  if s.head? != some '-' then .ok (.positional word)
  else
    match Flag.ofSpelling? word with
    | some flag => .ok (.option flag (isLong s) none)
    | none =>
      if s.length = 1 then .ok (.positional word)
      else
        match beforeEquals s with
        | some w => .ok w
        | none => classifyOther word

/-- Classify all words. -/
def classifyAll : List String → Except UsageFault (List Word)
  | [] => .ok []
  | "--" :: rest => .ok (.separator :: rest.map .positional)
  | word :: rest => return (← classify word) :: (← classifyAll rest)

/-! ### Options in a word -/

/-- What the last option of a word needs. -/
inductive Tail where
  /-- Nothing. -/
  | done
  /-- It has its argument. -/
  | argument (flag : Flag) (given : Argument)
  /-- Its argument is the next word. -/
  | pending (flag : Flag)

/-- Read an option that ends its word. The answer has the options without an argument, in order. -/
def readAlone (flag : Flag) : List Flag × Tail :=
  if flag.takesArgument then ([], .pending flag) else ([flag], .done)

/-- Read what stands behind a short option: its argument, or more options bundled with it. -/
def readBundle (flag : Flag) (behind : List Char) : Except UsageFault (List Flag × Tail) :=
  if flag.takesArgument then .ok ([], .argument flag (.ofAttached behind))
  else
    match behind with
    | [] => .error (.ignoredArgument flag "")
    | c :: rest =>
      match Flag.ofSpelling? (String.ofList ['-', c]) with
      | none => .error (.ignoredArgument flag (String.ofList (c :: rest)))
      | some other => do
        let (flags, tail) ← if rest.isEmpty then .ok (readAlone other) else readBundle other rest
        return (flag :: flags, tail)

/-- Read the options of a word. -/
def readOption (flag : Flag) (long : Bool) :
    Option (List Char) → Except UsageFault (List Flag × Tail)
  | none => .ok (readAlone flag)
  | some behind =>
    if long && !flag.takesArgument then .error (.ignoredArgument flag (String.ofList behind))
    else readBundle flag behind

/-! ### Command lines -/

/-- What a command line asks for. -/
structure Settings where
  /-- The name of the alphabet. -/
  alphabet : Argument := .text "bytes"
  /-- Merge the states of the parser by their items. -/
  lalr : Bool := false
  /-- Print the states of the parser. -/
  printGraph : Bool := false
  /-- Print the table of the scanner. -/
  printScanTable : Bool := false
  /-- Print the table of the parser. -/
  printParseTable : Bool := false
  /-- Do not minimise the table of the scanner. -/
  fast : Bool := false
  /-- Give warnings and errors only. -/
  quiet : Bool := false
  /-- Tell every step of a parse. -/
  trace : Bool := false
  /-- The file whose tokens are printed. -/
  lex : Option Argument := none
  /-- The file whose value is printed. -/
  parse : Option Argument := none
  /-- The reference to the description. -/
  description : Option String := none
deriving DecidableEq, Repr

/-- What to do. -/
inductive Request where
  /-- Print a help text. -/
  | help
  /-- Print the version. -/
  | version
  /-- Process a description. -/
  | process (settings : Settings) (description : String)

/-- Why the reading of a command line ends early: a fault, or a request that is answered at once. -/
inductive Ending where
  /-- The command line cannot be understood. -/
  | fault (fault : UsageFault)
  /-- The request is answered at once. -/
  | answer (request : Request)

/-- An option without an argument takes effect. -/
def Settings.raise (s : Settings) : Flag → Except Ending Settings
  | .help => .error (.answer .help)
  | .version => .error (.answer .version)
  | .lalr => .ok { s with lalr := true }
  | .printGraph => .ok { s with printGraph := true }
  | .printScanTable => .ok { s with printScanTable := true }
  | .printParseTable => .ok { s with printParseTable := true }
  | .fast => .ok { s with fast := true }
  | .quiet => .ok { s with quiet := true }
  | .trace => .ok { s with trace := true }
  | .inputMode | .lex | .parse => .ok s

/-- Check the name of an alphabet. -/
def checkMode (flag : Flag) : Argument → Except UsageFault Unit
  | .nothing => .ok ()
  | .text name => if inputModes.contains name then .ok () else .error (.invalidChoice flag name)

/-- An option with an argument takes effect. -/
def Settings.set (s : Settings) (flag : Flag) (argument : Argument) : Except Ending Settings :=
  match flag with
  | .inputMode => do
    (checkMode flag argument).mapError .fault
    return { s with alphabet := argument }
  | .lex =>
    if s.parse.isSome then .error (.fault (.excluded .lex .parse))
    else .ok { s with lex := some argument }
  | .parse =>
    if s.lex.isSome then .error (.fault (.excluded .parse .lex))
    else .ok { s with parse := some argument }
  | _ => .ok s

/-- The words behind the last option. The first positional one is the description, if there is none
yet. -/
def readLast (s : Settings) (extras : List String) (words : List Word) : Settings × List String :=
  match s.description, words with
  | none, .separator :: .positional text :: rest =>
    ({ s with description := some text }, extras ++ rest.map Word.text)
  | none, .positional text :: .separator :: rest =>
    ({ s with description := some text }, extras ++ rest.map Word.text)
  | none, .positional text :: rest =>
    ({ s with description := some text }, extras ++ rest.map Word.text)
  | _, rest => (s, extras ++ rest.map Word.text)

/-- Read classified words. `extras` are the words left over. -/
def readWords (s : Settings) (extras : List String) :
    List Word → Except Ending (Settings × List String)
  | [] => .ok (s, extras)
  | .unknown text :: rest => readWords s (extras ++ [text]) rest
  | .option flag long attached :: rest => do
    let (flags, tail) ← (readOption flag long attached).mapError .fault
    match tail, rest with
    | .done, rest => readWords (← flags.foldlM Settings.raise s) extras rest
    | .argument other given, rest =>
      readWords (← (← flags.foldlM Settings.raise s).set other given) extras rest
    | .pending other, .positional text :: rest =>
      readWords (← (← flags.foldlM Settings.raise s).set other (.text text)) extras rest
    | .pending other, _ => .error (.fault (.expectedArgument other))
  | .positional text :: rest =>
    if rest.any Word.isOption then
      if s.description.isNone then readWords { s with description := some text } extras rest
      else readWords s (extras ++ [text]) rest
    else .ok (readLast s extras (.positional text :: rest))
  | .separator :: rest => .ok (readLast s extras (.separator :: rest))

/-- Understand a command line. -/
def readArguments (words : List String) : Except UsageFault Request :=
  match classifyAll words with
  | .error fault => .error fault
  | .ok words =>
    match readWords {} [] words with
    | .error (.fault fault) => .error fault
    | .error (.answer request) => .ok request
    | .ok (settings, extras) =>
      match settings.description with
      | none => .error .missingDescription
      | some description =>
        if extras.isEmpty then .ok (.process settings description)
        else .error (.unrecognized extras)

end LexParse.Cli
