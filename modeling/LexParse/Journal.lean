/-!
# Journals

What a generation has to tell while it runs: messages of some weight, and texts to be printed. They
are kept in order, also when the generation fails.
-/

namespace LexParse

/-- The weight of a message. -/
inductive Level where
  /-- Steps of a parse. -/
  | debug
  /-- Sizes of tables. -/
  | info
  /-- Something looks wrong. -/
  | warning
  /-- Something is wrong. -/
  | error
deriving DecidableEq, Repr

/-- The name of a level. -/
def Level.name : Level → String
  | .debug => "DEBUG"
  | .info => "INFO"
  | .warning => "WARNING"
  | .error => "ERROR"

/-- The rank of a level. -/
def Level.rank : Level → Nat
  | .debug => 0
  | .info => 1
  | .warning => 2
  | .error => 3

/-- An entry of a journal. -/
inductive Entry where
  /-- A message. -/
  | message (level : Level) (text : String)
  /-- A text to be printed. -/
  | print (text : String)
deriving DecidableEq, Repr

/-- What has been told, in order. -/
abbrev Journal := List Entry

namespace Journal

/-- The messages of a journal. -/
def messages (j : Journal) : List (Level × String) :=
  j.filterMap fun
    | .message level text => some (level, text)
    | .print _ => none

/-- The messages of a journal that have at least a given weight. -/
def messagesFrom (least : Level) (j : Journal) : List String :=
  (j.messages.filter fun m => least.rank ≤ m.1.rank).map (·.2)

/-- All that a journal prints. -/
def printed (j : Journal) : String :=
  String.join (j.map fun
    | .message _ _ => ""
    | .print text => text)

end Journal

end LexParse
