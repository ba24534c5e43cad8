import LexParse.Regex.Named
import LexParse.Token

/-!
# Scanning rules

A rule is a pattern and what to do with a text that it matches. Of the rules that match the longest
text the first one is taken.
-/

namespace LexParse

/-- What is done with a match. -/
inductive ScanAction where
  /-- Emit a token of a kind. -/
  | emit (kind : String)
  /-- Drop the text and go on. -/
  | skip
  /-- End the input here. -/
  | finish
deriving DecidableEq, Repr, Inhabited

/-- An action in print. -/
def ScanAction.render : ScanAction → String
  | .emit kind => "Token('" ++ kind ++ "')"
  | .skip => "Restart()"
  | .finish => "EndOfInput()"

/-- A scanning rule. -/
structure ScanRule where
  /-- What is matched. -/
  pattern : Regex
  /-- What is done with a match. -/
  action : ScanAction
  /-- The text the pattern was read from; empty if there is none. -/
  source : String
deriving DecidableEq, Inhabited

namespace ScanRule

/-- A rule in print, by its source if it has one. -/
def render (r : ScanRule) : String :=
  (if r.source.isEmpty then r.pattern.render else r.source) ++ " " ++ r.action.render

/-- Put resolved patterns in place of references. -/
def resolve (bindings : Regex.Definitions) (r : ScanRule) :
    Except Regex.ReferenceFault ScanRule :=
  (r.pattern.resolveWith bindings).map fun pattern => { r with pattern }

end ScanRule

end LexParse
