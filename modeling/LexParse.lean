import LexParse.Main
import LexParse.Lr.Validity
import LexParse.Scan.Longest
import LexParse.Proofs.Parser.Completeness
import LexParse.Proofs.Parser.Soundness
import LexParse.Proofs.Scan.Lexer
import LexParse.Proofs.Lr.Inheritance
import LexParse.Proofs.Lr.Canonical
import LexParse.Proofs.Lr.Merging
import LexParse.Proofs.Lr.Agreement
import LexParse.Proofs.Parser.Agreement
import LexParse.Proofs.Grammar.Viable
import LexParse.Proofs.Lr.Prefixes
import LexParse.Proofs.Parser.Rejection
import LexParse.Proofs.Lr.Comparison
import LexParse.Proofs.Lr.Operands
import LexParse.Proofs.Grammar.Operators
import LexParse.Proofs.Parser.Precedence
import LexParse.Proofs.Parser.Safety
import LexParse.Proofs.Lr.Termination
import LexParse.Proofs.Parser.Termination
import LexParse.Proofs.Parser.Arithmetic
import LexParse.Proofs.DeclarationOrder
import LexParse.Proofs.Automaton.Minimal
import LexParse.Proofs.Scan.Minimal
import LexParse.Proofs.Scan.Lockstep
import LexParse.Proofs.Scan.Resuming
import LexParse.Proofs.Description.Calls
import LexParse.Proofs.Description.Entries
import LexParse.Proofs.Description.Reserved
import LexParse.Proofs.Description.Consistency
import LexParse.Proofs.Description.Patterns
import LexParse.Proofs.Scan.Accounts
import LexParse.Proofs.Scan.Sharing
import LexParse.Proofs.Regex.Notation
import LexParse.Proofs.Regex.Joining
import LexParse.Proofs.Lr.ValidItems
import LexParse.Proofs.Regex.Classes
import LexParse.Proofs.Scan.Progress
import LexParse.Proofs.CharSet.Algebra
import LexParse.Proofs.SymbolClasses.Partition
import LexParse.Proofs.Scan.WellNumbered
import LexParse.Proofs.Lr.LeastClosure
