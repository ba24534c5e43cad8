import LexParse.Proofs.Automaton.Minimal
import LexParse.Proofs.Scan.Table

/-!
# Scan tables with no state too many

The states of a scan table are numbered from the start on, and merging leaves only states that some
word tells apart. The start is an exception: it is a state of its own even if it matches what
another state matches, because nothing may be matched before a symbol has been read.

## What is proved

* `ScanTable.minimal_forRules`: in a minimised table every state but the dead one can be reached,
  and any two states but the start are told apart by a word.
-/

namespace LexParse

namespace ScanTable

theorem total_ofRules (alphabet : Alphabet) (rules : List ScanRule) (kinds : List TokenKind) :
    (ofRules alphabet rules kinds).automaton.Total (ofRules alphabet rules kinds).classes.count :=
  (decides_ofRules alphabet rules kinds).total

theorem even_ofRules (alphabet : Alphabet) (rules : List ScanRule) (kinds : List TokenKind) :
    Automaton.Even (ofRules alphabet rules kinds).classes.count
      (ofRules alphabet rules kinds).automaton.rows :=
  Automaton.even_tabulate _ _

theorem leavesStart_ofRules (alphabet : Alphabet) (rules : List ScanRule)
    (kinds : List TokenKind) : (ofRules alphabet rules kinds).automaton.LeavesStart
      (ofRules alphabet rules kinds).classes.count :=
  Automaton.Nfa.leavesStart_table _ _

/-- No state too many: every state but the dead one can be reached from the start, and any two
states but the start are told apart by a word over the symbol classes. -/
structure Minimal (t : ScanTable) : Prop where
  reached : ∀ p < t.size, p ≠ t.automaton.dead → ∃ cs : List Nat, (∀ c ∈ cs, c < t.classes.count) ∧
    cs.foldl t.automaton.next t.automaton.start = p
  apart : ∀ p < t.size, ∀ q < t.size, p ≠ q → p ≠ t.automaton.start → q ≠ t.automaton.start →
    ∃ cs : List Nat, (∀ c ∈ cs, c < t.classes.count) ∧
      t.accepting (cs.foldl t.automaton.next p) ≠ t.accepting (cs.foldl t.automaton.next q)

theorem minimal_minimize {t : ScanTable} (ht : t.automaton.Total t.classes.count)
    (hrows : Automaton.Even t.classes.count t.automaton.rows)
    (hstart : t.automaton.LeavesStart t.classes.count) : t.minimize.Minimal where
  reached := fun _ hp hdead => Automaton.Table.exists_word_minimize ht hp hdead
  apart := fun _ hp _ hq hne hps hqs =>
    Automaton.Table.apart_minimize ht hrows hstart hp hq hne hps hqs

/-- **A minimised table has no state too many.** -/
theorem minimal_forRules (alphabet : Alphabet) (rules : List ScanRule) (kinds : List TokenKind) :
    (forRules alphabet true rules kinds).Minimal :=
  minimal_minimize (total_ofRules alphabet rules kinds) (even_ofRules alphabet rules kinds)
    (leavesStart_ofRules alphabet rules kinds)

end ScanTable

end LexParse
