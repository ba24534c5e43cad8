import LexParse.Proofs.Automaton.Queue
import LexParse.Proofs.Automaton.WellNumbered
import LexParse.Proofs.Scan.Table

/-!
# Scan tables are total and well numbered

A scanner reads its table without a check: the class of a symbol is the place of an entry, and the
entry is the number of the next row. That no number leads outside holds of every list of rules, with
states merged or not.

The numbers are given out from a queue, while the rows come one behind the other. Here the table is
made once more in that way, and given up if a row is not that of its number; the result is the table
that the rules have.

## What is proved

* `ScanTable.wellNumbered_forRules`: the table of some rules is well numbered, every symbol has a
  column, and making the table from a queue does not fail.
-/

namespace LexParse

namespace ScanTable

/-- A table is total and well numbered: no number in its rows leads outside, and every symbol of the
alphabet has a column. -/
structure WellNumbered (t : ScanTable) : Prop where
  table : t.automaton.WellNumbered t.classes.count t.rules.length
  classify : ∀ c, t.alphabet.contains c = true →
    ∃ cls < t.classes.count, t.classes.classify c = some cls

/-- The states of some rules, merged or not, in a table that is made from a queue. There is none if
a row comes out of turn, or if more states than steps come off the queue. -/
def fromQueue (alphabet : Alphabet) (merge : Bool) (rules : List ScanRule) (steps : Nat) :
    Option Automaton.Table :=
  let classes := classesFor alphabet rules
  let nfa := Automaton.Nfa.ofRules (rules.map (·.pattern))
  let table := nfa.table classes
  if merge then (table.quotient classes.count table.partition).tabulateFromQueue steps
  else (nfa.subsets classes).tabulateFromQueue steps

theorem WellNumbered.minimize {t : ScanTable} (h : t.WellNumbered) : t.minimize.WellNumbered :=
  ⟨h.table.minimize, h.classify⟩

theorem wellNumbered_ofRules (alphabet : Alphabet) (rules : List ScanRule)
    (kinds : List TokenKind) : (ofRules alphabet rules kinds).WellNumbered where
  table := by
    have h := Automaton.Nfa.wellNumbered_table (rules.map (·.pattern))
      (classesFor alphabet rules)
    rw [List.length_map] at h
    exact h
  classify := fun _ hc => (decides_ofRules alphabet rules kinds).classify_lt hc

/-- **The table of some rules is total and well numbered**, and no row comes out of turn when the
states are numbered from a queue. -/
theorem wellNumbered_forRules (alphabet : Alphabet) (merge : Bool) (rules : List ScanRule)
    (kinds : List TokenKind) :
    (forRules alphabet merge rules kinds).WellNumbered ∧
      ∀ steps, (forRules alphabet merge rules kinds).size ≤ steps →
        fromQueue alphabet merge rules steps =
          some (forRules alphabet merge rules kinds).automaton := by
  have hplain := wellNumbered_ofRules alphabet rules kinds
  cases merge with
  | false =>
    have hscans := Automaton.Nfa.scans_subsets (rules.map (·.pattern)) (classesFor alphabet rules)
    exact ⟨hplain, fun steps => Automaton.Machine.tabulateFromQueue_of_size_le hscans.toStays
      (Automaton.Nfa.atMost_holds _) hscans.rule_dead⟩
  | true =>
    have hscans := hplain.table.scans_quotient
    exact ⟨hplain.minimize, fun steps => Automaton.Machine.tabulateFromQueue_of_size_le
      hscans.toStays (Automaton.atMost_lt _) hscans.rule_dead⟩

end ScanTable

end LexParse
