import LexParse.Proofs.Generation
import LexParse.Proofs.Regex.Named

/-!
# The named patterns of a description

A scanner is generated from rules with resolved patterns in place of references. Neither the
question whether an expression matches the empty text nor the construction of its automaton has an
answer for a reference; both are only asked once no reference is left.

## What is proved

* `Description.declaredRules_of_resolveRules`: the rules are the declared ones, with a solution of
  the named patterns in place of references.
* `Description.buildable_of_resolveRules`: the rules are left without references.
* `Description.resolves_patterns`: when patterns can be resolved, to what, and what follows for the
  scanner.
-/

namespace LexParse

open Regex

/-- Whether an expression without references matches the empty word is known. -/
theorem Regex.exists_matchesEmpty? {r : Regex} (h : r.references = []) :
    ∃ answer, r.matchesEmpty? = some answer := by
  induction r with
  | empty | chars set | opt a | star a => exact ⟨_, rfl⟩
  | named name => cases h
  | seq a b iha ihb | alt a b iha ihb =>
    obtain ⟨hleft, hright⟩ := List.append_eq_nil_iff.1 h
    obtain ⟨x, hx⟩ := iha hleft
    obtain ⟨y, hy⟩ := ihb hright
    rw [matchesEmpty?, hx, hy]
    cases x <;> exact ⟨_, rfl⟩

namespace Description

open Generate

variable {d : Description} {options : Options} {rules : List ScanRule}

/-- What an automaton can be built from: no pattern has a reference, and of each it is known whether
it matches the empty text. -/
structure Buildable (rules : List ScanRule) : Prop where
  references : ∀ rule ∈ rules, rule.pattern.references = []
  matchesEmpty? : ∀ rule ∈ rules, ∃ answer, rule.pattern.matchesEmpty? = some answer

/-- The rule is a declared one with the bindings in place of the references of its pattern. -/
structure Substituted (bindings : Definitions) (declared rule : ScanRule) : Prop where
  pattern : declared.pattern.resolveWith bindings = .ok rule.pattern
  action : rule.action = declared.action
  source : rule.source = declared.source

theorem substituted_of_resolve {bindings : Definitions} {declared rule : ScanRule}
    (h : declared.resolve bindings = .ok rule) : Substituted bindings declared rule := by
  obtain ⟨pattern, hpattern, rfl⟩ := map_eq_ok_iff.1 h
  exact ⟨hpattern, rfl, rfl⟩

theorem exists_substituted (h : d.resolveRules = .ok rules) : ∃ bindings,
    resolveAll d.patterns = .ok bindings ∧ List.Forall₂ (Substituted bindings) d.rules rules := by
  obtain ⟨bindings, hbindings, h⟩ := bind_eq_ok_iff.1 h
  exact ⟨bindings, hbindings, (forall₂_of_mapM_eq_ok h).imp fun _ _ => substituted_of_resolve⟩

theorem buildable_of_resolveRules (h : d.resolveRules = .ok rules) : Buildable rules := by
  obtain ⟨bindings, hbindings, hrules⟩ := exists_substituted h
  have hfree := (advances_of_resolveAll hbindings).settled.free
  have hreferences : ∀ rule ∈ rules, rule.pattern.references = [] := by
    intro rule hrule
    obtain ⟨declared, -, hdeclared⟩ := exists_mem_of_forall₂ hrules.flip hrule
    exact references_of_resolveWith hfree hdeclared.pattern
  exact ⟨hreferences, fun rule hrule => exists_matchesEmpty? (hreferences rule hrule)⟩

/-- A scanner is generated from rules without references, or there is a fault of its description. -/
theorem scannerOutcome_cases (d : Description) (options : Options) (name : String) :
    (∃ fault, d.scannerOutcome { options with alphabet := some name } = .error fault ∧
      (fault = .unknownAlphabet name ∨ (∃ reason, fault = .reference reason) ∨ fault = .noRules)) ∨
    ∃ alphabet rules table, Alphabet.ofName? name = some alphabet ∧ d.resolveRules = .ok rules ∧
      rules ≠ [] ∧ Buildable rules ∧
      table = (if options.minimize then (ScanTable.ofRules alphabet rules d.kinds).minimize
        else ScanTable.ofRules alphabet rules d.kinds) ∧
      d.scannerOutcome { options with alphabet := some name } =
        .ok (table, (emptyMatching rules).map (·.2)) := by
  cases halphabet : Alphabet.ofName? name with
  | none => exact .inl ⟨_, by simp [scannerOutcome, Options.findAlphabet, halphabet]; rfl, .inl rfl⟩
  | some alphabet =>
    have hfind : Options.findAlphabet { options with alphabet := some name } = .ok alphabet := by
      simp [Options.findAlphabet, halphabet]
    cases hrules : d.resolveRules with
    | error reason =>
      refine .inl ⟨.reference reason, ?_, .inr (.inl ⟨reason, rfl⟩)⟩
      rw [scannerOutcome, hfind, hrules]
      rfl
    | ok rules =>
      by_cases hne : rules = []
      · refine .inl ⟨.noRules, ?_, .inr (.inr rfl)⟩
        rw [scannerOutcome, hfind, hrules, hne]
        rfl
      · exact .inr ⟨alphabet, rules, _, rfl, rfl, hne, buildable_of_resolveRules hrules, rfl,
          (d.scannerOutcome_eq_ok_iff _).2 ⟨alphabet, rules, hfind, hrules, hne, rfl, rfl⟩⟩

/-- **Named patterns are resolved exactly when they can be.** That fails just if a definition refers
to a name that is not defined or a name leads back to itself. Otherwise the result has all names,
nothing in it refers to anything, and each entry is its definition with the results in place of
references; there is no other such solution, and the same comes of the definitions in any other
order. A scanner is then generated from rules none of which refers to anything, so the references
are never asked whether they match the empty text nor for an automaton; or else there is a fault of
the description. -/
theorem resolves_patterns (d : Description) (hnodup : (d.patterns.map (·.1)).Nodup) :
    ((∃ fault, resolveAll d.patterns = .error fault) ↔
      Dangling d.patterns ∨ Cyclic d.patterns) ∧
    (∀ res, resolveAll d.patterns = .ok res → Solves d.patterns res ∧
      (∀ res', Solves d.patterns res' → res'.Perm res) ∧
      ∀ defs, d.patterns.Perm defs → ∃ res', resolveAll defs = .ok res' ∧ res'.Perm res) ∧
    ∀ (options : Options) (name : String),
      (∃ fault, Yields (d.scanTable { options with alphabet := some name }) (.error fault) ∧
        (fault = .unknownAlphabet name ∨ (∃ reason, fault = .reference reason) ∨
          fault = .noRules)) ∨
      ∃ alphabet rules table, Alphabet.ofName? name = some alphabet ∧
        d.resolveRules = .ok rules ∧ rules ≠ [] ∧ Buildable rules ∧
        table = (if options.minimize then (ScanTable.ofRules alphabet rules d.kinds).minimize
          else ScanTable.ofRules alphabet rules d.kinds) ∧
        Yields (d.scanTable { options with alphabet := some name })
          (.ok (table, (emptyMatching rules).map (·.2))) := by
  refine ⟨resolveAll_eq_error_iff, fun res hres => ⟨solves_of_resolveAll hnodup hres,
    fun res' h => h.perm hnodup hres, fun defs hperm => resolveAll_perm hnodup hperm hres⟩, ?_⟩
  intro options name
  have hyields := d.yields_scanTable { options with alphabet := some name }
  rcases d.scannerOutcome_cases options name with
    ⟨fault, hout, hfault⟩ | ⟨alphabet, rules, table, ha, hrules, hne, hbuild, htable, hout⟩
  · exact .inl ⟨fault, hout ▸ hyields, hfault⟩
  · exact .inr ⟨alphabet, rules, table, ha, hrules, hne, hbuild, htable, hout ▸ hyields⟩

/-- Two names of a pattern refer to the same third one. -/
def sharing : Description where
  patterns := [("pair", .seq (.named "upper") (.named "lower")),
    ("upper", .opt (.named "letter")), ("lower", .star (.named "letter")),
    ("letter", .chars (.ofChar 'x'))]
  rules := [{ pattern := .named "pair", action := .skip, source := "" }]

/-- A name that comes up twice is not a cycle. -/
theorem solves_sharing : ∃ res, resolveAll sharing.patterns = .ok res ∧
    Solves sharing.patterns res := by
  obtain ⟨hfails, hresult, -⟩ := sharing.resolves_patterns (by decide)
  cases hres : resolveAll sharing.patterns with
  | ok res => exact ⟨res, rfl, (hresult res hres).1⟩
  | error fault =>
    -- references lead down from `pair` to `letter`
    let rank (name : String) := if name = "pair" then 2 else if name = "letter" then 0 else 1
    rcases hfails.1 ⟨fault, hres⟩ with hdangling | hcyclic
    · exact absurd hdangling (not_dangling (by decide))
    · exact absurd hcyclic (not_cyclic_of_rank rank (by decide))

end Description

end LexParse
