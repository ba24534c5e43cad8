import LexParse.Proofs.Generation
import LexParse.Proofs.Grammar.Reordering
import LexParse.Proofs.Lr.Renaming

/-!
# Conflicts and the order of declarations

Each reduction is compared with what has been chosen before, and the reductions come in the order in
which the productions have been declared. So the conflicts of a description may come and go with the
order: two reductions of one level conflict if they come first, and do not if a third one of a
higher level stands before both.

This is the only way in which they do. The candidates themselves do not depend on the order, as the
grammar of another order has other numbers only. If all ties among them are open there is a conflict
in each order, and if there is no tie there is none. If there are ties, but no open one, there is a
conflict where the ranks of the productions rise, and there is none where they fall.

## What is proved

* `conflicts_iff_of_perm`: all orders agree just if the candidates do not tie, or tie openly.
* `overruled_conflicts`: an order with a conflict, and one without.
-/

namespace LexParse

namespace Description

open Lr

variable {d : Description} {options : Options} {method : Method} {ps : List ProductionDecl}

/-- The description with other productions. -/
def withProductions (d : Description) (ps : List ProductionDecl) : Description :=
  { d with grammar := { d.grammar with productions := ps } }

/-- The start symbol is declared. -/
def DeclaresStart (d : Description) : Prop := ∃ name, d.grammar.start = some name ∧ name ≠ ""

/-- No tables are generated because of conflicts. -/
def Conflicts (d : Description) (options : Options) : Prop :=
  ∃ found, (d.compile options).1 = .error (.conflicts found)

/-- Two candidates for a cell of the table tie. -/
def Tied (d : Description) (method : Method) : Prop :=
  ∃ g, d.resolveGrammar = .ok g ∧ Lr.Tied g (Graph.build (Context.ofGrammar g) method)

/-- Two candidates for a cell of the table tie, and no third one beats both. -/
def OpenlyTied (d : Description) (method : Method) : Prop :=
  ∃ g, d.resolveGrammar = .ok g ∧ Lr.OpenlyTied g (Graph.build (Context.ofGrammar g) method)

/-! ### Descriptions with conflicts -/

/-- The scanner has no part in conflicts. -/
theorem scannerOutcome_ne_conflicts {found : List Conflict} :
    d.scannerOutcome options ≠ .error (.conflicts found) := by
  unfold scannerOutcome
  intro h
  rcases bind_eq_error_iff.1 h with h | ⟨alphabet, -, h⟩
  · unfold Options.findAlphabet at h
    split at h
    · cases h
    · split at h <;> cases h
  · rcases bind_eq_error_iff.1 h with h | ⟨rules, -, h⟩
    · cases hr : d.resolveRules <;> rw [hr] at h <;> cases h
    · dsimp only at h
      split at h <;> cases h

theorem outcomeFrom_ne_conflicts {table : Option ParseTable} {found : List Conflict} :
    d.outcomeFrom options table ≠ .error (.conflicts found) := by
  unfold outcomeFrom
  split
  · nofun
  · intro h
    rcases bind_eq_error_iff.1 h with h | ⟨_, -, h⟩
    · exact scannerOutcome_ne_conflicts h
    · cases h

theorem parserOutcome_eq_conflicts_iff {found : List Conflict} :
    d.parserOutcome options = .error (.conflicts found) ↔ ∃ g, d.resolveGrammar = .ok g ∧
      found ≠ [] ∧ (ParseTable.ofGraph (Context.ofGrammar g)
        (Graph.build (Context.ofGrammar g) options.method)).2 = found := by
  unfold parserOutcome
  rw [bind_eq_error_iff, or_iff_right]
  · refine exists_congr fun g => ?_
    rw [mapError_eq_ok_iff]
    refine and_congr_right fun _ => ?_
    generalize ParseTable.ofGraph _ _ = outcome
    obtain ⟨table, conflicts⟩ := outcome
    cases conflicts with
    | nil => simp [eq_comm]
    | cons conflict rest =>
      simp only [List.isEmpty_cons, Bool.false_eq_true, if_false, Except.error.injEq,
        CompileFault.conflicts.injEq, iff_and_self]
      rintro rfl
      nofun
  · cases d.resolveGrammar with
    | error fault => nofun
    | ok g => nofun

/-- Conflicts are those of the table of the resolved grammar. -/
theorem conflicts_iff : d.Conflicts options ↔ ∃ g, d.resolveGrammar = .ok g ∧
    (ParseTable.ofGraph (Context.ofGrammar g)
      (Graph.build (Context.ofGrammar g) options.method)).2 ≠ [] := by
  have houtcome : (d.compile options).1 = d.outcome options := d.yields_generate options []
  unfold Conflicts
  rw [houtcome]
  constructor
  · rintro ⟨found, h⟩
    unfold outcome at h
    split at h
    · cases h
    rcases bind_eq_error_iff.1 h with h | ⟨table, -, h⟩
    · split at h
      · cases hp : d.parserOutcome options with
        | ok table =>
          rw [hp] at h
          cases h
        | error fault =>
          rw [hp] at h
          cases h
          obtain ⟨g, hg, hne, rfl⟩ := parserOutcome_eq_conflicts_iff.1 hp
          exact ⟨g, hg, hne⟩
      · cases h
    · exact absurd h outcomeFrom_ne_conflicts
  · rintro ⟨g, hg, hne⟩
    have hp := parserOutcome_eq_conflicts_iff.2 ⟨g, hg, hne, rfl⟩
    have hgrammar : d.hasGrammar = true := by
      unfold hasGrammar
      cases hempty : d.grammar.productions.isEmpty with
      | false => rfl
      | true =>
        obtain ⟨hsymbols, -⟩ := GrammarDecl.resolve_eq_ok hg
        unfold GrammarDecl.symbolTable at hsymbols
        rw [hempty] at hsymbols
        cases hsymbols
    refine ⟨(ParseTable.ofGraph (Context.ofGrammar g)
      (Graph.build (Context.ofGrammar g) options.method)).2, ?_⟩
    unfold outcome
    rw [hgrammar, if_neg (by simp), if_pos rfl, hp]
    rfl

/-! ### Other orders -/

theorem startName_withProductions (hstart : d.DeclaresStart) :
    (d.withProductions ps).grammar.startName = d.grammar.startName := by
  obtain ⟨name, hname, hne⟩ := hstart
  have hempty : name.isEmpty = false := by simpa using hne
  simp [GrammarDecl.startName, withProductions, hname, hempty]

/-- A description resolves in another order to a renamed grammar. -/
theorem exists_resolveGrammar_of_perm {g : Grammar} (hstart : d.DeclaresStart)
    (hperm : d.grammar.productions.Perm ps) (h : d.resolveGrammar = .ok g) :
    ∃ g', (d.withProductions ps).resolveGrammar = .ok g' ∧ ∃ ρ : Renaming g g',
      ∀ p ∈ d.grammar.productions, ∀ q, d.grammar.resolveProduction g.symbols p = .ok q →
        (d.withProductions ps).grammar.resolveProduction g'.symbols p =
          .ok (q.rename ρ.nonterminal) :=
  GrammarDecl.exists_resolve_of_perm hperm rfl (startName_withProductions hstart) h

/-- What holds of a table holds of that of each other order, if renamings carry it. -/
theorem exists_resolveGrammar_iff_of_perm {P : Grammar → Prop}
    (hP : ∀ {g g' : Grammar}, Renaming g g' → g.WellFormed → g'.WellFormed → P g → P g')
    (hstart : d.DeclaresStart) (hperm : d.grammar.productions.Perm ps) :
    (∃ g, (d.withProductions ps).resolveGrammar = .ok g ∧ P g) ↔
      ∃ g, d.resolveGrammar = .ok g ∧ P g := by
  have hforth : ∀ (d : Description) (ps : List ProductionDecl), d.DeclaresStart →
      d.grammar.productions.Perm ps → (∃ g, d.resolveGrammar = .ok g ∧ P g) →
      ∃ g, (d.withProductions ps).resolveGrammar = .ok g ∧ P g := by
    rintro d ps hstart hperm ⟨g, hg, hPg⟩
    obtain ⟨g', hg', ρ, -⟩ := exists_resolveGrammar_of_perm hstart hperm hg
    exact ⟨g', hg', hP ρ (GrammarDecl.wellFormed_of_resolve hg)
      (GrammarDecl.wellFormed_of_resolve hg') hPg⟩
  -- the declared order is one of the others
  exact ⟨hforth (d.withProductions ps) d.grammar.productions hstart hperm.symm,
    hforth d ps hstart hperm⟩

theorem tied_withProductions_iff (hstart : d.DeclaresStart)
    (hperm : d.grammar.productions.Perm ps) :
    (d.withProductions ps).Tied method ↔ d.Tied method :=
  exists_resolveGrammar_iff_of_perm
    (fun ρ hg hg' => (tied_iff_of_renaming ρ hg hg' method).1) hstart hperm

theorem openlyTied_withProductions_iff (hstart : d.DeclaresStart)
    (hperm : d.grammar.productions.Perm ps) :
    (d.withProductions ps).OpenlyTied method ↔ d.OpenlyTied method :=
  exists_resolveGrammar_iff_of_perm
    (fun ρ hg hg' => (openlyTied_iff_of_renaming ρ hg hg' method).1) hstart hperm

/-! ### Ordered ranks -/

/-- The rank of the precedence that a production resolves to. -/
def rankIn (d : Description) (t : SymbolTable) (p : ProductionDecl) : Nat :=
  (((d.grammar.resolveProduction t p).toOption.bind (·.precedence)).map Precedence.rank).getD 0

/-- A list can be put in the order of a number of each entry. -/
theorem exists_perm_pairwise {α : Type} {R : Nat → Nat → Bool}
    (htrans : ∀ a b c, R a b → R b c → R a c) (htotal : ∀ a b, R a b || R b a) (f : α → Nat)
    (l : List α) : ∃ l', l.Perm l' ∧ l'.Pairwise fun a b => R (f a) (f b) :=
  ⟨l.mergeSort fun a b => R (f a) (f b), (List.mergeSort_perm l _).symm,
    List.pairwise_mergeSort (fun a b c => htrans (f a) (f b) (f c))
      (fun a b => htotal (f a) (f b)) l⟩

/-- The productions can be declared in the order of the ranks. -/
theorem exists_perm_of_ranks {R : Nat → Nat → Bool} (htrans : ∀ a b c, R a b → R b c → R a c)
    (htotal : ∀ a b, R a b || R b a) {g : Grammar} (hstart : d.DeclaresStart)
    (h : d.resolveGrammar = .ok g) :
    ∃ ps g', d.grammar.productions.Perm ps ∧ (d.withProductions ps).resolveGrammar = .ok g' ∧
      ∀ ⦃n m x y⦄, n < m → (Context.ofGrammar g').precedence n = some x →
        (Context.ofGrammar g').precedence m = some y → R x.rank y.rank := by
  obtain ⟨ps, hperm, hsorted⟩ :=
    exists_perm_pairwise htrans htotal (d.rankIn g.symbols) d.grammar.productions
  obtain ⟨g', hg', ρ, hρ⟩ := exists_resolveGrammar_of_perm hstart hperm h
  obtain ⟨-, -, hproductions, -⟩ := GrammarDecl.resolve_eq_ok h
  obtain ⟨-, -, hproductions', -⟩ := GrammarDecl.resolve_eq_ok hg'
  -- a production has the rank of its declaration
  have hrank : ∀ {n : Nat} {q : Production} {x : Precedence}, g'.productions[n]? = some q →
      q.precedence = some x → ∃ hn : n < ps.length, d.rankIn g.symbols ps[n] = x.rank := by
    intro n q x hq hx
    obtain ⟨p, hp, hresolve⟩ : ∃ p, ps[n]? = some p ∧
        (d.withProductions ps).grammar.resolveProduction g'.symbols p = .ok q :=
      exists_getElem?_of_forall₂ (forall₂_of_mapM_eq_ok hproductions').flip hq
    have hmem := hperm.mem_iff.2 (List.mem_of_getElem? hp)
    obtain ⟨q', -, hq'⟩ := exists_mem_of_forall₂ (forall₂_of_mapM_eq_ok hproductions) hmem
    obtain rfl : q'.rename ρ.nonterminal = q :=
      Except.ok.inj ((hρ p hmem q' hq').symm.trans hresolve)
    have hx : q'.precedence = some x := hx
    obtain ⟨hn, rfl⟩ := List.getElem?_eq_some_iff.1 hp
    refine ⟨hn, ?_⟩
    rw [rankIn, hq']
    simp [hx, Except.toOption]
  refine ⟨ps, g', hperm, hg', fun n m x y hlt hx hy => ?_⟩
  obtain ⟨i, q, rfl, hq, hqx⟩ := exists_production_of_precedence hx
  obtain ⟨j, r, rfl, hr, hry⟩ := exists_production_of_precedence hy
  obtain ⟨hi, hix⟩ := hrank hq hqx
  obtain ⟨hj, hjy⟩ := hrank hr hry
  rw [← hix, ← hjy]
  exact List.pairwise_iff_getElem.1 hsorted i j hi hj (by omega)

theorem exists_perm_rising {g : Grammar} (hstart : d.DeclaresStart) (h : d.resolveGrammar = .ok g) :
    ∃ ps g', d.grammar.productions.Perm ps ∧ (d.withProductions ps).resolveGrammar = .ok g' ∧
      Rising (Context.ofGrammar g').precedence := by
  obtain ⟨ps, g', hperm, hg', hranks⟩ := exists_perm_of_ranks (R := fun a b => decide (a ≤ b))
    (by simp; omega) (by simp; omega) hstart h
  exact ⟨ps, g', hperm, hg', fun n m x y hlt hx hy => by simpa using hranks hlt hx hy⟩

theorem exists_perm_falling {g : Grammar} (hstart : d.DeclaresStart)
    (h : d.resolveGrammar = .ok g) :
    ∃ ps g', d.grammar.productions.Perm ps ∧ (d.withProductions ps).resolveGrammar = .ok g' ∧
      Falling (Context.ofGrammar g').precedence := by
  obtain ⟨ps, g', hperm, hg', hranks⟩ := exists_perm_of_ranks (R := fun a b => decide (b ≤ a))
    (by simp; omega) (by simp; omega) hstart h
  exact ⟨ps, g', hperm, hg', fun n m x y hlt hx hy => by simpa using hranks hlt hx hy⟩

/-! ### Which orders agree -/

theorem tied_of_conflicts (h : d.Conflicts options) : d.Tied options.method := by
  obtain ⟨g, hg, hne⟩ := conflicts_iff.1 h
  have hwf := GrammarDecl.wellFormed_of_resolve hg
  exact ⟨g, hg, tied_of_conflict (Graph.isAutomaton_build hwf options.method) hwf hne⟩

theorem conflicts_of_openlyTied (h : d.OpenlyTied options.method) : d.Conflicts options := by
  obtain ⟨g, hg, htied⟩ := h
  have hwf := GrammarDecl.wellFormed_of_resolve hg
  exact conflicts_iff.2
    ⟨g, hg, conflict_of_openlyTied (Graph.isAutomaton_build hwf options.method) hwf htied⟩

/-- If candidates tie there is a conflict in some order. -/
theorem exists_perm_conflicts (hstart : d.DeclaresStart) (h : d.Tied options.method) :
    ∃ ps, d.grammar.productions.Perm ps ∧ (d.withProductions ps).Conflicts options := by
  obtain ⟨g, hg, htied⟩ := h
  obtain ⟨ps, g', hperm, hg', hrising⟩ := exists_perm_rising hstart hg
  obtain ⟨g'', hg'', htied'⟩ := (tied_withProductions_iff hstart hperm).2 ⟨g, hg, htied⟩
  obtain rfl : g' = g'' := Except.ok.inj (hg'.symm.trans hg'')
  have hwf := GrammarDecl.wellFormed_of_resolve hg'
  exact ⟨ps, hperm, conflicts_iff.2 ⟨g', hg', conflict_of_tied_of_rising
    (Graph.isAutomaton_build hwf options.method) hwf hrising htied'⟩⟩

/-- If there is a conflict in all orders candidates tie openly. -/
theorem openlyTied_of_forall_perm (hstart : d.DeclaresStart)
    (h : ∀ ps, d.grammar.productions.Perm ps → (d.withProductions ps).Conflicts options) :
    d.OpenlyTied options.method := by
  obtain ⟨g, hg, -⟩ := conflicts_iff.1 (h _ (.refl _))
  obtain ⟨ps, g', hperm, hg', hfalling⟩ := exists_perm_falling hstart hg
  obtain ⟨g'', hg'', hne⟩ := conflicts_iff.1 (h ps hperm)
  obtain rfl : g' = g'' := Except.ok.inj (hg'.symm.trans hg'')
  have hwf := GrammarDecl.wellFormed_of_resolve hg'
  exact (openlyTied_withProductions_iff hstart hperm).1 ⟨g', hg', openlyTied_of_conflict_of_falling
    (Graph.isAutomaton_build hwf options.method) hwf hfalling hne⟩

/-- **All orders of the productions agree about conflicts just if the candidates do not tie, or tie
openly.** -/
theorem conflicts_iff_of_perm (hstart : d.DeclaresStart) :
    (∀ ps, d.grammar.productions.Perm ps →
      ((d.withProductions ps).Conflicts options ↔ d.Conflicts options)) ↔
    (d.Tied options.method → d.OpenlyTied options.method) := by
  constructor
  · intro hagree htied
    obtain ⟨ps, hperm, hconflict⟩ := exists_perm_conflicts hstart htied
    have hconflict := (hagree ps hperm).1 hconflict
    exact openlyTied_of_forall_perm hstart fun ps' hperm' => (hagree ps' hperm').2 hconflict
  · intro hopen ps hperm
    constructor
    · intro h
      have htied := (tied_withProductions_iff hstart hperm).1 (tied_of_conflicts h)
      exact conflicts_of_openlyTied (hopen htied)
    · intro h
      have hopen := (openlyTied_withProductions_iff hstart hperm).2 (hopen (tied_of_conflicts h))
      exact conflicts_of_openlyTied hopen

/-- A token that stands for three symbols, of which the last one binds tighter than the others. -/
def overruled : Description where
  kinds := [⟨"X", none⟩]
  grammar := {
    productions := [⟨"s", ["a"], .list, none⟩, ⟨"s", ["b"], .list, none⟩, ⟨"s", ["c"], .list, none⟩,
      ⟨"a", ["X"], .list, some "LOW"⟩, ⟨"b", ["X"], .list, some "LOW"⟩,
      ⟨"c", ["X"], .list, some "HIGH"⟩]
    precedences := [("LOW", ⟨.left, 1⟩), ("HIGH", ⟨.left, 2⟩)]
    levels := 2
    start := some "s" }

/-- The productions with the tighter one before the others. -/
def tighterFirst : List ProductionDecl :=
  [⟨"s", ["a"], .list, none⟩, ⟨"s", ["b"], .list, none⟩, ⟨"s", ["c"], .list, none⟩,
    ⟨"c", ["X"], .list, some "HIGH"⟩, ⟨"a", ["X"], .list, some "LOW"⟩,
    ⟨"b", ["X"], .list, some "LOW"⟩]

/-- **The order matters if a tie is not open.** -/
theorem overruled_conflicts :
    overruled.DeclaresStart ∧ overruled.grammar.productions.Perm tighterFirst ∧
      (overruled.Conflicts { method := .canonical } ∧
        ¬ (overruled.withProductions tighterFirst).Conflicts { method := .canonical }) ∧
      overruled.Conflicts { method := .merged } ∧
        ¬ (overruled.withProductions tighterFirst).Conflicts { method := .merged } := by
  have hfirst : ∀ method : Method, overruled.Conflicts { method } := by
    intro method
    have hrun : ∃ g ∈ overruled.resolveGrammar.toOption, (ParseTable.ofGraph (Context.ofGrammar g)
        (Graph.build (Context.ofGrammar g) method)).2 ≠ [] := by
      cases method <;> decide +kernel
    obtain ⟨g, hg, hne⟩ := hrun
    exact conflicts_iff.2 ⟨g, toOption_eq_some_iff.1 hg, hne⟩
  have hsecond : ∀ method : Method,
      ¬ (overruled.withProductions tighterFirst).Conflicts { method } := by
    rintro method ⟨found, hfound⟩
    have hrun : ((overruled.withProductions tighterFirst).compile { method }).1.toOption.isSome =
        true := by
      cases method <;> decide +kernel
    rw [hfound] at hrun
    cases hrun
  have hperm : overruled.grammar.productions.Perm tighterFirst :=
    .cons _ (.cons _ (.cons _ (@List.perm_append_comm _ [_, _] [_])))
  exact ⟨⟨"s", rfl, by decide⟩, hperm, ⟨hfirst _, hsecond _⟩, hfirst _, hsecond _⟩

/-- Conditions with and without an alternative, which may belong to either of two conditions. -/
def dangling : Description where
  kinds := [⟨"IF", none⟩, ⟨"ELSE", none⟩, ⟨"X", none⟩]
  grammar := {
    productions := [⟨"s", ["IF", "s"], .list, none⟩, ⟨"s", ["IF", "s", "ELSE", "s"], .list, none⟩,
      ⟨"s", ["X"], .list, none⟩]
    start := some "s" }

theorem conflicts_of_perm_dangling : dangling.DeclaresStart ∧ dangling.Conflicts {} ∧
    ∀ ps, dangling.grammar.productions.Perm ps → (dangling.withProductions ps).Conflicts {} := by
  have hrun : ∃ g ∈ dangling.resolveGrammar.toOption,
      (ParseTable.ofGraph (Context.ofGrammar g) (Graph.build (Context.ofGrammar g) .canonical)).2 ≠
        [] ∧ g.productions.all (·.precedence == none) = true := by
    decide +kernel
  obtain ⟨g, hg, hne, hnone⟩ := hrun
  have hg := toOption_eq_some_iff.1 hg
  have hwf := GrammarDecl.wellFormed_of_resolve hg
  have hfalling : Falling (Context.ofGrammar g).precedence := by
    intro n m x y _ hx
    obtain ⟨_, q, -, hq, hqx⟩ := exists_production_of_precedence hx
    have := List.all_eq_true.1 hnone q (List.mem_of_getElem? hq)
    rw [hqx] at this
    cases this
  have hopen : dangling.OpenlyTied .canonical := ⟨g, hg, openlyTied_of_conflict_of_falling
    (Graph.isAutomaton_build hwf .canonical) hwf hfalling hne⟩
  have hstart : dangling.DeclaresStart := ⟨"s", rfl, by decide⟩
  have hconflict : dangling.Conflicts {} := conflicts_iff.2 ⟨g, hg, hne⟩
  exact ⟨hstart, hconflict, fun ps hperm =>
    ((conflicts_iff_of_perm hstart).2 (fun _ => hopen) ps hperm).2 hconflict⟩

end Description

end LexParse
