import LexParse.Compile
import LexParse.Proofs.Grammar.Resolved

/-!
# What a generation yields

A generation tells of itself while it works, but nothing it does depends on what it has told. The
lemmas here look through the telling: `Generate.Yields` says that a generation has an outcome,
whatever the journal it starts from, and for each part of `Description.compile` a lemma gives the
outcome as a plain computation.
-/

namespace LexParse

namespace Generate

variable {α β : Type} {x : Generate α} {f : α → Generate β} {r : Except CompileFault α}

/-- The outcome of a generation, whatever has been told before. -/
def Yields (x : Generate α) (r : Except CompileFault α) : Prop :=
  ∀ journal, (x.run journal).1 = r

theorem yields_pure (a : α) : Yields (pure a) (.ok a) := fun _ => rfl

theorem yields_throw (fault : CompileFault) : Yields (throw fault : Generate α) (.error fault) :=
  fun _ => rfl

theorem yields_tell (entry : Entry) : Yields (tell entry) (.ok ()) := fun _ => rfl

theorem yields_check {ε : Type} (fault : ε → CompileFault) (part : Except ε α) :
    Yields (check fault part) (part.mapError fault) := by
  cases part with
  | ok a => exact yields_pure a
  | error e => exact yields_throw (fault e)

/-- Outcomes follow one another. -/
theorem Yields.bind {s : α → Except CompileFault β} (hx : Yields x r)
    (hf : ∀ a, Yields (f a) (s a)) : Yields (x >>= f) (r >>= s) := by
  intro journal
  have hrun : ((x >>= f).run journal).1 =
      match x.run journal with
      | (.ok a, journal) => ((f a).run journal).1
      | (.error fault, _) => .error fault := by
    show ((ExceptT.bind x f).run journal).1 = _
    simp only [ExceptT.bind, ExceptT.mk, ExceptT.bindCont, ExceptT.run, Bind.bind, StateT.bind]
    rcases x journal with ⟨_ | _, _⟩ <;> rfl
  have hr := hx journal
  rw [hrun]
  rcases hrest : x.run journal with ⟨_ | a, journal'⟩
  · rw [hrest] at hr
    rw [← hr]
    rfl
  · rw [hrest] at hr
    rw [← hr]
    exact hf a journal'

theorem Yields.map (hx : Yields x r) (k : α → β) : Yields (k <$> x) (k <$> r) := by
  rw [map_eq_pure_bind, map_eq_pure_bind]
  exact hx.bind fun a => yields_pure (k a)

/-- Telling something on the way does not matter. -/
theorem Yields.after_unit {x : Generate Unit} {k : Unit → Generate β} {s : Except CompileFault β}
    (hx : Yields x (.ok ())) (hk : Yields (k ()) s) : Yields (x >>= k) s :=
  hx.bind (s := fun _ => s) fun _ => hk

theorem yields_forM {l : List α} {f : α → Generate Unit} (hf : ∀ a ∈ l, Yields (f a) (.ok ())) :
    Yields (l.forM f) (.ok ()) := by
  induction l with
  | nil => exact yields_pure ()
  | cons a l ih =>
    exact (hf a (List.mem_cons_self ..)).after_unit
      (ih fun b hb => hf b (List.mem_cons_of_mem _ hb))

end Generate

namespace Description

open Generate

variable (d : Description) (options : Options)

/-- The state graph that a parse table is read off. -/
theorem yields_graph (method : Lr.Method) : Yields (d.graph method) (do
    let g ← d.resolveGrammar.mapError .grammar
    return (Lr.Context.ofGrammar g, Lr.Graph.build (Lr.Context.ofGrammar g) method)) :=
  (yields_check .grammar d.resolveGrammar).bind fun _ =>
    (yields_tell _).after_unit (yields_pure _)

/-- Reading the table off the graph: it is good if nothing conflicts. -/
theorem yields_readTable (c : Lr.Context) (G : Lr.Graph) : Yields
    (do
      let (table, conflicts) := Lr.ParseTable.ofGraph c G
      conflicts.forM fun conflict => Generate.log .error conflict.render
      if !conflicts.isEmpty then throw (.conflicts conflicts)
      return table)
    (if (Lr.ParseTable.ofGraph c G).2.isEmpty then .ok (Lr.ParseTable.ofGraph c G).1
      else .error (.conflicts (Lr.ParseTable.ofGraph c G).2)) := by
  generalize Lr.ParseTable.ofGraph c G = outcome
  obtain ⟨table, conflicts⟩ := outcome
  refine Yields.after_unit (yields_forM fun _ _ => yields_tell _) ?_
  cases conflicts with
  | nil => exact yields_pure table
  | cons conflict rest => exact fun _ => rfl

/-- The parse table of a description, without the telling: it is that of the state graph, if
nothing conflicts. -/
def parserOutcome : Except CompileFault Lr.ParseTable := do
  let g ← d.resolveGrammar.mapError .grammar
  let found := Lr.ParseTable.ofGraph (Lr.Context.ofGrammar g)
    (Lr.Graph.build (Lr.Context.ofGrammar g) options.method)
  if found.2.isEmpty then .ok found.1 else .error (.conflicts found.2)

theorem yields_parseTable : Yields (d.parseTable options) (d.parserOutcome options) := by
  have hgraph := (d.yields_graph options.method).bind (f := fun x => do
      if options.printGraph then
        (x.1.renderGraph x.2).forM fun text => Generate.tell (.print (text ++ "\n"))
      let (table, conflicts) := Lr.ParseTable.ofGraph x.1 x.2
      conflicts.forM fun conflict => Generate.log .error conflict.render
      if !conflicts.isEmpty then throw (.conflicts conflicts)
      return table) (s := fun x =>
      if (Lr.ParseTable.ofGraph x.1 x.2).2.isEmpty then .ok (Lr.ParseTable.ofGraph x.1 x.2).1
      else .error (.conflicts (Lr.ParseTable.ofGraph x.1 x.2).2)) fun ⟨c, G⟩ => by
    cases options.printGraph with
    | true => exact (yields_forM fun _ _ => yields_tell _).after_unit (yields_readTable c G)
    | false => exact yields_readTable c G
  unfold parserOutcome
  cases hg : d.resolveGrammar with
  | error fault =>
    rw [hg] at hgraph
    exact hgraph
  | ok g =>
    rw [hg] at hgraph
    exact hgraph

/-- A parse table belongs to the grammar that the description resolves to. -/
theorem parserOutcome_eq_ok_iff {table : Lr.ParseTable} : d.parserOutcome options = .ok table ↔
    ∃ g, d.resolveGrammar = .ok g ∧
      Lr.ParseTable.ofGraph (Lr.Context.ofGrammar g)
        (Lr.Graph.build (Lr.Context.ofGrammar g) options.method) = (table, []) := by
  unfold parserOutcome
  rw [bind_eq_ok_iff]
  refine exists_congr fun g => ?_
  rw [mapError_eq_ok_iff]
  refine and_congr_right fun _ => ?_
  generalize Lr.ParseTable.ofGraph _ _ = found
  obtain ⟨table', conflicts⟩ := found
  cases conflicts <;> simp

/-- Without named patterns there is nothing to resolve references by. -/
theorem resolveRules_eq_mapM (h : d.patterns = []) :
    d.resolveRules = d.rules.mapM (·.resolve []) := by
  have hnone : Regex.resolveAll [] = .ok [] := by
    rw [Regex.resolveAll]
    exact Regex.resolveNames.eq_1 ..
  rw [resolveRules, h, hnone]
  rfl

/-- The scan table of a description, without the telling. -/
def scannerOutcome : Except CompileFault (ScanTable × List ScanRule) := do
  let alphabet ← options.findAlphabet
  let rules ← d.resolveRules.mapError .reference
  if rules.isEmpty then .error .noRules
  else
    let table := ScanTable.ofRules alphabet rules d.kinds
    .ok (if options.minimize then table.minimize else table, (emptyMatching rules).map (·.2))

theorem yields_scanTable : Yields (d.scanTable options) (d.scannerOutcome options) := by
  have halphabet : options.findAlphabet.mapError id = options.findAlphabet := by
    cases options.findAlphabet <;> rfl
  have hcheck := yields_check id options.findAlphabet
  rw [halphabet] at hcheck
  refine hcheck.bind fun alphabet => (yields_check .reference d.resolveRules).bind fun rules => ?_
  cases rules with
  | nil => exact fun _ => rfl
  | cons rule rest =>
    refine (yields_forM fun _ _ => yields_tell _).after_unit ((yields_tell _).after_unit ?_)
    cases options.minimize with
    | false => exact yields_pure _
    | true => exact (yields_tell _).after_unit (yields_pure _)

/-- A scan table is that of the resolved rules. -/
theorem scannerOutcome_eq_ok_iff {table : ScanTable} {empties : List ScanRule} :
    d.scannerOutcome options = .ok (table, empties) ↔
      ∃ alphabet rules, options.findAlphabet = .ok alphabet ∧ d.resolveRules = .ok rules ∧
        rules ≠ [] ∧ empties = (emptyMatching rules).map (·.2) ∧
        table = if options.minimize then (ScanTable.ofRules alphabet rules d.kinds).minimize
          else ScanTable.ofRules alphabet rules d.kinds := by
  unfold scannerOutcome
  simp only [bind_eq_ok_iff, mapError_eq_ok_iff]
  refine exists_congr fun alphabet => ?_
  constructor
  · rintro ⟨ha, rules, hrules, h⟩
    cases rules with
    | nil => cases h
    | cons rule rest =>
      cases h
      exact ⟨_, ha, hrules, nofun, rfl, rfl⟩
  · rintro ⟨rules, ha, hrules, hne, rfl, rfl⟩
    refine ⟨ha, rules, hrules, ?_⟩
    rw [if_neg (by simpa using hne)]

/-- The tables of a description once there is an outcome for its parser, without the telling. -/
def outcomeFrom (parseTable : Option Lr.ParseTable) : Except CompileFault Compiled :=
  if !d.hasScanner then .ok { parseTable }
  else do
    let found ← d.scannerOutcome options
    .ok { scanTable := some found.1, parseTable, emptyMatches := found.2 }

/-- The tables of a description, without the telling. -/
def outcome : Except CompileFault Compiled :=
  if !d.hasScanner && !d.hasGrammar then .error .emptyDescription
  else
    (if d.hasGrammar then some <$> d.parserOutcome options else .ok none) >>=
      d.outcomeFrom options

theorem yields_generate : Yields (d.generate options) (d.outcome options) := by
  have hrest : ∀ parseTable, Yields
      (if (!d.hasScanner) = true then (pure { parseTable } : Generate Compiled) else do
        let found ← d.scanTable options
        return { scanTable := some found.1, parseTable, emptyMatches := found.2 })
      (d.outcomeFrom options parseTable) := by
    intro parseTable
    unfold outcomeFrom
    cases d.hasScanner with
    | false => exact yields_pure _
    | true => exact (d.yields_scanTable options).bind fun found => yields_pure _
  unfold generate outcome
  cases !d.hasScanner && !d.hasGrammar with
  | true => exact fun _ => rfl
  | false =>
    cases d.hasGrammar with
    | true => exact ((d.yields_parseTable options).map some).bind hrest
    | false => exact (yields_pure none).bind hrest

/-- **The tables of a description are those of its parser and its scanner.** -/
theorem tables_of_compile {t : Compiled} (h : (d.compile options).1 = .ok t) :
    (∀ table, t.parseTable = some table → d.parserOutcome options = .ok table) ∧
      ∀ table, t.scanTable = some table →
        d.scannerOutcome options = .ok (table, t.emptyMatches) := by
  have h : d.outcome options = .ok t := (d.yields_generate options []).symm.trans h
  unfold outcome at h
  split at h
  · cases h
  obtain ⟨parseTable, hparser, h⟩ := bind_eq_ok_iff.1 h
  have hsome : ∀ table, parseTable = some table → d.parserOutcome options = .ok table := by
    rintro table rfl
    split at hparser
    · cases hp : d.parserOutcome options with
      | error fault =>
        rw [hp] at hparser
        cases hparser
      | ok table' =>
        rw [hp] at hparser
        cases hparser
        rfl
    · cases hparser
  unfold outcomeFrom at h
  split at h
  · cases h
    exact ⟨hsome, nofun⟩
  · obtain ⟨found, hfound, h⟩ := bind_eq_ok_iff.1 h
    cases h
    refine ⟨hsome, fun table htable => ?_⟩
    cases htable
    exact hfound

end Description

end LexParse
