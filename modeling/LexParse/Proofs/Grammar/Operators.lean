import LexParse.Proofs.Grammar.Forest

/-!
# Declared operators

An operator is declared by a production that joins two operands of its left side by a token kind,
and by a precedence of that kind. The precedence is that of the production, too, unless it has a
tag.

## What is proved

* `GrammarDecl.exists_symbol_of_resolve`: a grammar is resolved only if all names on right sides are
  symbols.
* `GrammarDecl.exists_production_of_isOperator`: what a declared operator is in the grammar that the
  declaration resolves to.
-/

namespace LexParse

namespace GrammarDecl

variable {d : GrammarDecl} {kinds : List TokenKind} {t : SymbolTable} {g : Grammar}

/-! ### Undefined names -/

theorem noteUse_ne_nil (uses : List (String × List String)) (name production : String) :
    noteUse uses name production ≠ [] := by
  unfold noteUse
  split
  · nofun
  · split <;> nofun

/-- Noting the undefined names of a production keeps what has been noted. -/
theorem foldl_noteUse_eq_nil {names : List String} {uses : List (String × List String)}
    {production : String}
    (h : names.foldl (fun uses name => noteUse uses name production) uses = []) :
    uses = [] ∧ names = [] := by
  induction names generalizing uses with
  | nil => exact ⟨h, rfl⟩
  | cons name rest ih => exact absurd (ih h).1 (noteUse_ne_nil uses name production)

/-- Where no use of an undefined name has been noted there is none. -/
theorem undefinedNames_eq_nil (h : d.undefinedUses t = []) :
    ∀ p ∈ d.productions, p.undefinedNames t = [] := by
  suffices hfold : ∀ (ps : List ProductionDecl) uses,
      ps.foldl (fun uses p => (p.undefinedNames t).foldl
        (fun uses name => noteUse uses name p.render) uses) uses = [] →
      uses = [] ∧ ∀ p ∈ ps, p.undefinedNames t = [] from (hfold _ _ h).2
  intro ps
  induction ps with
  | nil => exact fun uses h => ⟨h, by simp⟩
  | cons p ps ih =>
    intro uses h
    obtain ⟨hfirst, hrest⟩ := ih _ h
    obtain ⟨huses, hp⟩ := foldl_noteUse_eq_nil hfirst
    exact ⟨huses, List.forall_mem_cons.2 ⟨hp, hrest⟩⟩

theorem undefinedUses_eq_nil_of_resolve (h : d.resolve kinds = .ok g) :
    d.undefinedUses g.symbols = [] := by
  unfold resolve at h
  obtain ⟨symbols, -, h⟩ := bind_eq_ok_iff.1 h
  obtain ⟨start, -, h⟩ := bind_eq_ok_iff.1 h
  obtain ⟨productions, -, h⟩ := bind_eq_ok_iff.1 h
  dsimp only at h
  split at h
  · cases h
  · rename_i hempty
    cases h
    simpa using hempty

/-- **A name on a right side is a symbol.** -/
theorem exists_symbol_of_resolve (h : d.resolve kinds = .ok g) {p : ProductionDecl}
    (hp : p ∈ d.productions) {name : String} (hname : name ∈ p.right) :
    ∃ s, ProductionDecl.symbol? g.symbols name = some s := by
  have hnil := undefinedNames_eq_nil (undefinedUses_eq_nil_of_resolve h) p hp
  have hnot := List.filter_eq_nil_iff.1 hnil name hname
  exact Option.isSome_iff_exists.1 (by simpa [Option.isSome_iff_ne_none] using hnot)

/-! ### Operators -/

/-- The production of a number joins two operands of its left side by a token kind of the given
precedence, and it has no tag. -/
structure IsOperator (d : GrammarDecl) (kinds : List TokenKind) (n : Nat) (left kind : String)
    (x : Precedence) : Prop where
  declared : ∃ action, d.productions[n]? = some ⟨left, [left, kind, left], action, none⟩
  kind_mem : kind ∈ kinds.map (·.name)
  precedence_eq : d.precedence? kind = some x

theorem symbol?_eq_some_iff {name : String} {s : Symbol} : ProductionDecl.symbol? t name = some s ↔
    isReserved name = false ∧ t.lookup name = some s := by
  unfold ProductionDecl.symbol?
  cases isReserved name <;> simp

/-- A production without a tag has the precedence of its last terminal. -/
theorem precedence_of_resolveProduction {p : ProductionDecl} {q : Production}
    (h : d.resolveProduction t p = .ok q) (htag : p.tag = none) :
    q.precedence = lastPrecedence (d.terminals t) q.right := by
  unfold resolveProduction at h
  rw [htag] at h
  cases h
  rfl

/-- A terminal has the precedence that is declared for its name. -/
theorem getElem?_terminals (hnum : t.Numbered) {name : String} {a : Nat}
    (h : ProductionDecl.symbol? t name = some (.terminal a)) :
    (d.terminals t)[a]? = some ⟨name, d.precedence? name⟩ := by
  obtain ⟨hreserved, hlookup⟩ := symbol?_eq_some_iff.1 h
  have hname : t.terminals[a]? = some name := by
    rw [SymbolTable.terminals_eq]
    exact hnum.name_of_lookup hlookup
  have hpos : a ≠ 0 := Nat.ne_of_gt (hnum.number_pos hlookup hreserved)
  simp [terminals, hname, hpos]

/-- **A declared operator** is a production of the same number that joins operands by a terminal,
both with the precedence that is declared. -/
theorem exists_production_of_isOperator (h : d.resolve kinds = .ok g) {n : Nat}
    {left kind : String} {x : Precedence} (hop : d.IsOperator kinds n left kind x) :
    ∃ q a, g.productions[n]? = some q ∧ g.symbols.lookup left = some (.nonterminal q.left) ∧
      q.Joins a ∧ q.precedence = some x ∧ g.terminalPrecedence a = some x := by
  obtain ⟨hsymbols, -, hproductions, hterminals, -⟩ := resolve_eq_ok h
  obtain ⟨hnum, hkinds, hleft⟩ := numbered_of_symbolTable hsymbols
  obtain ⟨action, hp⟩ := hop.declared
  obtain ⟨q, hq, hresolved⟩ := exists_getElem?_of_forall₂ (forall₂_of_mapM_eq_ok hproductions) hp
  obtain ⟨hreserved, e, he⟩ := hleft _ (List.mem_of_getElem? hp)
  obtain ⟨_, hkind, rfl⟩ := List.mem_map.1 hop.kind_mem
  obtain ⟨a, ha⟩ := hkinds _ hkind
  -- the names on the right side are symbols, and those are known
  have hmem := List.mem_of_getElem? hp
  have hoperand := symbol?_eq_some_iff.2 ⟨hreserved, he⟩
  obtain ⟨_, hoperator⟩ := exists_symbol_of_resolve h hmem
    (List.mem_cons_of_mem _ (List.mem_cons_self ..))
  obtain ⟨-, ha'⟩ := symbol?_eq_some_iff.1 hoperator
  obtain rfl := Option.some.inj (ha'.symm.trans ha)
  have hterminal := getElem?_terminals (d := d) hnum hoperator
  obtain ⟨hqleft, hqright, -⟩ := resolveProduction_eq_ok hresolved
  rw [he] at hqleft
  obtain rfl : q.left = e := hqleft
  have hjoins : q.Joins a := by
    rw [Production.Joins, hqright]
    simp [hoperand, hoperator]
  refine ⟨q, a, hq, he, hjoins, ?_, ?_⟩
  · rw [precedence_of_resolveProduction hresolved rfl, hjoins]
    simp [lastPrecedence, Symbol.isTerminal, Symbol.number, hterminal, hop.precedence_eq]
  · simp [Grammar.terminalPrecedence, hterminals, hterminal, hop.precedence_eq]

end GrammarDecl

end LexParse
