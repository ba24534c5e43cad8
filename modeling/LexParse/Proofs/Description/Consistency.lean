import LexParse.Proofs.Description.Calls
import LexParse.Proofs.Generation
import LexParse.Proofs.Grammar.Reordering

/-!
# Which grammars are resolved

The names of a grammar are resolved by one table for token kinds and nonterminals. Whether that
works can be said without the table: there are productions, their left sides are neither reserved
nor token kinds, the start symbol is a left side, the tags have precedences, and each name on a
right side is a token kind or a left side.

The table has two entries of its own, the end of the input and the origin. Right sides cannot name
them, as their names are reserved; nor can left sides. The start symbol can: `$START` is found in
the table, so it is accepted though nothing is derived from it.

## What is proved

* `GrammarDecl.exists_resolve_iff`: which grammars are resolved.
* `GrammarDecl.resolved_of_resolve`: the numbers of the symbols, and the productions.
* `Description.resolveGrammar_fails_iff`: both, for every description that can be built.
* `Description.exists_resolved_of_compile`: the grammar that a generated parser belongs to.
-/

namespace LexParse

/-! ### Inconsistent declarations -/

namespace GrammarDecl

/-- A reason for which the names of a grammar cannot be resolved, that of the start symbol apart. -/
inductive Inconsistent (d : GrammarDecl) (kinds : List TokenKind) : Prop where
  /-- There are no productions. -/
  | noProductions : d.productions = [] → Inconsistent d kinds
  /-- A left side has a reserved name. -/
  | reservedLeft {p : ProductionDecl} : p ∈ d.productions → isReserved p.left = true →
      Inconsistent d kinds
  /-- A left side is a token kind. -/
  | kindDerived {p : ProductionDecl} {k : TokenKind} : p ∈ d.productions → k ∈ kinds →
      k.name = p.left → Inconsistent d kinds
  /-- A tag has no precedence. -/
  | undefinedTag {p : ProductionDecl} {tag : String} : p ∈ d.productions → p.tag = some tag →
      d.precedence? tag = none → Inconsistent d kinds
  /-- A name on a right side is neither a token kind nor a left side. -/
  | undefinedSymbol {p : ProductionDecl} {name : String} : p ∈ d.productions → name ∈ p.right →
      (∀ k ∈ kinds, k.name ≠ name) → (∀ q ∈ d.productions, q.left ≠ name) → Inconsistent d kinds

/-- The name of the start symbol is not the left side of a production. -/
def StartsNowhere (d : GrammarDecl) : Prop := ∀ p ∈ d.productions, p.left ≠ d.startName

/-- The precedence that is declared for a production: that of its tag, or else that of the last
token kind on its right side. -/
def declaredPrecedence (d : GrammarDecl) (kinds : List TokenKind) (p : ProductionDecl) :
    Option Precedence :=
  match p.tag with
  | some tag => d.precedence? tag
  | none => ((p.right.filter fun name => kinds.any (·.name == name)).getLast?).bind d.precedence?

/-- A production is what a declaration says, by the symbols of a grammar. -/
structure Declares (d : GrammarDecl) (kinds : List TokenKind) (g : Grammar) (p : ProductionDecl)
    (q : Production) : Prop where
  left : g.symbols.lookup p.left = some (.nonterminal q.left)
  right : List.Forall₂ (fun name s => g.symbols.lookup name = some s) p.right q.right
  precedence : q.precedence = d.declaredPrecedence kinds p
  action : q.action = p.action

/-- A grammar is what its declaration says. Numbers and names correspond to each other, and the
productions of each nonterminal are those declared for its name, in the same order. -/
structure Resolved (d : GrammarDecl) (kinds : List TokenKind) (g : Grammar) : Prop where
  terminals : Set.BijOn (fun a => g.symbolName (.terminal a)) (Set.Iio g.terminals.size)
    (insert Token.endKind {name | ∃ k ∈ kinds, k.name = name})
  nonterminals : Set.BijOn (fun n => g.symbolName (.nonterminal n)) (Set.Iio g.nonterminals.size)
    (insert "$START" {name | ∃ p ∈ d.productions, p.left = name})
  endOfInput : g.symbolName .endOfInput = Token.endKind
  origin : g.symbolName .origin = "$START"
  lookup : ∀ name s, g.symbols.lookup name = some s ↔
    s.Within g.nonterminals.size g.terminals.size ∧ g.symbolName s = name
  start : g.symbols.lookup d.startName = some (.nonterminal g.start)
  productions : List.Forall₂ (d.Declares kinds g) d.productions g.productions
  productionsOf : ∀ name n, g.symbols.lookup name = some (.nonterminal n) →
    List.Forall₂ (d.Declares kinds g) (d.productions.filter (·.left = name))
      (g.productions.filter (·.left = n))

end GrammarDecl

/-! ### Symbol tables -/

namespace SymbolTable

variable {t t' : SymbolTable} {name : String} {s : Symbol}

theorem Numbered.mem_terminals_iff (h : t.Numbered) :
    name ∈ t.terminals ↔ ∃ n, t.lookup name = some (.terminal n) := by
  rw [List.mem_iff_getElem?]
  exact exists_congr fun n => h.lookup_eq_terminal_iff.symm

/-- A terminal can be defined whose name is neither reserved nor that of a nonterminal. -/
theorem Numbered.exists_defineTerminal (h : t.Numbered) (hname : isReserved name = false)
    (hnot : name ∉ t.nonterminals) : ∃ s t', t.defineTerminal name = .ok (s, t') ∧
      t'.nonterminals = t.nonterminals ∧
      ∀ other, other ∈ t'.terminals ↔ other ∈ t.terminals ∨ other = name := by
  unfold SymbolTable.defineTerminal
  split
  · refine ⟨_, _, rfl, ?_, fun other => ?_⟩
    · simp [SymbolTable.push, nonterminals, Symbol.isTerminal]
    · simp [SymbolTable.push, terminals, Symbol.isTerminal]
  · rename_i n hn
    refine ⟨_, _, rfl, rfl, fun other => (or_iff_left_of_imp ?_).symm⟩
    rintro rfl
    exact h.mem_terminals_iff.2 ⟨_, hn⟩
  · rename_i s hnone hs
    cases s with
    | nonterminal n => exact absurd (h.mem_nonterminals_iff.2 ⟨n, hs⟩) hnot
    | terminal n =>
      -- the end of the input has a reserved name
      cases n with
      | zero => exact absurd (h.number_pos hs hname) (Nat.lt_irrefl 0)
      | succ n => exact absurd rfl (hnone n)

end SymbolTable

/-! ### Resolving -/

/-- Computations on all entries of a list succeed if each of them does. -/
theorem exists_mapM_eq_ok_iff {ε α β : Type} {f : α → Except ε β} {l : List α} :
    (∃ l', l.mapM f = .ok l') ↔ ∀ a ∈ l, ∃ b, f a = .ok b := by
  constructor
  · rintro ⟨l', h⟩ a ha
    obtain ⟨b, -, hb⟩ := exists_mem_of_forall₂ (forall₂_of_mapM_eq_ok h) ha
    exact ⟨b, hb⟩
  · intro h
    induction l with
    | nil => exact ⟨[], rfl⟩
    | cons a l ih =>
      obtain ⟨⟨b, hb⟩, hrest⟩ := List.forall_mem_cons.1 h
      obtain ⟨bs, hbs⟩ := ih hrest
      refine ⟨b :: bs, ?_⟩
      rw [List.mapM_cons, hb, hbs]
      rfl

theorem getLast?_of_forall₂ {α β : Type} {R : α → β → Prop} {l : List α} {l' : List β}
    (h : List.Forall₂ R l l') : Option.Rel R l.getLast? l'.getLast? := by
  rw [List.getLast?_eq_getElem?, List.getLast?_eq_getElem?, ← h.length_eq]
  cases hx : l[l.length - 1]? with
  | some x =>
    obtain ⟨y, hy, hxy⟩ := exists_getElem?_of_forall₂ h hx
    rw [hy]
    exact .some hxy
  | none =>
    rw [List.getElem?_eq_none (h.length_eq ▸ List.getElem?_eq_none_iff.1 hx)]
    exact .none

/-- If no entry of a list is left out then each of them is found again. -/
theorem forall₂_filterMap {α β : Type} {f : α → Option β} {l : List α}
    (h : ∀ a ∈ l, ∃ b, f a = some b) :
    List.Forall₂ (fun a b => f a = some b) l (l.filterMap f) := by
  induction l with
  | nil => exact .nil
  | cons a l ih =>
    obtain ⟨⟨b, hb⟩, hrest⟩ := List.forall_mem_cons.1 h
    rw [List.filterMap_cons_some hb]
    exact .cons hb (ih hrest)

namespace GrammarDecl

open SymbolTable

variable {d : GrammarDecl} {kinds : List TokenKind} {t u : SymbolTable} {g : Grammar}
  {p : ProductionDecl} {q : Production} {name : String}

/-- Token kinds can be defined whose names are neither reserved nor those of nonterminals. -/
theorem exists_defineTerminals (hu : u.Numbered)
    (h : ∀ k ∈ kinds, isReserved k.name = false ∧ k.name ∉ u.nonterminals) :
    ∃ t, defineTerminals u kinds = .ok t ∧ t.nonterminals = u.nonterminals ∧
      ∀ name, name ∈ t.terminals ↔ name ∈ u.terminals ∨ ∃ k ∈ kinds, k.name = name := by
  induction kinds generalizing u with
  | nil => exact ⟨u, rfl, rfl, by simp⟩
  | cons k kinds ih =>
    obtain ⟨⟨hreserved, hnot⟩, hrest⟩ := List.forall_mem_cons.1 h
    obtain ⟨s, u', hu', hnonterminals, hmem⟩ := hu.exists_defineTerminal hreserved hnot
    obtain ⟨t, ht, hnonterminals', hmem'⟩ :=
      ih (hu.defineTerminal hu').1 (by rwa [hnonterminals])
    refine ⟨t, ?_, hnonterminals'.trans hnonterminals, fun name => ?_⟩
    · rw [defineTerminals, hu']
      exact ht
    · rw [hmem', hmem, or_assoc, List.exists_mem_cons_iff, eq_comm (a := k.name)]

/-- The table of the token kinds and of the left sides. -/
theorem exists_defineTerminals_empty (hkinds : ∀ k ∈ kinds, isReserved k.name = false) :
    ∃ t, defineTerminals {} kinds = .ok t ∧ t.Numbered ∧ t.nonterminals = ["$START"] ∧
      ∀ name, name ∈ t.terminals ↔ name = Token.endKind ∨ ∃ k ∈ kinds, k.name = name := by
  obtain ⟨t, ht, hnonterminals, hmem⟩ := exists_defineTerminals numbered_empty fun k hk => by
    refine ⟨hkinds k hk, fun hin => ?_⟩
    obtain hstart : k.name = "$START" := List.mem_singleton.1 hin
    have hreserved := hkinds k hk
    rw [hstart] at hreserved
    exact absurd hreserved (by decide)
  refine ⟨t, ht, (numbered_of_defineTerminals numbered_empty ht).1, hnonterminals, fun name => ?_⟩
  rw [hmem]
  exact or_congr_left List.mem_singleton

/-- The names that a symbol table has to hold: those of the token kinds and of the left sides. -/
structure Tabulates (d : GrammarDecl) (kinds : List TokenKind) (t : SymbolTable) : Prop where
  numbered : t.Numbered
  mem_terminals_iff : ∀ name, name ∈ t.terminals ↔
    name = Token.endKind ∨ ∃ k ∈ kinds, k.name = name
  mem_nonterminals_iff : ∀ name, name ∈ t.nonterminals ↔
    name = "$START" ∨ ∃ p ∈ d.productions, p.left = name
  left : ∀ p ∈ d.productions, isReserved p.left = false

theorem tabulates_of_symbolTable (hkinds : ∀ k ∈ kinds, isReserved k.name = false)
    (h : d.symbolTable kinds = .ok t) : d.Tabulates kinds t := by
  obtain ⟨hnum, -, hleft⟩ := numbered_of_symbolTable h
  obtain ⟨u, hu, hnumu, hnonterminals, hterminals⟩ := exists_defineTerminals_empty hkinds
  unfold symbolTable at h
  split at h
  · cases h
  obtain ⟨-, -, h⟩ := bind_eq_ok_iff.1 h
  rw [hu] at h
  obtain ⟨heq, hmem⟩ := nonterminals_of_defineNonterminals hnumu h
  refine ⟨hnum, fun name => ?_, fun name => ?_, fun p hp => (hleft p hp).1⟩
  · rw [heq, hterminals]
  · rw [hmem, hnonterminals, List.mem_singleton]

/-- A table can be made if there are productions, and if no left side is reserved or a kind. -/
theorem exists_symbolTable (hkinds : ∀ k ∈ kinds, isReserved k.name = false)
    (hne : d.productions ≠ []) (hleft : ∀ p ∈ d.productions, isReserved p.left = false)
    (hkind : ∀ p ∈ d.productions, ∀ k ∈ kinds, k.name ≠ p.left) :
    ∃ t, d.symbolTable kinds = .ok t := by
  obtain ⟨u, hu, hnumu, -, hterminals⟩ := exists_defineTerminals_empty hkinds
  obtain ⟨t, ht⟩ : ∃ t, defineNonterminals u d.productions = .ok t := by
    refine exists_defineNonterminals hnumu fun p hp => ⟨hleft p hp, fun hin => ?_⟩
    rcases (hterminals _).1 hin with hend | ⟨k, hk, hname⟩
    · have hreserved := hleft p hp
      rw [hend] at hreserved
      exact absurd hreserved (by decide)
    · exact hkind p hp k hk hname
  refine ⟨t, ?_⟩
  unfold symbolTable
  rw [if_neg (by simpa using hne), hu]
  exact ht

/-- A name on a right side is a symbol if it is a token kind or a left side. -/
theorem Tabulates.isSome_symbol?_iff (h : d.Tabulates kinds t)
    (hkinds : ∀ k ∈ kinds, isReserved k.name = false) :
    (∃ s, ProductionDecl.symbol? t name = some s) ↔
      (∃ k ∈ kinds, k.name = name) ∨ ∃ p ∈ d.productions, p.left = name := by
  simp only [symbol?_eq_some_iff]
  constructor
  · rintro ⟨s, hreserved, hs⟩
    cases s with
    | terminal n =>
      rcases (h.mem_terminals_iff name).1 (h.numbered.mem_terminals_iff.2 ⟨n, hs⟩) with rfl | hk
      · exact absurd hreserved (by decide)
      · exact .inl hk
    | nonterminal n =>
      rcases (h.mem_nonterminals_iff name).1 (h.numbered.mem_nonterminals_iff.2 ⟨n, hs⟩) with
        rfl | hp
      · exact absurd hreserved (by decide)
      · exact .inr hp
  · rintro (hk | hp)
    · obtain ⟨n, hn⟩ := h.numbered.mem_terminals_iff.1 ((h.mem_terminals_iff name).2 (.inr hk))
      obtain ⟨k, hk, rfl⟩ := hk
      exact ⟨_, hkinds k hk, hn⟩
    · obtain ⟨n, hn⟩ :=
        h.numbered.mem_nonterminals_iff.1 ((h.mem_nonterminals_iff name).2 (.inr hp))
      obtain ⟨p, hp, rfl⟩ := hp
      exact ⟨_, h.left p hp, hn⟩

theorem exists_startSymbol_iff (hnum : t.Numbered) :
    (∃ n, d.startSymbol t = .ok n) ↔ d.startName ∈ t.nonterminals := by
  rw [hnum.mem_nonterminals_iff]
  unfold startSymbol
  split
  · rename_i n hn
    exact ⟨fun _ => ⟨n, hn⟩, fun _ => ⟨n, rfl⟩⟩
  · rename_i hnot
    exact ⟨nofun, fun ⟨n, hn⟩ => absurd hn (hnot n)⟩

/-- A production can be resolved if its tag has a precedence. -/
theorem exists_resolveProduction_iff : (∃ q, d.resolveProduction t p = .ok q) ↔
    ∀ tag, p.tag = some tag → d.precedence? tag ≠ none := by
  unfold resolveProduction
  cases p.tag with
  | none => simp
  | some tag => cases htag : d.precedence? tag <;> simp [htag]

/-- What has been resolved is consistent. -/
theorem not_inconsistent_of_resolve (hkinds : ∀ k ∈ kinds, isReserved k.name = false)
    (h : d.resolve kinds = .ok g) : ¬ d.Inconsistent kinds := by
  obtain ⟨hsymbols, -, hproductions, -⟩ := resolve_eq_ok h
  have htab := tabulates_of_symbolTable hkinds hsymbols
  intro hbad
  cases hbad with
  | noProductions hnil =>
    rw [symbolTable, hnil] at hsymbols
    cases hsymbols
  | reservedLeft hp hreserved =>
    rw [htab.left _ hp] at hreserved
    cases hreserved
  | kindDerived hp hk hname =>
    obtain ⟨-, hterminal, hnonterminal⟩ := numbered_of_symbolTable hsymbols
    obtain ⟨n, hn⟩ := hterminal _ hk
    obtain ⟨-, m, hm⟩ := hnonterminal _ hp
    rw [hname, hm] at hn
    cases hn
  | undefinedTag hp htag hnone =>
    exact exists_resolveProduction_iff.1
      (exists_mapM_eq_ok_iff.1 ⟨_, hproductions⟩ _ hp) _ htag hnone
  | undefinedSymbol hp hname hkind hleft =>
    rcases (htab.isSome_symbol?_iff hkinds).1 (exists_symbol_of_resolve h hp hname) with
      ⟨k, hk, hk'⟩ | ⟨q, hq, hq'⟩
    · exact hkind k hk hk'
    · exact hleft q hq hq'

/-- In a consistent grammar no name on a right side is undefined. -/
theorem Tabulates.undefinedUses_eq_nil (h : d.Tabulates kinds t)
    (hkinds : ∀ k ∈ kinds, isReserved k.name = false) (hgood : ¬ d.Inconsistent kinds) :
    d.undefinedUses t = [] := by
  refine GrammarDecl.undefinedUses_eq_nil fun p hp => List.filter_eq_nil_iff.2 fun name hname => ?_
  rw [← Option.not_isSome, Bool.not_eq_true', Bool.not_eq_false, Option.isSome_iff_exists,
    h.isSome_symbol?_iff hkinds]
  by_contra hnot
  obtain ⟨hkind, hleft⟩ := not_or.1 hnot
  exact hgood (.undefinedSymbol hp hname (fun k hk hk' => hkind ⟨k, hk, hk'⟩)
    fun q hq hq' => hleft ⟨q, hq, hq'⟩)

/-- **Which grammars are resolved**: those without an inconsistency whose start symbol is a left
side, or the origin. -/
theorem exists_resolve_iff (hkinds : ∀ k ∈ kinds, isReserved k.name = false) :
    (∃ g, d.resolve kinds = .ok g) ↔
      ¬ d.Inconsistent kinds ∧ (d.startName = "$START" ∨ ¬ d.StartsNowhere) := by
  have hstarts : ∀ {t}, d.Tabulates kinds t →
      ((∃ n, d.startSymbol t = .ok n) ↔ d.startName = "$START" ∨ ¬ d.StartsNowhere) := by
    intro t htab
    rw [exists_startSymbol_iff htab.numbered, htab.mem_nonterminals_iff]
    simp [StartsNowhere]
  constructor
  · rintro ⟨g, h⟩
    obtain ⟨hsymbols, hstart, -⟩ := resolve_eq_ok h
    exact ⟨not_inconsistent_of_resolve hkinds h,
      (hstarts (tabulates_of_symbolTable hkinds hsymbols)).1 ⟨_, hstart⟩⟩
  · rintro ⟨hgood, hstart⟩
    obtain ⟨t, ht⟩ := exists_symbolTable hkinds (fun hnil => hgood (.noProductions hnil))
      (fun p hp => Bool.eq_false_iff.2 fun hreserved => hgood (.reservedLeft hp hreserved))
      (fun p hp k hk hname => hgood (.kindDerived hp hk hname))
    have htab := tabulates_of_symbolTable hkinds ht
    obtain ⟨n, hn⟩ := (hstarts htab).2 hstart
    obtain ⟨qs, hqs⟩ : ∃ qs, d.productions.mapM (d.resolveProduction t) = .ok qs :=
      exists_mapM_eq_ok_iff.2 fun p hp => exists_resolveProduction_iff.2 fun tag htag hnone =>
        hgood (.undefinedTag hp htag hnone)
    refine ⟨⟨t, (d.terminals t).toArray, t.nonterminals.toArray, qs, n⟩, ?_⟩
    refine bind_eq_ok_iff.2 ⟨t, ht, bind_eq_ok_iff.2 ⟨n, hn, bind_eq_ok_iff.2 ⟨qs, hqs, ?_⟩⟩⟩
    rw [htab.undefinedUses_eq_nil hkinds hgood]
    rfl

/-! ### What is resolved -/

/-- The names of a resolved grammar and its symbols correspond to each other. -/
theorem lookup_eq_some_iff_of_resolve (h : d.resolve kinds = .ok g) {s : Symbol} :
    g.symbols.lookup name = some s ↔
      s.Within g.nonterminals.size g.terminals.size ∧ g.symbolName s = name := by
  obtain ⟨hsymbols, -, -, hterminals, hnonterminals⟩ := resolve_eq_ok h
  have hnum := (numbered_of_symbolTable hsymbols).1
  cases s with
  | terminal n =>
    rw [hnum.lookup_eq_terminal_iff, ← map_name_terminals (d := d), List.getElem?_map,
      Option.map_eq_some_iff]
    simp only [List.getElem?_eq_some_iff, Symbol.Within, Grammar.symbolName, hterminals,
      List.size_toArray]
    constructor
    · rintro ⟨_, ⟨hlt, rfl⟩, rfl⟩
      exact ⟨hlt, by simp [hlt]⟩
    · rintro ⟨hlt, rfl⟩
      exact ⟨_, ⟨hlt, rfl⟩, by simp [hlt]⟩
  | nonterminal n =>
    rw [hnum.lookup_eq_nonterminal_iff, List.getElem?_eq_some_iff]
    simp only [Symbol.Within, Grammar.symbolName, hnonterminals, List.size_toArray]
    constructor
    · rintro ⟨hlt, rfl⟩
      exact ⟨hlt, by simp [hlt]⟩
    · rintro ⟨hlt, rfl⟩
      exact ⟨hlt, by simp [hlt]⟩

/-- The numbers of one sort of symbols are those of its names, one for each. -/
theorem bijOn_symbolName (h : d.resolve kinds = .ok g) {symbol : Nat → Symbol} {size : Nat}
    {names : Set String} (hinj : Function.Injective symbol)
    (hwithin : ∀ n, (symbol n).Within g.nonterminals.size g.terminals.size ↔ n < size)
    (hnames : ∀ name, name ∈ names ↔ ∃ n, g.symbols.lookup name = some (symbol n)) :
    Set.BijOn (fun n => g.symbolName (symbol n)) (Set.Iio size) names := by
  have hlookup : ∀ n < size, g.symbols.lookup (g.symbolName (symbol n)) = some (symbol n) :=
    fun n hn => (lookup_eq_some_iff_of_resolve h).2 ⟨(hwithin n).2 hn, rfl⟩
  refine ⟨fun n hn => (hnames _).2 ⟨n, hlookup n hn⟩, fun n hn m hm heq => ?_, fun name hname => ?_⟩
  · have heq : g.symbolName (symbol n) = g.symbolName (symbol m) := heq
    exact hinj (Option.some.inj ((hlookup n hn).symm.trans (heq ▸ hlookup m hm)))
  · obtain ⟨n, hn⟩ := (hnames name).1 hname
    obtain ⟨hlt, heq⟩ := (lookup_eq_some_iff_of_resolve h).1 hn
    exact ⟨n, (hwithin n).1 hlt, heq⟩

/-- The last terminal of a right side is its last token kind. -/
theorem lastPrecedence_eq (htab : d.Tabulates kinds t) {names : List String}
    {right : List Symbol}
    (h : List.Forall₂ (fun name s => ProductionDecl.symbol? t name = some s) names right) :
    lastPrecedence (d.terminals t) right =
      ((names.filter fun name => kinds.any (·.name == name)).getLast?).bind d.precedence? := by
  have hkind : ∀ name s, ProductionDecl.symbol? t name = some s →
      ((kinds.any (·.name == name)) ↔ s.isTerminal) := by
    intro name s hs
    obtain ⟨hreserved, hlookup⟩ := symbol?_eq_some_iff.1 hs
    have hmem : (kinds.any (·.name == name)) ↔ name ∈ t.terminals := by
      rw [htab.mem_terminals_iff, List.any_eq_true]
      constructor
      · rintro ⟨k, hk, hname⟩
        exact .inr ⟨k, hk, by simpa using hname⟩
      · rintro (rfl | ⟨k, hk, rfl⟩)
        · exact absurd hreserved (by decide)
        · exact ⟨k, hk, by simp⟩
    rw [hmem, htab.numbered.mem_terminals_iff, hlookup]
    cases s <;> simp [Symbol.isTerminal]
  have hlast := getLast?_of_forall₂ (List.rel_filter (fun name s hs => hkind name s hs) h)
  rw [lastPrecedence]
  generalize (names.filter _).getLast? = last at hlast
  generalize hfound : (right.filter (·.isTerminal)).getLast? = found at hlast
  cases hlast with
  | none => rfl
  | @some name s hs =>
    have hterminal := (List.mem_filter.1 (List.mem_of_getLast? hfound)).2
    cases s with
    | nonterminal n => cases hterminal
    | terminal a =>
      show ((d.terminals t)[a]?).bind (·.precedence) = d.precedence? name
      rw [getElem?_terminals htab.numbered hs]
      rfl

/-- A resolved production is what its declaration says. -/
theorem declares_of_resolveProduction (h : d.resolve kinds = .ok g)
    (hkinds : ∀ k ∈ kinds, isReserved k.name = false) (hp : p ∈ d.productions)
    (hq : d.resolveProduction g.symbols p = .ok q) : d.Declares kinds g p q := by
  have hsymbols := (resolve_eq_ok h).1
  have htab := tabulates_of_symbolTable hkinds hsymbols
  obtain ⟨-, n, hn⟩ := (numbered_of_symbolTable hsymbols).2.2 p hp
  obtain ⟨hleft, hright, haction⟩ := resolveProduction_eq_ok hq
  have hnames : List.Forall₂ (fun name s => ProductionDecl.symbol? g.symbols name = some s)
      p.right q.right :=
    hright ▸ forall₂_filterMap fun name hname => exists_symbol_of_resolve h hp hname
  constructor
  case left =>
    rw [hleft, hn]
    rfl
  case right => exact hnames.imp fun name s hs => (symbol?_eq_some_iff.1 hs).2
  case precedence =>
    rw [declaredPrecedence]
    cases htag : p.tag with
    | none => rw [precedence_of_resolveProduction hq htag, lastPrecedence_eq htab hnames]
    | some tag =>
      unfold resolveProduction at hq
      rw [htag] at hq
      dsimp only at hq ⊢
      split at hq
      · rename_i x hx
        cases hq
        exact hx.symm
      · cases hq
  case action => exact haction

/-- **A resolved grammar is what its declaration says.** -/
theorem resolved_of_resolve (hkinds : ∀ k ∈ kinds, isReserved k.name = false)
    (h : d.resolve kinds = .ok g) : d.Resolved kinds g := by
  obtain ⟨hsymbols, hstart, hproductions, -⟩ := resolve_eq_ok h
  have htab := tabulates_of_symbolTable hkinds hsymbols
  have hdeclares : List.Forall₂ (d.Declares kinds g) d.productions g.productions :=
    ((List.forall₂_and_left _ _).2 ⟨fun _ hp => hp, forall₂_of_mapM_eq_ok hproductions⟩).imp
      fun p q ⟨hp, hq⟩ => declares_of_resolveProduction h hkinds hp hq
  have hzero : g.symbols.lookup Token.endKind = some .endOfInput ∧
      g.symbols.lookup "$START" = some .origin :=
    ⟨htab.numbered.lookup_eq_terminal_iff.2
      (SymbolTable.terminals_eq ▸ htab.numbered.first true),
      htab.numbered.lookup_eq_nonterminal_iff.2 htab.numbered.getElem?_nonterminals_zero⟩
  constructor
  case terminals =>
    refine bijOn_symbolName h (fun _ _ => Symbol.terminal.inj) (fun n => Iff.rfl) fun name => ?_
    rw [← htab.numbered.mem_terminals_iff]
    exact (htab.mem_terminals_iff name).symm
  case nonterminals =>
    refine bijOn_symbolName h (fun _ _ => Symbol.nonterminal.inj) (fun n => Iff.rfl) fun name => ?_
    rw [← htab.numbered.mem_nonterminals_iff]
    exact (htab.mem_nonterminals_iff name).symm
  case endOfInput => exact ((lookup_eq_some_iff_of_resolve h).1 hzero.1).2
  case origin => exact ((lookup_eq_some_iff_of_resolve h).1 hzero.2).2
  case lookup => exact fun name s => lookup_eq_some_iff_of_resolve h
  case start =>
    unfold startSymbol at hstart
    split at hstart
    · rename_i n hn
      cases hstart
      exact hn
    · cases hstart
  case productions => exact hdeclares
  case productionsOf =>
    intro name n hn
    refine List.rel_filter (fun p q hpq => ?_) hdeclares
    simp only [decide_eq_true_eq]
    constructor
    · rintro rfl
      exact Symbol.nonterminal.inj (Option.some.inj (hpq.left.symm.trans hn))
    · rintro rfl
      exact (((lookup_eq_some_iff_of_resolve h).1 hpq.left).2).symm.trans
        ((lookup_eq_some_iff_of_resolve h).1 hn).2

/-! ### Faults -/

theorem exists_of_defineTerminals_eq_error {fault : SymbolFault}
    (h : defineTerminals t kinds = .error fault) : ∃ name, fault = .notTokenKind name := by
  induction kinds generalizing t with
  | nil => cases h
  | cons k kinds ih =>
    rw [defineTerminals] at h
    rcases bind_eq_error_iff.1 h with h | ⟨⟨s, u⟩, -, h⟩
    · unfold SymbolTable.defineTerminal at h
      split at h <;> cases h
      exact ⟨_, rfl⟩
    · exact ih h

theorem exists_of_defineNonterminals_eq_error {ps : List ProductionDecl} {fault : GrammarFault}
    (h : defineNonterminals t ps = .error fault) :
    ∃ name, fault = .reservedLeft name ∨ fault = .symbol (.tokenKindDerived name) := by
  induction ps generalizing t with
  | nil => cases h
  | cons p ps ih =>
    rw [defineNonterminals] at h
    split at h
    · cases h
      exact ⟨_, .inl rfl⟩
    · split at h
      · rename_i fault' hfault
        unfold SymbolTable.defineNonterminal at hfault
        split at hfault <;> cases hfault
        cases h
        exact ⟨_, .inr rfl⟩
      · exact ih h

theorem exists_of_mapM_eq_error {ε α β : Type} {f : α → Except ε β} {l : List α} {e : ε}
    (h : l.mapM f = .error e) : ∃ a ∈ l, f a = .error e := by
  induction l with
  | nil => cases h
  | cons a l ih =>
    rw [List.mapM_cons] at h
    rcases bind_eq_error_iff.1 h with h | ⟨b, -, h⟩
    · exact ⟨a, List.mem_cons_self .., h⟩
    · rcases bind_eq_error_iff.1 h with h | ⟨bs, -, h⟩
      · obtain ⟨a', ha', h⟩ := ih h
        exact ⟨a', List.mem_cons_of_mem _ ha', h⟩
      · cases h

/-- A fault of resolving names is one of the declarations: no name is looked up in the table that
may be unknown. -/
theorem ne_undefined_of_resolve {fault : GrammarFault} (h : d.resolve kinds = .error fault)
    (name : String) : fault ≠ .symbol (.undefined name) := by
  rintro rfl
  unfold resolve at h
  rcases bind_eq_error_iff.1 h with h | ⟨t, -, h⟩
  · unfold symbolTable at h
    split at h
    · cases h
    rcases bind_eq_error_iff.1 h with h | ⟨u, -, h⟩
    · cases hkinds : defineTerminals {} kinds with
      | ok u =>
        rw [hkinds] at h
        cases h
      | error fault =>
        obtain ⟨other, rfl⟩ := exists_of_defineTerminals_eq_error hkinds
        rw [hkinds] at h
        cases h
    · obtain ⟨other, h | h⟩ := exists_of_defineNonterminals_eq_error h <;> cases h
  rcases bind_eq_error_iff.1 h with h | ⟨n, -, h⟩
  · unfold startSymbol at h
    split at h <;> cases h
  rcases bind_eq_error_iff.1 h with h | ⟨qs, -, h⟩
  · obtain ⟨p, -, h⟩ := exists_of_mapM_eq_error h
    unfold resolveProduction at h
    dsimp only at h
    split at h
    · cases h
    · split at h <;> cases h
  dsimp only at h
  split at h <;> cases h

end GrammarDecl

namespace Description

/-- **Symbol resolution rejects the inconsistent grammars, and a start symbol that is no left side
unless it is `$START`.** For every description that some calls have built, those that failed
included, the grammar cannot be resolved just if it is inconsistent, or if the start symbol is
neither a left side nor the origin; the fault is one of the declarations. Otherwise the symbols are
numbered one to one, with the end of the input and the origin first, and the productions are those
declared, each below its left side. -/
theorem resolveGrammar_fails_iff (room : Nat) (calls : List Call) :
    let d := after room {} calls
    ((∃ fault, d.resolveGrammar = .error fault) ↔ d.grammar.Inconsistent d.kinds ∨
      d.grammar.StartsNowhere ∧ d.grammar.startName ≠ "$START") ∧
    (∀ fault, d.resolveGrammar = .error fault → ∀ name, fault ≠ .symbol (.undefined name)) ∧
    ∀ g, d.resolveGrammar = .ok g → d.grammar.Resolved d.kinds g := by
  intro d
  have hkinds := (builtBy_after room calls).unreserved
  refine ⟨?_, fun fault h => GrammarDecl.ne_undefined_of_resolve h,
    fun g h => GrammarDecl.resolved_of_resolve hkinds h⟩
  have hiff : (∃ fault, d.resolveGrammar = .error fault) ↔ ¬ ∃ g, d.resolveGrammar = .ok g := by
    cases d.resolveGrammar <;> simp
  have hresolve : (∃ g, d.resolveGrammar = .ok g) ↔ _ := GrammarDecl.exists_resolve_iff hkinds
  rw [hiff, hresolve]
  tauto

/-- Calls that describe lists. One of them fails, as the name of its kind is reserved. -/
def listing : List Call :=
  [.token "COMMA" none, .token "$EOF" none, .token "ITEM" none, .group "left" ["COMMA"],
    .production "list" ["list", "COMMA", "item"] .list none, .production "list" ["item"] .list none,
    .production "item" ["ITEM"] .first (some "COMMA"), .start (some "list")]

/-- The grammar of lists is resolved, and to what its declaration says. -/
theorem resolved_listing : ∃ g, (after 0 {} listing).resolveGrammar = .ok g ∧
    (after 0 {} listing).grammar.Resolved (after 0 {} listing).kinds g := by
  obtain ⟨g, hg⟩ : ∃ g, (after 0 {} listing).resolveGrammar = .ok g := by
    have hsome : (after 0 {} listing).resolveGrammar.toOption.isSome = true := by decide +kernel
    obtain ⟨g, hg⟩ := Option.isSome_iff_exists.1 hsome
    exact ⟨g, toOption_eq_some_iff.1 hg⟩
  exact ⟨g, hg, (resolveGrammar_fails_iff 0 listing).2.2 g hg⟩

/-- **A parser belongs to the grammar that its description declares.** If a description is as calls
build it and compiled to a parse table, then its names have been resolved to what the declarations
say, and the table is that of the state graph of this grammar. What is proved of a parser by the
grammar that its description is resolved to is thus said of the declared symbols, productions and
actions. -/
theorem exists_resolved_of_compile {calls : List Call} {d : Description} {options : Options}
    {compiled : Compiled} {table : Lr.ParseTable} (hbuilt : BuiltBy calls d)
    (hcompile : (d.compile options).1 = .ok compiled)
    (htable : compiled.parseTable = some table) :
    ∃ g, d.resolveGrammar = .ok g ∧ d.grammar.Resolved d.kinds g ∧
      Lr.ParseTable.ofGraph (Lr.Context.ofGrammar g)
        (Lr.Graph.build (Lr.Context.ofGrammar g) options.method) = (table, []) := by
  have houtcome := (d.tables_of_compile options hcompile).1 table htable
  obtain ⟨g, hg, hfound⟩ := (d.parserOutcome_eq_ok_iff options).1 houtcome
  exact ⟨g, hg, GrammarDecl.resolved_of_resolve hbuilt.unreserved hg, hfound⟩

/-- Calls that make the origin the start symbol. -/
def startAtOrigin : List Call :=
  [.token "X" none, .production "s" ["X"] .first none, .start (some "$START")]

/-- **The origin is accepted as the start symbol**, though no production has it on its left side. -/
theorem resolves_startAtOrigin : (after 0 {} startAtOrigin).grammar.StartsNowhere ∧
    ∃ g, (after 0 {} startAtOrigin).resolveGrammar = .ok g := by
  have hsome : (after 0 {} startAtOrigin).resolveGrammar.toOption.isSome = true := by decide +kernel
  obtain ⟨g, hg⟩ := Option.isSome_iff_exists.1 hsome
  refine ⟨fun p hp => ?_, g, toOption_eq_some_iff.1 hg⟩
  obtain rfl := List.mem_singleton.1 hp
  decide

end Description

end LexParse
