import LexParse.Grammar.Resolve
import LexParse.Proofs.Grammar.First

/-!
# What resolving a grammar guarantees

A grammar that comes out of `GrammarDecl.resolve` is *well formed*: its productions use only numbers
of declared symbols, the end of the input and the origin are kept out of them, and terminal zero is
the end of the input. The statement is `GrammarDecl.wellFormed_of_resolve`. It rests on an invariant
of symbol tables, that a symbol's number is its place among the symbols of its sort, which every
definition keeps.

The start symbol may be the origin itself. Nothing is derived from it then, as no declared
production has it on its left side.
-/

namespace LexParse

/-- What the construction of a parser relies on. -/
structure Grammar.WellFormed (g : Grammar) : Prop where
  within : ∀ p ∈ g.productions, p.Within g.nonterminals.size g.terminals.size
  left_pos : ∀ p ∈ g.productions, 0 < p.left
  end_notMem : ∀ p ∈ g.productions, .endOfInput ∉ p.right
  origin_notMem : ∀ p ∈ g.productions, .origin ∉ p.right
  start_lt : g.start < g.nonterminals.size
  end_first : (g.terminals.map (·.name))[0]? = some Token.endKind
  nodup_names : (g.terminals.map (·.name)).toList.Nodup

namespace Grammar.WellFormed

variable {g : Grammar} (hg : g.WellFormed)
include hg

theorem terminals_pos : 0 < g.terminals.size := by
  have := (Array.getElem?_eq_some_iff.1 hg.end_first).1
  simpa using this

theorem within_augmented : ∀ p ∈ g.augmented, p.Within g.nonterminals.size g.terminals.size := by
  intro p hp
  rcases List.mem_cons.1 hp with rfl | hp
  · refine ⟨Nat.lt_of_le_of_lt (Nat.zero_le _) hg.start_lt, fun s hs => ?_⟩
    simp only [wholeInput, List.mem_cons, List.not_mem_nil, or_false] at hs
    rcases hs with rfl | rfl
    · exact hg.start_lt
    · exact hg.terminals_pos
  · exact hg.within p hp

end Grammar.WellFormed

/-! ### Computations that may fail -/

/-- A computation that succeeds in two steps succeeds in each. -/
theorem bind_eq_ok_iff {ε α β : Type} {x : Except ε α} {f : α → Except ε β} {b : β} :
    x >>= f = .ok b ↔ ∃ a, x = .ok a ∧ f a = .ok b := by
  cases x with
  | error e => simp [bind, Except.bind]
  | ok a => simp [bind, Except.bind]

/-- A computation that fails in two steps fails in one of them. -/
theorem bind_eq_error_iff {ε α β : Type} {x : Except ε α} {f : α → Except ε β} {e : ε} :
    x >>= f = .error e ↔ x = .error e ∨ ∃ a, x = .ok a ∧ f a = .error e := by
  cases x with
  | error e' => simp [bind, Except.bind]
  | ok a => simp [bind, Except.bind]

theorem mapError_eq_ok_iff {ε δ α : Type} {f : ε → δ} {x : Except ε α} {a : α} :
    x.mapError f = .ok a ↔ x = .ok a := by
  cases x <;> simp [Except.mapError]

theorem map_eq_ok_iff {ε α β : Type} {f : α → β} {x : Except ε α} {b : β} :
    x.map f = .ok b ↔ ∃ a, x = .ok a ∧ f a = b := by
  cases x <;> simp [Except.map]

theorem toOption_eq_some_iff {ε α : Type} {x : Except ε α} {a : α} :
    x.toOption = some a ↔ x = .ok a := by
  cases x <;> simp [Except.toOption]

/-- Computations on all entries of a list succeed one by one. -/
theorem forall₂_of_mapM_eq_ok {ε α β : Type} {f : α → Except ε β} {l : List α} {l' : List β}
    (h : l.mapM f = .ok l') : List.Forall₂ (fun a b => f a = .ok b) l l' := by
  induction l generalizing l' with
  | nil =>
    cases h
    exact .nil
  | cons a rest ih =>
    rw [List.mapM_cons] at h
    obtain ⟨c, hc, h⟩ := bind_eq_ok_iff.1 h
    obtain ⟨cs, hcs, h⟩ := bind_eq_ok_iff.1 h
    cases h
    exact .cons hc (ih hcs)

/-! ### Lists that agree entry by entry -/

section
variable {α β γ : Type} {R : α → β → Prop} {l : List α} {l' : List β} {x : α}

theorem exists_getElem?_of_forall₂ (h : List.Forall₂ R l l') {i : Nat} (hx : l[i]? = some x) :
    ∃ y, l'[i]? = some y ∧ R x y := by
  induction h generalizing i with
  | nil => cases hx
  | cons hxy _ ih =>
    cases i with
    | zero =>
      cases hx
      exact ⟨_, rfl, hxy⟩
    | succ i => exact ih hx

theorem exists_mem_of_forall₂ (h : List.Forall₂ R l l') (hx : x ∈ l) : ∃ y ∈ l', R x y := by
  obtain ⟨i, hi⟩ := List.mem_iff_getElem?.1 hx
  obtain ⟨y, hy, hxy⟩ := exists_getElem?_of_forall₂ h hi
  exact ⟨y, List.mem_of_getElem? hy, hxy⟩

theorem map_eq_of_forall₂ {f : α → γ} {f' : β → γ} (h : List.Forall₂ R l l')
    (hf : ∀ x y, R x y → f x = f' y) : l.map f = l'.map f' := by
  induction h with
  | nil => rfl
  | cons hxy _ ih => rw [List.map_cons, List.map_cons, hf _ _ hxy, ih]

end

/-- An entry of a list with one more entry is an old one, or the new one behind them. -/
theorem getElem?_append_singleton_eq_some_iff {α : Type} {l : List α} {a b : α} {i : Nat} :
    (l ++ [a])[i]? = some b ↔ l[i]? = some b ∨ i = l.length ∧ a = b := by
  rw [List.getElem?_append]
  split
  · rename_i h
    simp [Nat.ne_of_lt h]
  · rename_i h
    have hnone : l[i]? = none := List.getElem?_eq_none (by omega)
    rw [hnone, List.getElem?_singleton]
    split
    · have : i = l.length := by omega
      simp [this]
    · have : i ≠ l.length := by omega
      simp [this]

namespace SymbolTable

variable {t t' : SymbolTable} {name : String} {s : Symbol}

/-- The entries of one sort of symbols, in the order in which they were defined. -/
def ofSort (t : SymbolTable) (isTerminal : Bool) : List (String × Symbol) :=
  t.entries.filter (·.2.isTerminal == isTerminal)

theorem terminals_eq : t.terminals = (t.ofSort true).map (·.1) := by
  simp [terminals, ofSort]

theorem nonterminals_eq : t.nonterminals = (t.ofSort false).map (·.1) := by
  simp [nonterminals, ofSort]

/-- The number of a symbol is its place among the symbols of its sort, the first symbols are the end
of the input and the origin, and no name is used twice. -/
structure Numbered (t : SymbolTable) : Prop where
  number : ∀ (sort : Bool) (i : Nat) (e : String × Symbol),
    (t.ofSort sort)[i]? = some e → e.2.number = i
  first : ∀ sort : Bool,
    ((t.ofSort sort).map (·.1))[0]? = some (if sort then "$EOF" else "$START")
  nodup : t.names.Nodup

theorem numbered_empty : Numbered {} := by
  refine ⟨fun sort i e h => ?_, fun sort => by cases sort <;> rfl, by decide⟩
  match sort, i with
  | true, 0 | false, 0 =>
    cases h
    rfl
  | true, i + 1 | false, i + 1 => cases h

theorem mem_of_lookup (h : t.lookup name = some s) : (name, s) ∈ t.entries := by
  obtain ⟨l, r, he, -⟩ := List.lookup_eq_some_iff.1 h
  rw [he]
  simp

/-- The name of a symbol stands at its number. -/
theorem Numbered.name_of_lookup (h : t.Numbered) (hl : t.lookup name = some s) :
    ((t.ofSort s.isTerminal).map (·.1))[s.number]? = some name := by
  have hmem : (name, s) ∈ t.ofSort s.isTerminal :=
    List.mem_filter.2 ⟨mem_of_lookup hl, by simp⟩
  obtain ⟨i, hi⟩ := List.mem_iff_getElem?.1 hmem
  have hn : s.number = i := h.number _ i _ hi
  rw [hn, List.getElem?_map, hi]
  rfl

theorem Numbered.number_lt (h : t.Numbered) (hl : t.lookup name = some s) :
    s.Within t.nonterminals.length t.terminals.length := by
  have hlt := (List.getElem?_eq_some_iff.1 (h.name_of_lookup hl)).1
  cases s with
  | terminal n => rwa [terminals_eq]
  | nonterminal n => rwa [nonterminals_eq]

/-- Only the end of the input and the origin have number zero, and their names are reserved. -/
theorem Numbered.number_pos (h : t.Numbered) (hl : t.lookup name = some s)
    (hname : isReserved name = false) : 0 < s.number := by
  by_contra hz
  have hfirst := h.name_of_lookup hl
  rw [Nat.eq_zero_of_not_pos hz, h.first] at hfirst
  cases hfirst
  cases hs : s.isTerminal <;> rw [hs] at hname <;> revert hname <;> decide

theorem lookup_push_of_lookup (h : t.lookup name = some s) (other : String) (s' : Symbol) :
    (t.push other s').lookup name = some s := by
  rw [lookup] at h ⊢
  rw [push, List.lookup_append, h]
  rfl

theorem lookup_push_self (h : t.lookup name = none) : (t.push name s).lookup name = some s := by
  rw [lookup] at h ⊢
  rw [push, List.lookup_append, h]
  simp

theorem ofSort_push_self : (t.push name s).ofSort s.isTerminal =
    t.ofSort s.isTerminal ++ [(name, s)] := by
  simp [push, ofSort]

theorem ofSort_push_of_ne {sort : Bool} (h : s.isTerminal ≠ sort) :
    (t.push name s).ofSort sort = t.ofSort sort := by
  simp [push, ofSort, h]

theorem Numbered.push (h : t.Numbered) (hnone : t.lookup name = none)
    (hs : s.number = (t.ofSort s.isTerminal).length) : (t.push name s).Numbered := by
  refine ⟨fun sort i e hi => ?_, fun sort => ?_, ?_⟩
  · by_cases hsort : s.isTerminal = sort
    · subst hsort
      rw [ofSort_push_self] at hi
      rcases getElem?_append_singleton_eq_some_iff.1 hi with hi | ⟨rfl, rfl⟩
      · exact h.number _ i e hi
      · exact hs
    · rw [ofSort_push_of_ne hsort] at hi
      exact h.number _ i e hi
  · by_cases hsort : s.isTerminal = sort
    · subst hsort
      have hlt := (List.getElem?_eq_some_iff.1 (h.first s.isTerminal)).1
      rw [ofSort_push_self, List.map_append, List.getElem?_append_left hlt]
      exact h.first _
    · rw [ofSort_push_of_ne hsort]
      exact h.first _
  · have hnames : (t.push name s).names = t.names ++ [name] := List.map_append
    rw [hnames, ← List.concat_eq_append]
    refine h.nodup.concat fun hmem => ?_
    obtain ⟨⟨_, s'⟩, he, rfl⟩ := List.mem_map.1 hmem
    simpa using List.lookup_eq_none_iff.1 hnone _ he

/-- A definition keeps the numbering and what has been defined, and defines its name. -/
theorem Numbered.defineTerminal (h : t.Numbered) (hd : t.defineTerminal name = .ok (s, t')) :
    t'.Numbered ∧ (∀ other s', t.lookup other = some s' → t'.lookup other = some s') ∧
      ∃ n, t'.lookup name = some (.terminal n) := by
  unfold SymbolTable.defineTerminal at hd
  split at hd
  · rename_i hnone
    cases hd
    refine ⟨h.push hnone ?_, fun other s' hl => lookup_push_of_lookup hl _ _,
      ⟨_, lookup_push_self hnone⟩⟩
    rw [terminals_eq, List.length_map]
    rfl
  · rename_i n hn
    cases hd
    exact ⟨h, fun _ _ hl => hl, _, hn⟩
  · cases hd

theorem Numbered.defineNonterminal (h : t.Numbered) (hd : t.defineNonterminal name = .ok (s, t')) :
    t'.Numbered ∧ (∀ other s', t.lookup other = some s' → t'.lookup other = some s') ∧
      ∃ n, t'.lookup name = some (.nonterminal n) := by
  unfold SymbolTable.defineNonterminal at hd
  split at hd
  · rename_i hnone
    cases hd
    refine ⟨h.push hnone ?_, fun other s' hl => lookup_push_of_lookup hl _ _,
      ⟨_, lookup_push_self hnone⟩⟩
    rw [nonterminals_eq, List.length_map]
    rfl
  · rename_i n hn
    cases hd
    exact ⟨h, fun _ _ hl => hl, n, hn⟩
  · cases hd

end SymbolTable

namespace GrammarDecl

open SymbolTable

variable {d : GrammarDecl} {kinds : List TokenKind} {t t' : SymbolTable}

/-- After the token kinds have been defined each of them is a terminal. -/
theorem numbered_of_defineTerminals (h : t.Numbered) (hd : defineTerminals t kinds = .ok t') :
    t'.Numbered ∧ (∀ other s, t.lookup other = some s → t'.lookup other = some s) ∧
      ∀ kind ∈ kinds, ∃ n, t'.lookup kind.name = some (.terminal n) := by
  induction kinds generalizing t with
  | nil =>
    cases hd
    exact ⟨h, fun _ _ hl => hl, by simp⟩
  | cons kind rest ih =>
    rw [defineTerminals] at hd
    obtain ⟨⟨s, u⟩, hu, hd⟩ := bind_eq_ok_iff.1 hd
    obtain ⟨hnum, hkeep, n, hn⟩ := h.defineTerminal hu
    obtain ⟨hnum', hkeep', hrest⟩ := ih hnum hd
    refine ⟨hnum', fun other s hl => hkeep' _ _ (hkeep _ _ hl), fun other hother => ?_⟩
    rcases List.mem_cons.1 hother with rfl | hother
    · exact ⟨n, hkeep' _ _ hn⟩
    · exact hrest other hother

/-- After the left sides have been defined each of them is a nonterminal, and none is reserved. -/
theorem numbered_of_defineNonterminals {productions : List ProductionDecl} (h : t.Numbered)
    (hd : defineNonterminals t productions = .ok t') :
    t'.Numbered ∧ (∀ other s, t.lookup other = some s → t'.lookup other = some s) ∧
      ∀ p ∈ productions,
        isReserved p.left = false ∧ ∃ n, t'.lookup p.left = some (.nonterminal n) := by
  induction productions generalizing t with
  | nil =>
    cases hd
    exact ⟨h, fun _ _ hl => hl, by simp⟩
  | cons p rest ih =>
    rw [defineNonterminals] at hd
    split at hd
    · cases hd
    · rename_i hres
      split at hd
      · cases hd
      · rename_i s u hu
        obtain ⟨hnum, hkeep, n, hn⟩ := h.defineNonterminal hu
        obtain ⟨hnum', hkeep', hrest⟩ := ih hnum hd
        refine ⟨hnum', fun other s hl => hkeep' _ _ (hkeep _ _ hl), fun q hq => ?_⟩
        rcases List.mem_cons.1 hq with rfl | hq
        · exact ⟨by simpa using hres, n, hkeep' _ _ hn⟩
        · exact hrest q hq

theorem numbered_of_symbolTable (h : d.symbolTable kinds = .ok t) :
    t.Numbered ∧ (∀ kind ∈ kinds, ∃ n, t.lookup kind.name = some (.terminal n)) ∧
      ∀ p ∈ d.productions,
        isReserved p.left = false ∧ ∃ n, t.lookup p.left = some (.nonterminal n) := by
  unfold symbolTable at h
  split at h
  · cases h
  · obtain ⟨-, -, h⟩ := bind_eq_ok_iff.1 h
    obtain ⟨u, hu, h⟩ := bind_eq_ok_iff.1 h
    obtain ⟨hu', -, hkinds⟩ :=
      numbered_of_defineTerminals numbered_empty (mapError_eq_ok_iff.1 hu)
    obtain ⟨hnum, hkeep, hleft⟩ := numbered_of_defineNonterminals hu' h
    refine ⟨hnum, fun kind hkind => ?_, hleft⟩
    obtain ⟨n, hn⟩ := hkinds kind hkind
    exact ⟨n, hkeep _ _ hn⟩

/-- What a resolved production takes from its declaration. -/
theorem resolveProduction_eq_ok {p : ProductionDecl} {q : Production}
    (h : d.resolveProduction t p = .ok q) :
    q.left = ((t.lookup p.left).map (·.number)).getD 0 ∧
      q.right = p.right.filterMap (ProductionDecl.symbol? t) ∧ q.action = p.action := by
  unfold resolveProduction at h
  dsimp only at h
  split at h
  · cases h
    exact ⟨rfl, rfl, rfl⟩
  · split at h
    · cases h
      exact ⟨rfl, rfl, rfl⟩
    · cases h

/-- The parts of a resolved grammar. -/
theorem resolve_eq_ok {g : Grammar} (h : d.resolve kinds = .ok g) :
    d.symbolTable kinds = .ok g.symbols ∧ d.startSymbol g.symbols = .ok g.start ∧
      d.productions.mapM (d.resolveProduction g.symbols) = .ok g.productions ∧
      g.terminals = (d.terminals g.symbols).toArray ∧
      g.nonterminals = g.symbols.nonterminals.toArray := by
  unfold resolve at h
  obtain ⟨symbols, hsymbols, h⟩ := bind_eq_ok_iff.1 h
  obtain ⟨start, hstart, h⟩ := bind_eq_ok_iff.1 h
  obtain ⟨productions, hproductions, h⟩ := bind_eq_ok_iff.1 h
  dsimp only at h
  split at h
  · cases h
  · cases h
    exact ⟨hsymbols, hstart, hproductions, rfl, rfl⟩

theorem map_name_terminals : (d.terminals t).map (·.name) = t.terminals := by
  refine List.ext_getElem? fun i => ?_
  simp [terminals, Function.comp_def]

theorem wellFormed_of_resolve {g : Grammar} (h : d.resolve kinds = .ok g) : g.WellFormed := by
  obtain ⟨hsymbols, hstart, hproductions, hterminals, hnonterminals⟩ := resolve_eq_ok h
  obtain ⟨hnum, -, hleft⟩ := numbered_of_symbolTable hsymbols
  have hsizeT : g.terminals.size = g.symbols.terminals.length := by
    rw [hterminals, ← map_name_terminals (d := d)]
    simp
  have hsizeN : g.nonterminals.size = g.symbols.nonterminals.length := by
    rw [hnonterminals]
    simp
  -- what a production of the grammar comes from
  have hfrom : ∀ q ∈ g.productions, ∃ p ∈ d.productions,
      d.resolveProduction g.symbols p = .ok q := by
    intro q hq
    exact exists_mem_of_forall₂ (forall₂_of_mapM_eq_ok hproductions).flip hq
  have hright : ∀ q ∈ g.productions, ∀ s ∈ q.right,
      s.Within g.nonterminals.size g.terminals.size ∧ 0 < s.number := by
    intro q hq s hs
    obtain ⟨p, -, hp⟩ := hfrom q hq
    rw [(resolveProduction_eq_ok hp).2.1] at hs
    obtain ⟨name, -, hname⟩ := List.mem_filterMap.1 hs
    unfold ProductionDecl.symbol? at hname
    split at hname
    · cases hname
    · rename_i hres
      rw [hsizeT, hsizeN]
      exact ⟨hnum.number_lt hname, hnum.number_pos hname (by simpa using hres)⟩
  have hleft' : ∀ q ∈ g.productions, q.left < g.nonterminals.size ∧ 0 < q.left := by
    intro q hq
    obtain ⟨p, hpm, hp⟩ := hfrom q hq
    obtain ⟨hres, n, hn⟩ := hleft p hpm
    have hq' : q.left = n := by
      rw [(resolveProduction_eq_ok hp).1, hn]
      rfl
    rw [hq', hsizeN]
    exact ⟨hnum.number_lt hn, hnum.number_pos hn hres⟩
  have hname : (g.terminals.map (·.name)).toList = (g.symbols.ofSort true).map (·.1) := by
    rw [← terminals_eq, hterminals, ← map_name_terminals (d := d)]
    simp
  refine ⟨fun q hq => ⟨(hleft' q hq).1, fun s hs => (hright q hq s hs).1⟩,
    fun q hq => (hleft' q hq).2, fun q hq hs => ?_, fun q hq hs => ?_, ?_, ?_, ?_⟩
  · exact absurd (hright q hq _ hs).2 (by decide)
  · exact absurd (hright q hq _ hs).2 (by decide)
  · unfold startSymbol at hstart
    split at hstart
    · rename_i n hn
      cases hstart
      rw [hsizeN]
      exact hnum.number_lt hn
    · cases hstart
  · rw [← Array.getElem?_toList, hname]
    exact hnum.first true
  · rw [hname]
    exact hnum.nodup.sublist (List.filter_sublist.map _)

end GrammarDecl

end LexParse
