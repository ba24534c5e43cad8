import LexParse.Proofs.Grammar.Operators
import LexParse.Proofs.Grammar.Renaming
import Mathlib.Data.List.Perm.Basic

/-!
# Productions declared in another order

The numbers of the productions are their places among the declarations, and those of the
nonterminals are the places of their first left sides. If the productions are declared in another
order the grammar is resolved as before, to one with other numbers.

This holds if the name of the start symbol stays. Where none is declared the start symbol is the
first left side, and that depends on the order.

## What is proved

* `GrammarDecl.exists_resolve_of_perm`: the grammar of the other order, and the renaming.
-/

namespace LexParse

/-! ### Places in permuted lists -/

/-- Numbers permuted behind a first one that stays. -/
def permuteTail (π : Equiv.Perm Nat) : Equiv.Perm Nat where
  toFun
    | 0 => 0
    | n + 1 => π n + 1
  invFun
    | 0 => 0
    | n + 1 => π.symm n + 1
  left_inv n := by cases n <;> simp
  right_inv n := by cases n <;> simp

section
variable {α β ε : Type} {l l' : List α} {a : α}

theorem getElem?_permuteTail {π : Equiv.Perm Nat} (h : ∀ n, l'[π n]? = l[n]?) (n : Nat) :
    (a :: l')[permuteTail π n]? = (a :: l)[n]? := by
  cases n with
  | zero => rfl
  | succ n => exact h n

/-- A permuted list has its entries at permuted places. -/
theorem exists_getElem?_of_perm (h : l.Perm l') :
    ∃ π : Equiv.Perm Nat, ∀ n, l'[π n]? = l[n]? := by
  induction h with
  | nil => exact ⟨.refl _, fun _ => rfl⟩
  | cons a _ ih =>
    obtain ⟨π, hπ⟩ := ih
    exact ⟨permuteTail π, getElem?_permuteTail hπ⟩
  | swap a b l =>
    refine ⟨Equiv.swap 0 1, fun n => ?_⟩
    match n with
    | 0 => simp
    | 1 => simp
    | n + 2 =>
      rw [Equiv.swap_apply_of_ne_of_ne (by omega) (by omega)]
      simp
  | trans _ _ ih ih' =>
    obtain ⟨π, hπ⟩ := ih
    obtain ⟨π', hπ'⟩ := ih'
    exact ⟨π.trans π', fun n => (hπ' (π n)).trans (hπ n)⟩

/-- The permuted entries of lists without repetition are at one place only. -/
theorem apply_eq_of_getElem? (hl' : l'.Nodup) {π : Equiv.Perm Nat} (h : ∀ n, l'[π n]? = l[n]?)
    {n m : Nat} (hn : l[n]? = some a) (hm : l'[m]? = some a) : π n = m := by
  have hlt := (List.getElem?_eq_some_iff.1 hm).1
  exact ((List.getElem?_inj hlt hl').1 (hm.trans (hn.symm.trans (h n).symm))).symm

/-- Computations on all entries of a list succeed in any order. -/
theorem exists_mapM_of_perm {f : α → Except ε β} (h : l.Perm l') {m : List β}
    (hm : l.mapM f = .ok m) : ∃ m', l'.mapM f = .ok m' ∧ m.Perm m' := by
  induction h generalizing m with
  | nil => exact ⟨m, hm, .refl m⟩
  | cons a _ ih =>
    rw [List.mapM_cons] at hm
    obtain ⟨b, hb, hm⟩ := bind_eq_ok_iff.1 hm
    obtain ⟨bs, hbs, hm⟩ := bind_eq_ok_iff.1 hm
    cases hm
    obtain ⟨bs', hbs', hperm⟩ := ih hbs
    refine ⟨b :: bs', ?_, hperm.cons b⟩
    rw [List.mapM_cons, hb, hbs']
    rfl
  | swap a a' l =>
    simp only [List.mapM_cons] at hm
    obtain ⟨b', hb', hm⟩ := bind_eq_ok_iff.1 hm
    obtain ⟨_, hbs, hm⟩ := bind_eq_ok_iff.1 hm
    obtain ⟨b, hb, hbs⟩ := bind_eq_ok_iff.1 hbs
    obtain ⟨bs, hrest, hbs⟩ := bind_eq_ok_iff.1 hbs
    cases hbs
    cases hm
    refine ⟨b :: b' :: bs, ?_, .swap b b' bs⟩
    simp only [List.mapM_cons, hb, hb', hrest]
    rfl
  | trans _ _ ih ih' =>
    obtain ⟨m', hm', hperm⟩ := ih hm
    obtain ⟨m'', hm'', hperm'⟩ := ih' hm'
    exact ⟨m'', hm'', hperm.trans hperm'⟩

/-- Computations that succeed with other results succeed with these on all entries of a list. -/
theorem mapM_eq_ok_map {f f' : α → Except ε β} {k : β → β} {m : List β} (hm : l.mapM f = .ok m)
    (hk : ∀ a ∈ l, ∀ b, f a = .ok b → f' a = .ok (k b)) : l.mapM f' = .ok (m.map k) := by
  induction l generalizing m with
  | nil =>
    cases hm
    rfl
  | cons a l ih =>
    rw [List.mapM_cons] at hm
    obtain ⟨b, hb, hm⟩ := bind_eq_ok_iff.1 hm
    obtain ⟨bs, hbs, hm⟩ := bind_eq_ok_iff.1 hm
    cases hm
    rw [List.mapM_cons, hk a (List.mem_cons_self ..) b hb,
      ih hbs fun a' ha' => hk a' (List.mem_cons_of_mem _ ha')]
    rfl

end

/-- Grammars with the same terminals are renamed if the numbers of nonterminals are replaced and the
productions are permuted. -/
theorem exists_renaming {g g' : Grammar} (ν : Equiv.Perm Nat) (hzero : ν 0 = 0)
    (hstart : g'.start = ν g.start) (hterminals : g'.terminals = g.terminals)
    (hperm : (g.productions.map (.rename ν)).Perm g'.productions) :
    ∃ ρ : Renaming g g', ρ.nonterminal = ν := by
  obtain ⟨π, hπ⟩ := exists_getElem?_of_perm hperm
  have hwhole : g'.wholeInput = g.wholeInput.rename ν := by
    simp [Grammar.wholeInput, Production.rename, Symbol.rename, Symbol.endOfInput, hstart, hzero]
  refine ⟨⟨permuteTail π, ν, rfl, hzero, fun p => ?_, hterminals⟩, rfl⟩
  rw [Grammar.augmented, hwhole, getElem?_permuteTail hπ, Grammar.augmented, ← List.map_cons,
    List.getElem?_map]

/-! ### Symbol tables -/

namespace SymbolTable

variable {t t' u : SymbolTable} {name : String} {s : Symbol}

theorem Numbered.lookup_eq_some_iff (h : t.Numbered) : t.lookup name = some s ↔
    ((t.ofSort s.isTerminal).map (·.1))[s.number]? = some name := by
  refine ⟨h.name_of_lookup, fun hname => ?_⟩
  rw [List.getElem?_map, Option.map_eq_some_iff] at hname
  obtain ⟨⟨_, s'⟩, hi, rfl⟩ := hname
  have hnumber : s'.number = s.number := h.number _ _ _ hi
  obtain ⟨hmem, hsort⟩ := List.mem_filter.1 (List.mem_of_getElem? hi)
  obtain rfl : s' = s := by
    cases s <;> cases s' <;> simp_all [Symbol.number, Symbol.isTerminal]
  obtain ⟨l, r, hsplit⟩ := List.append_of_mem hmem
  refine List.lookup_eq_some_iff.2 ⟨l, r, hsplit, fun e he => ?_⟩
  have hnodup := h.nodup
  rw [names, hsplit, List.map_append, List.nodup_append] at hnodup
  have hne := hnodup.2.2 _ (List.mem_map_of_mem he) _ (List.mem_cons_self ..)
  simpa using Ne.symm hne

theorem Numbered.lookup_eq_terminal_iff (h : t.Numbered) {n : Nat} :
    t.lookup name = some (.terminal n) ↔ t.terminals[n]? = some name := by
  rw [terminals_eq]
  exact h.lookup_eq_some_iff

theorem Numbered.lookup_eq_nonterminal_iff (h : t.Numbered) {n : Nat} :
    t.lookup name = some (.nonterminal n) ↔ t.nonterminals[n]? = some name := by
  rw [nonterminals_eq]
  exact h.lookup_eq_some_iff

theorem Numbered.nodup_nonterminals (h : t.Numbered) : t.nonterminals.Nodup :=
  h.nodup.sublist (List.filter_sublist.map _)

theorem Numbered.mem_nonterminals_iff (h : t.Numbered) :
    name ∈ t.nonterminals ↔ ∃ n, t.lookup name = some (.nonterminal n) := by
  rw [List.mem_iff_getElem?]
  exact exists_congr fun n => h.lookup_eq_nonterminal_iff.symm

theorem Numbered.getElem?_nonterminals_zero (h : t.Numbered) :
    t.nonterminals[0]? = some "$START" := by
  rw [nonterminals_eq]
  exact h.first false

/-- A nonterminal is defined besides those that are there, and the terminals stay. -/
theorem Numbered.nonterminals_defineNonterminal (h : t.Numbered)
    (hd : t.defineNonterminal name = .ok (s, t')) : t'.terminals = t.terminals ∧
      ∀ other, other ∈ t'.nonterminals ↔ other ∈ t.nonterminals ∨ other = name := by
  unfold SymbolTable.defineNonterminal at hd
  split at hd
  · cases hd
    simp [SymbolTable.push, terminals, nonterminals, Symbol.isTerminal]
  · rename_i n hn
    cases hd
    refine ⟨rfl, fun other => (or_iff_left_of_imp ?_).symm⟩
    rintro rfl
    exact h.mem_nonterminals_iff.2 ⟨n, hn⟩
  · cases hd

end SymbolTable

namespace GrammarDecl

open SymbolTable

variable {d d' : GrammarDecl} {kinds : List TokenKind} {t t' u : SymbolTable} {g : Grammar}

/-- The left sides are defined besides the nonterminals that are there, and the terminals stay. -/
theorem nonterminals_of_defineNonterminals {ps : List ProductionDecl} (hu : u.Numbered)
    (h : defineNonterminals u ps = .ok t) : t.terminals = u.terminals ∧
      ∀ name, name ∈ t.nonterminals ↔ name ∈ u.nonterminals ∨ ∃ p ∈ ps, p.left = name := by
  induction ps generalizing u with
  | nil =>
    cases h
    simp
  | cons p ps ih =>
    rw [defineNonterminals] at h
    split at h
    · cases h
    · split at h
      · cases h
      · rename_i s u' hu'
        obtain ⟨hterminals, hmem⟩ := hu.nonterminals_defineNonterminal hu'
        obtain ⟨hterminals', hmem'⟩ := ih (hu.defineNonterminal hu').1 h
        refine ⟨hterminals'.trans hterminals, fun name => ?_⟩
        rw [hmem', hmem, or_assoc, List.exists_mem_cons_iff, eq_comm (a := p.left)]

/-- Left sides can be defined that are neither reserved nor terminals. -/
theorem exists_defineNonterminals {ps : List ProductionDecl} (hu : u.Numbered)
    (h : ∀ p ∈ ps, isReserved p.left = false ∧ p.left ∉ u.terminals) :
    ∃ t, defineNonterminals u ps = .ok t := by
  induction ps generalizing u with
  | nil => exact ⟨u, rfl⟩
  | cons p ps ih =>
    obtain ⟨⟨hreserved, hterminal⟩, hrest⟩ := List.forall_mem_cons.1 h
    obtain ⟨s, u', hu'⟩ : ∃ s u', u.defineNonterminal p.left = .ok (s, u') := by
      unfold SymbolTable.defineNonterminal
      split
      · exact ⟨_, _, rfl⟩
      · exact ⟨_, _, rfl⟩
      · rename_i n hn
        exact absurd (List.mem_of_getElem? (hu.lookup_eq_terminal_iff.1 hn)) hterminal
    obtain ⟨t, ht⟩ := ih (hu.defineNonterminal hu').1
      (by rwa [(hu.nonterminals_defineNonterminal hu').1])
    refine ⟨t, ?_⟩
    rw [defineNonterminals, if_neg (by simp [hreserved]), hu']
    exact ht

/-- The symbols of permuted productions are those of the productions, with other numbers for
nonterminals. -/
theorem exists_symbolTable_of_perm (hperm : d.productions.Perm d'.productions)
    (h : d.symbolTable kinds = .ok t) : ∃ t' ν, d'.symbolTable kinds = .ok t' ∧
      (ν : Equiv.Perm Nat) 0 = 0 ∧ t'.terminals = t.terminals ∧
      ∀ name, t'.lookup name = (t.lookup name).map (.rename ν) := by
  obtain ⟨hnum, -, hleft⟩ := numbered_of_symbolTable h
  unfold symbolTable at h
  split at h
  · cases h
  rename_i hempty
  obtain ⟨-, -, h⟩ := bind_eq_ok_iff.1 h
  obtain ⟨u, hu, h⟩ := bind_eq_ok_iff.1 h
  have hnumu := (numbered_of_defineTerminals numbered_empty (mapError_eq_ok_iff.1 hu)).1
  obtain ⟨hterminals, hmem⟩ := nonterminals_of_defineNonterminals hnumu h
  obtain ⟨t', ht'⟩ : ∃ t', defineNonterminals u d'.productions = .ok t' := by
    refine exists_defineNonterminals hnumu fun p hp => ?_
    obtain ⟨hreserved, n, hn⟩ := hleft p (hperm.mem_iff.2 hp)
    refine ⟨hreserved, fun hin => ?_⟩
    rw [← hterminals] at hin
    obtain ⟨m, hm⟩ := List.mem_iff_getElem?.1 hin
    cases hn.symm.trans (hnum.lookup_eq_terminal_iff.2 hm)
  have hnum' := (numbered_of_defineNonterminals hnumu ht').1
  obtain ⟨hterminals', hmem'⟩ := nonterminals_of_defineNonterminals hnumu ht'
  -- both define the same nonterminals, each of them once
  have hnonterminals : t.nonterminals.Perm t'.nonterminals := by
    refine (List.perm_ext_iff_of_nodup hnum.nodup_nonterminals hnum'.nodup_nonterminals).2 ?_
    simp only [hmem, hmem', hperm.mem_iff, implies_true]
  obtain ⟨ν, hν⟩ := exists_getElem?_of_perm hnonterminals
  refine ⟨t', ν, ?_, apply_eq_of_getElem? hnum'.nodup_nonterminals hν
    hnum.getElem?_nonterminals_zero hnum'.getElem?_nonterminals_zero,
    hterminals'.trans hterminals.symm, fun name => Option.ext fun s => ?_⟩
  · have hempty' : d'.productions.isEmpty = false := by
      rw [List.isEmpty_eq_false_iff]
      rintro hnil
      rw [hnil] at hperm
      simp [hperm.eq_nil] at hempty
    unfold symbolTable
    rw [hempty', hu]
    exact ht'
  · rw [Option.map_eq_some_iff]
    cases s with
    | terminal n =>
      simp only [Symbol.rename_eq_terminal_iff, exists_eq_right, hnum.lookup_eq_terminal_iff,
        hnum'.lookup_eq_terminal_iff, hterminals', hterminals]
    | nonterminal n =>
      rw [hnum'.lookup_eq_nonterminal_iff, ← ν.apply_symm_apply n, hν,
        ← hnum.lookup_eq_nonterminal_iff]
      constructor
      · exact fun hl => ⟨_, hl, rfl⟩
      · rintro ⟨s, hs, heq⟩
        cases s with
        | terminal m => cases heq
        | nonterminal m =>
          obtain rfl : m = ν.symm n := ν.injective (Symbol.nonterminal.inj heq)
          exact hs

/-! ### Productions -/

section
variable {ν : Nat → Nat} (hlookup : ∀ name, t'.lookup name = (t.lookup name).map (.rename ν))
include hlookup

theorem symbol?_rename (name : String) : ProductionDecl.symbol? t' name =
    (ProductionDecl.symbol? t name).map (.rename ν) := by
  unfold ProductionDecl.symbol?
  split
  · rfl
  · exact hlookup name

theorem undefinedNames_rename (p : ProductionDecl) : p.undefinedNames t' = p.undefinedNames t := by
  unfold ProductionDecl.undefinedNames
  refine List.filter_congr fun name _ => ?_
  rw [symbol?_rename hlookup, Option.isNone_map]

end

theorem lastPrecedence_rename (ts : List Terminal) (right : List Symbol) (ν : Nat → Nat) :
    lastPrecedence ts (right.map (.rename ν)) = lastPrecedence ts right := by
  have hfilter : (right.map (Symbol.rename ν)).filter (·.isTerminal) =
      right.filter (·.isTerminal) := by
    induction right with
    | nil => rfl
    | cons s rest ih => cases s <;> simpa [Symbol.rename, Symbol.isTerminal] using ih
  rw [lastPrecedence, hfilter, lastPrecedence]

/-- A production is resolved as before, with other numbers for nonterminals. -/
theorem resolveProduction_rename {ν : Nat → Nat} (hprecedences : d'.precedences = d.precedences)
    (hterminals : t'.terminals = t.terminals)
    (hlookup : ∀ name, t'.lookup name = (t.lookup name).map (.rename ν)) {p : ProductionDecl}
    (hleft : ∃ n, t.lookup p.left = some (.nonterminal n)) {q : Production}
    (h : d.resolveProduction t p = .ok q) : d'.resolveProduction t' p = .ok (q.rename ν) := by
  obtain ⟨n, hn⟩ := hleft
  have hright : p.right.filterMap (ProductionDecl.symbol? t') =
      (p.right.filterMap (ProductionDecl.symbol? t)).map (.rename ν) := by
    rw [List.map_filterMap]
    exact List.filterMap_congr fun name _ => symbol?_rename hlookup name
  have hts : d'.terminals t' = d.terminals t := by
    simp [terminals, hterminals, precedence?, hprecedences]
  unfold resolveProduction at h ⊢
  dsimp only at h ⊢
  rw [hright, hts, lastPrecedence_rename, hlookup, hn]
  rw [hn] at h
  cases htag : p.tag with
  | none =>
    rw [htag] at h
    cases h
    rfl
  | some tag =>
    rw [htag] at h
    dsimp only at h ⊢
    rw [precedence?, hprecedences]
    rw [precedence?] at h
    split at h
    · cases h
      rfl
    · cases h

theorem undefinedUses_eq_nil (h : ∀ p ∈ d.productions, p.undefinedNames t = []) :
    d.undefinedUses t = [] := by
  unfold undefinedUses
  refine List.foldlRecOn (motive := (· = [])) d.productions _ rfl fun uses huses p hp => ?_
  rw [h p hp, huses]
  rfl

/-- **A grammar is resolved as before if its productions are declared in another order**, with other
numbers for them and for the nonterminals. -/
theorem exists_resolve_of_perm (hperm : d.productions.Perm d'.productions)
    (hprecedences : d'.precedences = d.precedences) (hstart : d'.startName = d.startName)
    (h : d.resolve kinds = .ok g) : ∃ g', d'.resolve kinds = .ok g' ∧ ∃ ρ : Renaming g g',
      ∀ p ∈ d.productions, ∀ q, d.resolveProduction g.symbols p = .ok q →
        d'.resolveProduction g'.symbols p = .ok (q.rename ρ.nonterminal) := by
  have hdefined := undefinedNames_eq_nil (undefinedUses_eq_nil_of_resolve h)
  obtain ⟨hsymbols, hs, hproductions, hterminals, -⟩ := resolve_eq_ok h
  obtain ⟨t', ν, ht', hzero, hts, hlookup⟩ := exists_symbolTable_of_perm hperm hsymbols
  have hleft := (numbered_of_symbolTable hsymbols).2.2
  have hresolve : ∀ p ∈ d.productions, ∀ q, d.resolveProduction g.symbols p = .ok q →
      d'.resolveProduction t' p = .ok (q.rename ν) := fun p hp q hq =>
    resolveProduction_rename hprecedences hts hlookup (hleft p hp).2 hq
  obtain ⟨productions, hproductions', hpermuted⟩ :=
    exists_mapM_of_perm hperm (mapM_eq_ok_map hproductions hresolve)
  have hstart' : d'.startSymbol t' = .ok (ν g.start) := by
    unfold startSymbol at hs ⊢
    rw [hstart, hlookup]
    split at hs
    · rename_i n hn
      cases hs
      rw [hn]
      rfl
    · cases hs
  have huses : d'.undefinedUses t' = [] := by
    refine undefinedUses_eq_nil fun p hp => ?_
    rw [undefinedNames_rename hlookup]
    exact hdefined p (hperm.mem_iff.2 hp)
  have hts' : d'.terminals t' = d.terminals g.symbols := by
    simp [terminals, hts, precedence?, hprecedences]
  obtain ⟨ρ, hρ⟩ : ∃ ρ : Renaming g
      ⟨t', (d'.terminals t').toArray, t'.nonterminals.toArray, productions, ν g.start⟩,
      ρ.nonterminal = ν :=
    exists_renaming ν hzero rfl (by rw [hterminals, hts']) hpermuted
  refine ⟨_, ?_, ρ, by rwa [hρ]⟩
  refine bind_eq_ok_iff.2 ⟨t', ht', bind_eq_ok_iff.2 ⟨_, hstart', ?_⟩⟩
  refine bind_eq_ok_iff.2 ⟨_, hproductions', ?_⟩
  rw [huses]
  rfl

end GrammarDecl

end LexParse
