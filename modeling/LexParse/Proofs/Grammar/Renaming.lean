import LexParse.Proofs.Grammar.First
import LexParse.Proofs.Grammar.Resolved
import Mathlib.Logic.Equiv.Basic

/-!
# Grammars with other numbers

The numbers of nonterminals and productions come from the order of the declarations. A *renaming*
takes a grammar to one that differs from it in these numbers only. What does not look at numbers is
carried along: which strings vanish, and which terminals they begin with.

A renaming can be undone, so each fact has to be carried one way only.
-/

namespace LexParse

/-- A symbol with the number of its nonterminal replaced. -/
def Symbol.rename (f : Nat → Nat) : Symbol → Symbol
  | .terminal n => .terminal n
  | .nonterminal n => .nonterminal (f n)

/-- A production with the numbers of its nonterminals replaced. -/
def Production.rename (f : Nat → Nat) (p : Production) : Production :=
  { p with left := f p.left, right := p.right.map (.rename f) }

/-- The second grammar is the first one with other numbers for its productions and nonterminals, but
for the production of the whole input and the origin. -/
structure Renaming (g g' : Grammar) where
  /-- The numbers of productions of the augmented grammar. -/
  production : Equiv.Perm Nat
  /-- The numbers of nonterminals. -/
  nonterminal : Equiv.Perm Nat
  production_zero : production 0 = 0
  nonterminal_zero : nonterminal 0 = 0
  augmented : ∀ p, g'.augmented[production p]? =
    (g.augmented[p]?).map (Production.rename nonterminal)
  terminals : g'.terminals = g.terminals

section
variable {f f' : Nat → Nat} {s : Symbol}

theorem Symbol.rename_rename (h : ∀ n, f' (f n) = n) : (s.rename f).rename f' = s := by
  cases s with
  | terminal n => rfl
  | nonterminal n => simp [rename, h]

theorem Production.rename_rename (h : ∀ n, f' (f n) = n) (p : Production) :
    (p.rename f).rename f' = p := by
  have hsymbols : (p.right.map (Symbol.rename f)).map (Symbol.rename f') = p.right := by
    rw [List.map_map]
    exact (List.map_congr_left fun s _ => Symbol.rename_rename h).trans (List.map_id _)
  obtain ⟨left, right, precedence, action⟩ := p
  simpa [rename, h] using hsymbols

@[simp] theorem Symbol.rename_eq_terminal_iff {n : Nat} :
    s.rename f = .terminal n ↔ s = .terminal n := by
  cases s <;> simp [rename]

end

/-! ### Strings of symbols -/

section
variable {f : Nat → Nat} {productions productions' : List Production} {u : List Symbol} {a : Nat}

theorem Vanishes.rename (hmem : ∀ p ∈ productions, p.rename f ∈ productions')
    (h : Vanishes productions u) : Vanishes productions' (u.map (.rename f)) := by
  induction h with
  | nil => exact .nil
  | cons hp _ _ ihright ihrest => exact .cons (hmem _ hp) ihright ihrest

theorem Begins.rename (hmem : ∀ p ∈ productions, p.rename f ∈ productions')
    (h : Begins productions u a) : Begins productions' (u.map (.rename f)) a := by
  induction h with
  | terminal => exact .terminal
  | inside hp _ ih => exact .inside (hmem _ hp) ih
  | behind hvanishes _ ih => exact .behind (hvanishes.rename hmem) ih

theorem Ahead.rename (hmem : ∀ p ∈ productions, p.rename f ∈ productions') {P P' : Nat → Prop}
    (hafter : ∀ b, P b → P' b) (h : Ahead productions u P a) :
    Ahead productions' (u.map (.rename f)) P' a :=
  h.imp (Begins.rename hmem) fun ⟨hvanishes, ha⟩ => ⟨hvanishes.rename hmem, hafter a ha⟩

end

namespace Renaming

variable {g g' : Grammar} (ρ : Renaming g g')

/-- A renaming undone. -/
def symm : Renaming g' g where
  production := ρ.production.symm
  nonterminal := ρ.nonterminal.symm
  production_zero := by rw [Equiv.symm_apply_eq, ρ.production_zero]
  nonterminal_zero := by rw [Equiv.symm_apply_eq, ρ.nonterminal_zero]
  augmented p := by
    have h := ρ.augmented (ρ.production.symm p)
    rw [Equiv.apply_symm_apply] at h
    rw [h, Option.map_map]
    have hid : Production.rename ρ.nonterminal.symm ∘ Production.rename ρ.nonterminal = id :=
      funext (Production.rename_rename ρ.nonterminal.symm_apply_apply)
    rw [hid, Option.map_id, id]
  terminals := ρ.terminals.symm

theorem mem_augmented {p : Production} (hp : p ∈ g.augmented) :
    p.rename ρ.nonterminal ∈ g'.augmented := by
  obtain ⟨n, hn⟩ := List.mem_iff_getElem?.1 hp
  have h := ρ.augmented n
  rw [hn] at h
  exact List.mem_of_getElem? h

end Renaming

end LexParse
