import LexParse.Proofs.Grammar.Forest

/-!
# Viable strings

What has been read of an input is *viable* as long as more input can make a sentence of it. Where
every nonterminal derives some string of terminals, anything that a derivation from the origin has
come to can be completed: what begins it, once it is all terminals, is viable.

## What is proved

* `Derives.split`, `Derives.forall_mem`: derivations of strings side by side, and properties of
  symbols that productions keep.
* `sentence_of_derives_origin`: what the origin derives is a sentence and the end of the input.
* `viable_of_derives`: terminals at the start of what the origin derives are viable.
-/

namespace LexParse

variable {g : Grammar} {productions productions' : List Production} {s u v w : List Symbol}

/-- Every nonterminal derives a string of terminals, the origin among them. -/
def Grammar.Productive (g : Grammar) : Prop :=
  ∀ n < g.nonterminals.size, ∃ w : List Nat,
    Derives g.augmented [.nonterminal n] (w.map .terminal)

/-- The terminals begin a sentence with the end of the input behind it. -/
def Grammar.Viable (g : Grammar) (w : List Nat) : Prop := ∃ s, g.Sentence s ∧ w <+: s ++ [0]

/-! ### Derivations -/

namespace Derives

theorem mono (h : Derives productions s w) (hsub : ∀ p ∈ productions, p ∈ productions') :
    Derives productions' s w := by
  induction h with
  | refl s => exact .refl s
  | step hp _ ih => exact .step (hsub _ hp) ih

/-- Strings side by side derive side by side. -/
theorem split (h : Derives productions (u ++ v) w) :
    ∃ w₁ w₂, w = w₁ ++ w₂ ∧ Derives productions u w₁ ∧ Derives productions v w₂ := by
  generalize hs : u ++ v = s at h
  induction h generalizing u v with
  | refl s => exact ⟨u, v, hs.symm, .refl u, .refl v⟩
  | @step p l r w hp _ ih =>
    rcases List.append_eq_append_iff.1 hs with ⟨m, rfl, rfl⟩ | ⟨m, rfl, hm⟩
    · -- the nonterminal stands in the second string
      obtain ⟨w₁, w₂, rfl, h₁, h₂⟩ := ih (u := u) (v := m ++ p.right ++ r) (by simp)
      exact ⟨w₁, w₂, rfl, h₁, .step hp h₂⟩
    · cases m with
      | nil =>
        obtain ⟨w₁, w₂, rfl, h₁, h₂⟩ := ih (u := l) (v := p.right ++ r) (by simp)
        obtain rfl : _ = v := hm
        rw [List.append_nil]
        exact ⟨w₁, w₂, rfl, h₁, .step (u := []) hp h₂⟩
      | cons X m =>
        obtain ⟨rfl, rfl⟩ := List.cons.inj hm
        obtain ⟨w₁, w₂, rfl, h₁, h₂⟩ := ih (u := l ++ p.right ++ m) (v := v) (by simp)
        exact ⟨w₁, w₂, rfl, .step hp h₁, h₂⟩

/-- What holds of all symbols of a string holds of all symbols that it derives, if it holds of all
right sides. -/
theorem forall_mem {P : Symbol → Prop} (h : Derives productions s w)
    (hright : ∀ p ∈ productions, ∀ X ∈ p.right, P X) (hs : ∀ X ∈ s, P X) : ∀ X ∈ w, P X := by
  induction h with
  | refl => exact hs
  | @step p u v w hp _ ih =>
    refine ih fun X hX => ?_
    rcases List.mem_append.1 hX with hX | hX
    · rcases List.mem_append.1 hX with hX | hX
      · exact hs X (List.mem_append_left _ hX)
      · exact hright p hp X hX
    · exact hs X (List.mem_append_right _ (List.mem_cons_of_mem _ hX))

/-- Terminals derive nothing but themselves. -/
theorem eq_of_terminals {x : List Nat} (h : Derives productions (x.map .terminal) w) :
    w = x.map .terminal := by
  generalize hs : x.map Symbol.terminal = s at h
  cases h with
  | refl => rfl
  | @step p u v _ hp _ =>
    have hmem : Symbol.nonterminal p.left ∈ x.map Symbol.terminal := by
      rw [hs]
      simp
    obtain ⟨a, -, ha⟩ := List.mem_map.1 hmem
    cases ha

end Derives

/-! ### The augmented grammar -/

/-- Without the origin only declared productions are used. -/
theorem Derives.of_augmented (hg : g.WellFormed) (h : Derives g.augmented s w)
    (hs : .origin ∉ s) : Derives g.productions s w := by
  induction h with
  | refl s => exact .refl s
  | @step p u v w hp _ ih =>
    rcases List.mem_cons.1 hp with rfl | hp
    · exact absurd (List.mem_append_right _ (List.mem_cons_self ..)) hs
    · refine .step hp (ih fun hmem => ?_)
      rcases List.mem_append.1 hmem with hmem | hmem
      · rcases List.mem_append.1 hmem with hmem | hmem
        · exact hs (List.mem_append_left _ hmem)
        · exact hg.origin_notMem p hp hmem
      · exact hs (List.mem_append_right _ (List.mem_cons_of_mem _ hmem))

/-- If the start symbol is the origin itself there is no way to get rid of it. -/
theorem Derives.origin_mem (hg : g.WellFormed) (hstart : g.start = 0)
    (h : Derives g.augmented s w) (hs : .origin ∈ s) : .origin ∈ w := by
  induction h with
  | refl => exact hs
  | @step p u v w hp _ ih =>
    refine ih ?_
    rcases List.mem_append.1 hs with hs | hs
    · exact List.mem_append_left _ (List.mem_append_left _ hs)
    · rcases List.mem_cons.1 hs with heq | hs
      · have hleft : p.left = 0 := (Symbol.nonterminal.inj heq).symm
        rcases List.mem_cons.1 hp with rfl | hp
        · simp [Grammar.wholeInput, hstart, Symbol.origin]
        · exact absurd hleft (Nat.ne_of_gt (hg.left_pos p hp))
      · exact List.mem_append_right _ hs

/-- **The origin derives the sentences** with the end of the input behind them. -/
theorem sentence_of_derives_origin (hg : g.WellFormed) {x : List Nat}
    (h : Derives g.augmented [.origin] (x.map .terminal)) : ∃ s, g.Sentence s ∧ x = s ++ [0] := by
  generalize hs : [Symbol.origin] = s at h
  generalize hw : x.map Symbol.terminal = w at h
  cases h with
  | refl =>
    rw [← hs] at hw
    obtain ⟨a, -, ha⟩ := List.mem_map.1 (hw.symm ▸ List.mem_singleton.2 rfl : Symbol.origin ∈ _)
    cases ha
  | @step p u v _ hp h =>
    obtain ⟨rfl, hcons⟩ := List.append_eq_singleton_iff.1 hs.symm |>.resolve_right (by simp)
    obtain ⟨heq, rfl⟩ := List.cons.inj hcons
    have hleft : p.left = 0 := Symbol.nonterminal.inj heq
    rcases List.mem_cons.1 hp with rfl | hp
    · -- what comes before the end of the input is derived from the start symbol
      obtain ⟨w₁, w₂, rfl, h₁, h₂⟩ := Derives.split (u := [.nonterminal g.start])
        (v := [.endOfInput]) (by simpa [Grammar.wholeInput] using h)
      obtain rfl : w₂ = [0].map Symbol.terminal := h₂.eq_of_terminals
      obtain ⟨s, y, rfl, rfl, hy⟩ := List.map_eq_append_iff.1 hw
      obtain rfl : y = [0] := List.map_injective_iff.2 (fun _ _ => Symbol.terminal.inj) hy
      refine ⟨s, h₁.of_augmented hg fun hmem => ?_, rfl⟩
      have hstart : g.start = 0 := (Symbol.nonterminal.inj (List.mem_singleton.1 hmem)).symm
      obtain ⟨a, -, ha⟩ := List.mem_map.1 (h₁.origin_mem hg hstart hmem)
      cases ha
    · exact absurd hleft (Nat.ne_of_gt (hg.left_pos p hp))

/-- The terminals of a sentence are declared, and the end of the input is not among them. -/
theorem Grammar.Sentence.mem (hg : g.WellFormed) {x : List Nat} (h : g.Sentence x) {a : Nat}
    (ha : a ∈ x) : a < g.terminals.size ∧ a ≠ 0 := by
  have hmem := h.forall_mem
    (P := fun X => X.Within g.nonterminals.size g.terminals.size ∧ X ≠ .endOfInput)
    (fun p hp X hX => ⟨(hg.within p hp).right X hX, fun heq => hg.end_notMem p hp (heq ▸ hX)⟩)
    (fun X hX => by
      rw [List.mem_singleton.1 hX]
      exact ⟨hg.start_lt, nofun⟩)
    (.terminal a) (List.mem_map_of_mem ha)
  exact ⟨hmem.1, fun hz => hmem.2 (hz ▸ rfl)⟩

/-! ### Completing what has been read -/

theorem Grammar.Productive.exists_terminals (hprod : g.Productive)
    (hs : ∀ X ∈ s, X.Within g.nonterminals.size g.terminals.size) :
    ∃ z : List Nat, Derives g.augmented s (z.map .terminal) := by
  induction s with
  | nil => exact ⟨[], .refl _⟩
  | cons X s ih =>
    obtain ⟨z, hz⟩ := ih fun Y hY => hs Y (List.mem_cons_of_mem _ hY)
    have hX : ∃ y : List Nat, Derives g.augmented [X] (y.map .terminal) := by
      cases X with
      | terminal a => exact ⟨[a], .refl _⟩
      | nonterminal n => exact hprod n (hs _ (List.mem_cons_self ..))
    obtain ⟨y, hy⟩ := hX
    refine ⟨y ++ z, ?_⟩
    rw [List.map_append]
    exact hy.append hz

/-- **What begins a string that the origin derives is viable**, once it derives terminals. -/
theorem viable_of_derives (hg : g.WellFormed) (hprod : g.Productive)
    (h : Derives g.augmented [.origin] (u ++ v)) {x : List Nat}
    (hu : Derives g.augmented u (x.map .terminal)) : g.Viable x := by
  have hwithin : ∀ X ∈ u ++ v, X.Within g.nonterminals.size g.terminals.size := by
    refine h.forall_mem (fun p hp => (hg.within_augmented p hp).right) fun X hX => ?_
    rw [List.mem_singleton.1 hX]
    exact Nat.lt_of_le_of_lt (Nat.zero_le _) hg.start_lt
  obtain ⟨z, hz⟩ := hprod.exists_terminals fun X hX => hwithin X (List.mem_append_right _ hX)
  have hall := h.trans (hu.append hz)
  rw [← List.map_append] at hall
  obtain ⟨s, hsentence, heq⟩ := sentence_of_derives_origin hg hall
  exact ⟨s, hsentence, z, heq⟩

end LexParse
