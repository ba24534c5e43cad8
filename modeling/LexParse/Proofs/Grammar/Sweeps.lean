import LexParse.Grammar.Derivation
import LexParse.Proofs.Grammar.First

/-!
# First terminals and derivations

The table of first terminals is compared with derivations. What a string vanishes to or begins with
is what it derives: nothing at all, or a string with the terminal in front.

The computed table is found by rounds that look at the table of the round before. It does not matter
that they do: the productions may be taken one after the other, in any order, each with what those
before it have added to the table. Taken again and again, until they add no more, they come to the
same table, since a table that is borne out by the productions and meets their demands is the only
one of its size.

## What is proved

* `vanishes_iff_derives`, `begins_iff_derives`: the two relations are about derivations.
* `FirstTable.sweep_eq_compute`: sweeps over the productions end with the computed table.
* `FirstTable.ofString_compute`: both ways end, and the entry of a string says exactly what the
  string derives.
-/

namespace LexParse

variable {productions order : List Production} {s rest : List Symbol} {a : Nat}

/-! ### Derivations -/

/-- A string that vanishes derives the empty string. -/
theorem Vanishes.derives (h : Vanishes productions s) : Derives productions s [] := by
  induction h with
  | nil => exact .refl []
  | @cons p rest hp _ _ ih ih' =>
    refine .step (u := []) hp ?_
    simpa using ih.append ih'

theorem vanishes_of_derives (h : Derives productions s []) : Vanishes productions s := by
  generalize hw : ([] : List Symbol) = w at h
  induction h with
  | refl => exact hw ▸ .nil
  | @step p u v _ hp _ ih =>
    obtain ⟨hu, hv⟩ := vanishes_append_iff.1 (ih hw)
    obtain ⟨hu, hright⟩ := vanishes_append_iff.1 hu
    exact vanishes_append_iff.2 ⟨hu, .cons hp hright hv⟩

theorem vanishes_iff_derives : Vanishes productions s ↔ Derives productions s [] :=
  ⟨Vanishes.derives, vanishes_of_derives⟩

theorem Begins.exists_derives (h : Begins productions s a) :
    ∃ rest, Derives productions s (.terminal a :: rest) := by
  induction h with
  | @terminal a rest => exact ⟨rest, .refl _⟩
  | @inside p rest a hp _ ih =>
    obtain ⟨behind, hright⟩ := ih
    refine ⟨behind ++ rest, .step (u := []) hp ?_⟩
    simpa using hright.append (.refl rest)
  | @behind n rest a hn _ ih =>
    obtain ⟨behind, hrest⟩ := ih
    exact ⟨behind, hn.derives.append hrest⟩

theorem begins_of_derives (h : Derives productions s (.terminal a :: rest)) :
    Begins productions s a := by
  generalize hw : Symbol.terminal a :: rest = w at h
  induction h with
  | refl => exact hw ▸ .terminal
  | @step p u v _ hp _ ih =>
    rcases begins_append_iff.1 (ih hw) with hbegins | ⟨hvanishes, hv⟩
    · rcases begins_append_iff.1 hbegins with hu | ⟨hu, hright⟩
      · exact begins_append_iff.2 (.inl hu)
      · exact begins_append_iff.2 (.inr ⟨hu, .inside hp hright⟩)
    · obtain ⟨hu, hright⟩ := vanishes_append_iff.1 hvanishes
      exact begins_append_iff.2 (.inr ⟨hu, .behind (.cons hp hright .nil) hv⟩)

theorem begins_iff_derives :
    Begins productions s a ↔ ∃ rest, Derives productions s (.terminal a :: rest) :=
  ⟨Begins.exists_derives, fun ⟨_, h⟩ => begins_of_derives h⟩

namespace FirstTable

variable {t u : FirstTable} {p : Production} {n nonterminals terminals : Nat}

/-! ### One production at a time -/

/-- Add what a production demands to the entry of its left side. -/
def demand (t : FirstTable) (p : Production) : FirstTable :=
  t.modify p.left fun e => e.join (t.ofString p.right)

/-- Take productions one after the other. -/
def sweep (order : List Production) (t : FirstTable) : FirstTable := order.foldl demand t

@[simp] theorem size_demand : (t.demand p).size = t.size := Array.size_modify

theorem entry_demand_of_lt (h : p.left < t.size) :
    (t.demand p).entry p.left = (t.entry p.left).join (t.ofString p.right) := by
  simp [entry, demand, Array.getD, Array.getElem_modify, h]

theorem entry_demand_of_ne (h : n ≠ p.left) : (t.demand p).entry n = t.entry n := by
  simp [entry, demand, Array.getD_eq_getD_getElem?, Array.getElem?_modify, Ne.symm h]

/-- The entries after a production has been taken are the old ones, but for that of its left side,
to which the demand of the production has been joined. -/
theorem entry_demand_cases (t : FirstTable) (p : Production) (n : Nat) :
    (t.demand p).entry n = t.entry n ∨
      n = p.left ∧ (t.demand p).entry n = (t.entry p.left).join (t.ofString p.right) := by
  by_cases hn : n = p.left
  · subst hn
    rcases Nat.lt_or_ge p.left t.size with hlt | hge
    · exact .inr ⟨rfl, entry_demand_of_lt hlt⟩
    · rw [entry_eq_of_le hge, entry_eq_of_le (by simpa using hge)]
      exact .inl rfl
  · exact .inl (entry_demand_of_ne hn)

theorem Sound.demand (h : Sound productions t) (hp : p ∈ productions) :
    Sound productions (t.demand p) := by
  have hstring := h.ofString p.right
  constructor
  · intro n hn
    rcases entry_demand_cases t p n with heq | ⟨rfl, heq⟩ <;> rw [heq] at hn
    · exact h.vanishes n hn
    · rcases Bool.or_eq_true _ _ ▸ hn with hold | hnew
      · exact h.vanishes _ hold
      · exact .cons hp (hstring.1 hnew) .nil
  · intro n a ha
    rcases entry_demand_cases t p n with heq | ⟨rfl, heq⟩ <;> rw [heq] at ha
    · exact h.begins n a ha
    · rcases NatSet.mem_union.1 ha with hold | hnew
      · exact h.begins _ a hold
      · exact .inside hp (hstring.2 a hnew)

theorem Bounded.demand (h : Bounded terminals t) (hp : p.Within nonterminals terminals) :
    Bounded terminals (t.demand p) := by
  intro n a ha
  rcases entry_demand_cases t p n with heq | ⟨rfl, heq⟩ <;> rw [heq] at ha
  · exact h n a ha
  · rcases NatSet.mem_union.1 ha with hold | hnew
    · exact h _ a hold
    · exact lt_of_mem_ofString h hp.right hnew

theorem extends_demand (t : FirstTable) (p : Production) : Extends t (t.demand p) := by
  refine ⟨size_demand, fun ⟨n, what⟩ hf => ?_⟩
  rcases entry_demand_cases t p n with heq | ⟨rfl, heq⟩ <;> cases what with
  | none => simp_all [Fact, FirstEntry.join]
  | some a => simp_all [Fact, FirstEntry.join]

/-- A production that adds nothing to the table has its demands met. -/
theorem meets_of_demand_eq (h : t.demand p = t) (hlt : p.left < t.size) : Meets t p := by
  have hentry := entry_demand_of_lt hlt
  rw [h] at hentry
  constructor
  · intro hn
    rw [hentry]
    simp [FirstEntry.join, hn]
  · intro a ha
    rw [hentry]
    exact NatSet.mem_union.2 (.inr ha)

/-! ### Sweeps -/

theorem extends_sweep (order : List Production) (t : FirstTable) : Extends t (sweep order t) := by
  induction order generalizing t with
  | nil => exact .refl t
  | cons p order ih => exact (extends_demand t p).trans (ih (t.demand p))

/-- A sweep that adds nothing adds nothing with any of its productions. -/
theorem demand_eq_of_sweep_eq (h : sweep order t = t) (hp : p ∈ order) : t.demand p = t := by
  induction order with
  | nil => cases hp
  | cons q order ih =>
    have hrest : Extends (t.demand q) t := by
      have := extends_sweep order (t.demand q)
      rwa [show sweep order (t.demand q) = t from h] at this
    have hq : t.demand q = t := (extends_demand t q).antisymm hrest
    rcases List.mem_cons.1 hp with rfl | hp
    · exact hq
    · refine ih ?_ hp
      rw [← hq]
      exact h.trans hq.symm

theorem Sound.sweep (h : Sound productions t) (horder : ∀ p ∈ order, p ∈ productions) :
    Sound productions (sweep order t) := by
  induction order generalizing t with
  | nil => exact h
  | cons p order ih =>
    exact ih (h.demand (horder p (List.mem_cons_self ..)))
      fun q hq => horder q (List.mem_cons_of_mem _ hq)

theorem Bounded.sweep (h : Bounded terminals t)
    (horder : ∀ p ∈ order, p.Within nonterminals terminals) :
    Bounded terminals (sweep order t) := by
  induction order generalizing t with
  | nil => exact h
  | cons p order ih =>
    exact ih (h.demand (horder p (List.mem_cons_self ..)))
      fun q hq => horder q (List.mem_cons_of_mem _ hq)

/-- What keeps a property of tables keeps it when it is done again and again. -/
theorem iterate_keeps {P : FirstTable → Prop} {f : FirstTable → FirstTable}
    (hf : ∀ t, P t → P (f t)) (ht : P t) (k : Nat) : P (f^[k] t) := by
  induction k generalizing t with
  | zero => exact ht
  | succ k ih => exact ih (hf t ht)

/-- There is one table of a size that says just what the productions bear out. -/
theorem eq_of_sound_of_complete (ht : Sound productions t) (ht' : Complete productions t)
    (hu : Sound productions u) (hu' : Complete productions u) (hsize : t.size = u.size) :
    t = u := by
  refine ext_fact hsize fun ⟨n, what⟩ => ?_
  cases what with
  | none =>
    exact ⟨fun h => hu'.vanishes n (ht.vanishes n h), fun h => ht'.vanishes n (hu.vanishes n h)⟩
  | some a =>
    exact ⟨fun h => hu'.begins n a (ht.begins n a h), fun h => ht'.begins n a (hu.begins n a h)⟩

/-- **Sweeps end with the computed table**, in whatever order they take the productions: there are
no more of them than things to add. -/
theorem sweep_eq_compute (hp : ∀ p ∈ productions, p.Within nonterminals terminals)
    (horder : ∀ p, p ∈ order ↔ p ∈ productions) {k : Nat}
    (hk : nonterminals * (terminals + 1) ≤ k) :
    (sweep order)^[k] (Array.replicate nonterminals {}) =
      compute productions nonterminals terminals := by
  generalize hstart : (Array.replicate nonterminals {} : FirstTable) = start
  have hsize₀ : start.size = nonterminals := by rw [← hstart, Array.size_replicate]
  have hbounded₀ : Bounded terminals start := hstart ▸ bounded_replicate nonterminals terminals
  have hsound₀ : Sound productions start := hstart ▸ sound_replicate nonterminals
  have hfixed : sweep order ((sweep order)^[k] start) = (sweep order)^[k] start :=
    iterate_fixed (extends_sweep order)
      (fun t h => h.sweep fun p hmem => hp p ((horder p).1 hmem)) hbounded₀
      (by rw [hsize₀]; omega)
  have hsize : ((sweep order)^[k] start).size = nonterminals :=
    iterate_keeps (P := fun t => t.size = nonterminals)
      (fun t h => (extends_sweep order t).size.trans h) hsize₀ k
  refine eq_of_sound_of_complete
    (iterate_keeps (fun t h => h.sweep fun p => (horder p).1) hsound₀ k)
    (complete_of_meets fun p hmem => ?_) sound_compute (complete_compute hp) ?_
  · refine meets_of_demand_eq (demand_eq_of_sweep_eq hfixed ((horder p).2 hmem)) ?_
    rw [hsize]
    exact (hp p hmem).left
  · rw [hsize, compute, size_iterate, Array.size_replicate]

/-! ### What the computed table says -/

/-- More rounds than there are things to add change nothing. -/
theorem iterate_eq_compute (hp : ∀ p ∈ productions, p.Within nonterminals terminals) {rounds : Nat}
    (h : nonterminals * (terminals + 1) + 1 ≤ rounds) :
    iterate productions rounds (Array.replicate nonterminals {}) =
      compute productions nonterminals terminals := by
  obtain ⟨more, rfl⟩ := Nat.exists_eq_add_of_le' h
  rw [iterate_eq, Function.iterate_add_apply, ← iterate_eq (nonterminals * (terminals + 1) + 1)]
  exact Function.iterate_fixed (round_compute hp) more

/-- **The first terminals are exact.** Whatever the productions, with all numbers in bounds, the
rounds end, and so do sweeps over the productions in any order, with the same table. Its entry of a
string lists exactly the terminals that stand in front of something the string derives, and says
that the string can derive the empty one exactly when it can. -/
theorem ofString_compute (hp : ∀ p ∈ productions, p.Within nonterminals terminals) :
    (∃ limit, ∀ rounds ≥ limit, iterate productions rounds (Array.replicate nonterminals {}) =
      compute productions nonterminals terminals) ∧
    (∀ order, (∀ p, p ∈ order ↔ p ∈ productions) → ∃ limit, ∀ sweeps ≥ limit,
      (sweep order)^[sweeps] (Array.replicate nonterminals {}) =
        compute productions nonterminals terminals) ∧
    ∀ s, (∀ a, a ∈ ((compute productions nonterminals terminals).ofString s).terminals ↔
        ∃ rest, Derives productions s (.terminal a :: rest)) ∧
      (((compute productions nonterminals terminals).ofString s).nullable = true ↔
        Derives productions s []) := by
  refine ⟨⟨_, fun _ => iterate_eq_compute hp⟩,
    fun order horder => ⟨_, fun _ => sweep_eq_compute hp horder⟩, fun s => ⟨fun a => ?_, ?_⟩⟩
  · rw [mem_terminals_compute_iff hp, begins_iff_derives]
  · rw [nullable_compute_iff hp, vanishes_iff_derives]

/-- Left recursion, a nonterminal that derives itself, one that vanishes in front of another, and
one that derives no terminals, also in front of a terminal. -/
def tangled : List Production :=
  [⟨1, [.nonterminal 1, .terminal 1], none, .first⟩,
    ⟨1, [.nonterminal 2, .nonterminal 3], none, .first⟩,
    ⟨2, [.nonterminal 2], none, .first⟩,
    ⟨2, [], none, .first⟩,
    ⟨3, [.terminal 2], none, .first⟩,
    ⟨3, [.nonterminal 4, .terminal 3], none, .first⟩,
    ⟨4, [.nonterminal 4], none, .first⟩]

/-- What tangled productions derive can be read off the table, which sweeps from the last to the
first of them come to as well. -/
theorem derives_tangled :
    (∀ p ∈ tangled, p.Within 5 4) ∧
    (∃ limit, ∀ sweeps ≥ limit, (sweep tangled.reverse)^[sweeps] (Array.replicate 5 {}) =
      compute tangled 5 4) ∧
    (∃ rest, Derives tangled [.nonterminal 2, .nonterminal 1] (.terminal 2 :: rest)) ∧
    (¬ ∃ rest, Derives tangled [.nonterminal 3] (.terminal 3 :: rest)) ∧
    Derives tangled [.nonterminal 2, .nonterminal 2] [] ∧
    ¬ Derives tangled [.nonterminal 1] [] := by
  have hp : ∀ p ∈ tangled, p.Within 5 4 := by decide
  obtain ⟨-, hsweeps, hexact⟩ := ofString_compute hp
  refine ⟨hp, hsweeps _ fun p => List.mem_reverse, ((hexact _).1 2).1 ?_,
    fun h => absurd (((hexact _).1 3).2 h) ?_, (hexact _).2.1 ?_,
    fun h => absurd ((hexact _).2.2 h) ?_⟩
  all_goals decide +kernel

end FirstTable

end LexParse
