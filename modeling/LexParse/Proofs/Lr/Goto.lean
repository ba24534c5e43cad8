import LexParse.Lr.Graph
import LexParse.Proofs.Lr.Closure

/-!
# Successors of a state

The elements of a state are sorted by the symbol behind their mark, and those with the same symbol
make up a kernel once the mark has moved over it. The kernels are gathered in one pass over the
elements; what counts of them is said by `IsGoto`, without the order in which the pass finds them.

## What is proved

* `Context.isGoto_of_mem_gotos`, `Context.exists_mem_gotos`: the pass finds a kernel for each symbol
  behind a mark but the end of the input, and each holds the items moved over that symbol with the
  lookaheads they had.
* `Context.nodup_gotos`: it finds one kernel for a symbol.
-/

namespace LexParse.Lr

variable {acc : List (Symbol × ItemSet)} {X Y : Symbol} {i j : Item} {las : NatSet} {a : Nat}

/-- The kernel gathered for a symbol so far. -/
def kernelOver (acc : List (Symbol × ItemSet)) (X : Symbol) : ItemSet := (acc.lookup X).getD []

theorem kernelOver_cons (e : Symbol × ItemSet) (rest : List (Symbol × ItemSet)) :
    kernelOver (e :: rest) X = if X = e.1 then e.2 else kernelOver rest X := by
  obtain ⟨Z, K⟩ := e
  rw [kernelOver, List.lookup_cons]
  by_cases h : X = Z
  · simp [h]
  · simp [h, beq_eq_false_iff_ne.2 h, kernelOver]

theorem kernelOver_addGoto : kernelOver (addGoto X i las acc) Y =
    if Y = X then (kernelOver acc X).add i las else kernelOver acc Y := by
  induction acc with
  | nil =>
    rw [addGoto, kernelOver_cons]
    rfl
  | cons e rest ih =>
    obtain ⟨Z, K⟩ := e
    rw [addGoto]
    by_cases hZ : Z = X
    · subst hZ
      by_cases hY : Y = Z <;> simp [kernelOver_cons, hY]
    · rw [if_neg hZ, kernelOver_cons, kernelOver_cons, kernelOver_cons, ih]
      by_cases hY : Y = Z
      · simp [hY, hZ]
      · simp [hY, Ne.symm hZ]

theorem mem_keys_addGoto :
    Y ∈ (addGoto X i las acc).map (·.1) ↔ Y = X ∨ Y ∈ acc.map (·.1) := by
  induction acc with
  | nil => simp [addGoto]
  | cons e rest ih =>
    obtain ⟨Z, K⟩ := e
    rw [addGoto]
    by_cases hZ : Z = X
    · simp [hZ]
    · rw [if_neg hZ, List.map_cons, List.mem_cons, ih, List.map_cons, List.mem_cons]
      tauto

theorem nodup_keys_addGoto (h : (acc.map (·.1)).Nodup) :
    ((addGoto X i las acc).map (·.1)).Nodup := by
  induction acc with
  | nil => simp [addGoto]
  | cons e rest ih =>
    obtain ⟨Z, K⟩ := e
    obtain ⟨hnot, hrest⟩ := List.nodup_cons.1 h
    rw [addGoto]
    by_cases hZ : Z = X
    · rw [if_pos hZ]
      exact h
    · rw [if_neg hZ, List.map_cons, List.nodup_cons]
      refine ⟨fun hm => ?_, ih hrest⟩
      rcases mem_keys_addGoto.1 hm with hm | hm
      · exact hZ hm
      · exact hnot hm

theorem kernelOver_eq_of_mem {K : ItemSet} (h : (acc.map (·.1)).Nodup) (hm : (X, K) ∈ acc) :
    kernelOver acc X = K := by
  induction acc with
  | nil => cases hm
  | cons e rest ih =>
    obtain ⟨hnot, hrest⟩ := List.nodup_cons.1 h
    rw [kernelOver_cons]
    rcases List.mem_cons.1 hm with rfl | hm
    · simp
    · have hX : X ∈ rest.map (·.1) := List.mem_map_of_mem (f := (·.1)) hm
      have hne : X ≠ e.1 := by
        rintro rfl
        exact hnot hX
      rw [if_neg hne, ih hrest hm]

/-- The elements that a symbol takes to an item: their mark stands before the symbol, and the end of
the input is no such symbol. -/
def Leads (c : Context) (i : Item) (X : Symbol) (j : Item) : Prop :=
  X ≠ .endOfInput ∧ c.next? i = some X ∧ j = i.advance

/-- A kernel holds the elements moved over a symbol, with their lookaheads. -/
structure IsGoto (c : Context) (elements : ItemSet) (X : Symbol) (kernel : ItemSet) : Prop where
  sorted : kernel.Sorted
  core : ∀ j, j ∈ kernel.core ↔ ∃ i ∈ elements.core, Leads c i X j
  lookaheads : ∀ j a, a ∈ kernel.lookaheads j ↔ ∃ i, a ∈ elements.lookaheads i ∧ Leads c i X j

namespace Context

variable {c : Context} {elements : ItemSet}

/-- The pass over the elements with one more of them. -/
def addElement (c : Context) (acc : List (Symbol × ItemSet)) (e : Item × NatSet) :
    List (Symbol × ItemSet) :=
  match c.next? e.1 with
  | some symbol => if symbol = .endOfInput then acc else addGoto symbol e.1.advance e.2 acc
  | none => acc

theorem gotos_eq_foldl : c.gotos elements = elements.foldl c.addElement [] := rfl

theorem addElement_eq (e : Item × NatSet) : (∃ X, Leads c e.1 X e.1.advance ∧
    c.addElement acc e = addGoto X e.1.advance e.2 acc) ∨
    (∀ X j, ¬ Leads c e.1 X j) ∧ c.addElement acc e = acc := by
  unfold addElement
  split
  · rename_i X hX
    by_cases hend : X = .endOfInput
    · refine .inr ⟨fun Y j hY => hY.1 ?_, if_pos hend⟩
      rw [← hend]
      exact Option.some.inj (hY.2.1.symm.trans hX)
    · exact .inl ⟨X, ⟨hend, hX, rfl⟩, if_neg hend⟩
  · rename_i hX
    refine .inr ⟨fun Y j hY => ?_, rfl⟩
    exact absurd (hX.symm.trans hY.2.1) (by simp)

/-- What the pass has gathered, in terms of the elements it has seen. -/
structure Gathered (c : Context) (seen : ItemSet) (acc : List (Symbol × ItemSet)) : Prop where
  nodup : (acc.map (·.1)).Nodup
  keys : ∀ X, X ∈ acc.map (·.1) ↔ ∃ e ∈ seen, ∃ j, Leads c e.1 X j
  sorted : ∀ X, (kernelOver acc X).Sorted
  core : ∀ X j, j ∈ (kernelOver acc X).core ↔ ∃ e ∈ seen, Leads c e.1 X j
  lookaheads : ∀ X j a, a ∈ (kernelOver acc X).lookaheads j ↔
    ∃ e ∈ seen, a ∈ e.2 ∧ Leads c e.1 X j

theorem Gathered.step {seen : ItemSet} (h : Gathered c seen acc) (e : Item × NatSet) :
    Gathered c (seen ++ [e]) (c.addElement acc e) := by
  have hsplit : ∀ P : Item × NatSet → Prop,
      (∃ f ∈ seen ++ [e], P f) ↔ (∃ f ∈ seen, P f) ∨ P e := by
    intro P
    simp only [List.mem_append, List.mem_singleton, or_and_right, exists_or, exists_eq_left]
  rcases addElement_eq (c := c) e with ⟨X, hX, heq⟩ | ⟨hnone, heq⟩
  · have honly : ∀ Y j, Leads c e.1 Y j ↔ Y = X ∧ j = e.1.advance := by
      intro Y j
      constructor
      · rintro ⟨-, hn, hj⟩
        exact ⟨Option.some.inj (hn.symm.trans hX.2.1), hj⟩
      · rintro ⟨rfl, rfl⟩
        exact hX
    rw [heq]
    refine ⟨nodup_keys_addGoto h.nodup, fun Y => ?_, fun Y => ?_, fun Y j => ?_, fun Y j a => ?_⟩
    · rw [mem_keys_addGoto, h.keys, hsplit fun f => ∃ j, Leads c f.1 Y j]
      simp only [honly, exists_and_left, exists_eq, and_true]
      exact or_comm
    · rw [kernelOver_addGoto]
      split
      · exact (h.sorted X).add _ _
      · exact h.sorted Y
    · rw [kernelOver_addGoto, hsplit fun f => Leads c f.1 Y j, honly, ← h.core]
      by_cases hY : Y = X
      · subst hY
        simp [or_comm]
      · simp [hY]
    · rw [kernelOver_addGoto, hsplit fun f => a ∈ f.2 ∧ Leads c f.1 Y j, honly, ← h.lookaheads]
      by_cases hY : Y = X
      · subst hY
        simp [(h.sorted Y).mem_lookaheads_add, and_comm]
      · simp [hY]
  · rw [heq]
    refine ⟨h.nodup, fun Y => ?_, h.sorted, fun Y j => ?_, fun Y j a => ?_⟩
    · rw [h.keys, hsplit fun f => ∃ j, Leads c f.1 Y j]
      simp [hnone]
    · rw [h.core, hsplit fun f => Leads c f.1 Y j]
      simp [hnone]
    · rw [h.lookaheads, hsplit fun f => a ∈ f.2 ∧ Leads c f.1 Y j]
      simp [hnone]

theorem Gathered.foldl {seen : ItemSet} (h : Gathered c seen acc) (rest : ItemSet) :
    Gathered c (seen ++ rest) (rest.foldl c.addElement acc) := by
  induction rest generalizing seen acc with
  | nil => simpa using h
  | cons e rest ih => simpa using ih (h.step e)

theorem gathered_gotos (c : Context) (elements : ItemSet) :
    Gathered c elements (c.gotos elements) := by
  have hnil : Gathered c [] [] := by
    refine ⟨List.nodup_nil, ?_, fun X => ItemSet.sorted_nil, ?_, ?_⟩ <;>
      simp [kernelOver, ItemSet.core, ItemSet.lookaheads, ItemSet.find?]
  simpa [gotos_eq_foldl] using hnil.foldl elements

/-- There is one kernel for a symbol. -/
theorem nodup_gotos (c : Context) (elements : ItemSet) :
    ((c.gotos elements).map (·.1)).Nodup :=
  (gathered_gotos c elements).nodup

/-- The kernels found are those the symbols lead to. -/
theorem isGoto_of_mem_gotos (h : elements.Sorted) {kernel : ItemSet}
    (hm : (X, kernel) ∈ c.gotos elements) : IsGoto c elements X kernel := by
  have hg := gathered_gotos c elements
  have hk := kernelOver_eq_of_mem hg.nodup hm
  refine ⟨hk ▸ hg.sorted X, fun j => ?_, fun j a => ?_⟩
  · rw [← hk, hg.core]
    constructor
    · rintro ⟨e, he, hl⟩
      exact ⟨e.1, ItemSet.mem_core_of_mem he, hl⟩
    · rintro ⟨i, hi, hl⟩
      exact ⟨_, h.mem_lookaheads hi, hl⟩
  · rw [← hk, hg.lookaheads]
    constructor
    · rintro ⟨⟨i, las⟩, he, ha, hl⟩
      exact ⟨i, (h.lookaheads_eq he).symm ▸ ha, hl⟩
    · rintro ⟨i, ha, hl⟩
      exact ⟨_, h.mem_lookaheads (ItemSet.mem_core_of_mem_lookaheads ha), ha, hl⟩

theorem exists_leads_of_mem_gotos {kernel : ItemSet} (hm : (X, kernel) ∈ c.gotos elements) :
    ∃ i ∈ elements.core, Leads c i X i.advance := by
  have hX : X ∈ (c.gotos elements).map (·.1) := List.mem_map_of_mem (f := (·.1)) hm
  obtain ⟨e, he, j, hl⟩ := ((gathered_gotos c elements).keys X).1 hX
  exact ⟨e.1, ItemSet.mem_core_of_mem he, hl.1, hl.2.1, rfl⟩

/-- Each symbol behind a mark leads to a kernel. -/
theorem exists_mem_gotos (hi : i ∈ elements.core) (hl : Leads c i X j) :
    ∃ kernel, (X, kernel) ∈ c.gotos elements := by
  obtain ⟨las, hi⟩ := ItemSet.exists_of_mem_core hi
  have hX := ((gathered_gotos c elements).keys X).2 ⟨_, hi, j, hl⟩
  obtain ⟨⟨_, kernel⟩, hm, rfl⟩ := List.mem_map.1 hX
  exact ⟨kernel, hm⟩

end Context

end LexParse.Lr
