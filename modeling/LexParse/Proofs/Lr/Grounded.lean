import LexParse.Lr.Validity
import LexParse.Proofs.Lr.Goto
import Mathlib.Data.Finset.Powerset

/-!
# Grounded item sets

What every item of a state owes to the grammar, whichever way the states are told apart: its
production exists, its left side is needed somewhere in some input, and each of its lookaheads can
begin what comes behind such a place. Closing a set and moving the marks over a symbol keep this.
There are only so many grounded sets, and this bounds the construction of the states.

## What is proved

* `grounded_closure`, `IsGoto.grounded`: the closure of a grounded set, and what a symbol leads to
  from it, are grounded.
* `length_le_of_grounded`: no list of different grounded sets is longer than the number of steps
  that the construction of the states is given.
-/

namespace LexParse.Lr

open Context

variable {g : Grammar} {i j : Item} {X : Symbol}

/-- The production exists, and the mark is not beyond its end. -/
def IsItem (g : Grammar) (i : Item) : Prop :=
  ∃ p, g.augmented[i.production]? = some p ∧ i.mark ≤ p.right.length

/-- The left side of the item is needed somewhere. -/
def Needed (g : Grammar) (i : Item) : Prop :=
  ∃ before after, Situation g.augmented before ((ofGrammar g).production i).left after

/-- The left side of the item is needed somewhere where the terminal can come behind it. -/
def Expects (g : Grammar) (i : Item) (a : Nat) : Prop :=
  ∃ before after, Situation g.augmented before ((ofGrammar g).production i).left after ∧
    Begins g.augmented after a

theorem production_eq_of_getElem? {p : Production} (h : g.augmented[i.production]? = some p) :
    (ofGrammar g).production i = p := by
  rw [production_eq, h]
  rfl

/-- Behind the mark at its start stands the whole right side of a production. -/
theorem behind_start {p : Nat} {q : Production} (h : g.augmented[p]? = some q) :
    (ofGrammar g).behind ⟨p, 0⟩ = q.right := by
  rw [← production_eq_of_getElem? (i := ⟨p, 0⟩) h]
  rfl

/-- The right side of an item around the symbol behind its mark. -/
theorem right_eq_of_next? (h : (ofGrammar g).next? i = some X) :
    ((ofGrammar g).production i).right =
      ((ofGrammar g).production i).right.take i.mark ++ X :: (ofGrammar g).behind i.advance := by
  rw [← behind_eq_of_next? h]
  exact (List.take_append_drop _ _).symm

theorem mark_lt_of_next? (h : (ofGrammar g).next? i = some X) :
    i.mark < ((ofGrammar g).production i).right.length := by
  by_contra hge
  have hnil : (ofGrammar g).behind i = [] := List.drop_eq_nil_iff.2 (Nat.not_lt.1 hge)
  rw [next?, hnil] at h
  cases h

theorem IsItem.production_mem (h : IsItem g i) : (ofGrammar g).production i ∈ g.augmented := by
  obtain ⟨p, hp, -⟩ := h
  rw [production_eq_of_getElem? hp]
  exact List.mem_of_getElem? hp

theorem IsItem.advance (h : IsItem g i) (hX : (ofGrammar g).next? i = some X) :
    IsItem g i.advance := by
  obtain ⟨p, hp, -⟩ := h
  have hlt := mark_lt_of_next? hX
  rw [production_eq_of_getElem? hp] at hlt
  exact ⟨p, hp, hlt⟩

theorem mark_le_of_isItem (h : IsItem g i) :
    i.mark ≤ ((ofGrammar g).production i).right.length := by
  obtain ⟨p, hp, hle⟩ := h
  rwa [production_eq_of_getElem? hp]

theorem mark_eq_of_isComplete (h : IsItem g i) (hc : (ofGrammar g).isComplete i = true) :
    i.mark = ((ofGrammar g).production i).right.length := by
  rw [isComplete, List.isEmpty_iff, behind, List.drop_eq_nil_iff] at hc
  exact Nat.le_antisymm (mark_le_of_isItem h) hc

/-- Every item of the set is one of the grammar, is needed, and has lookaheads that are terminals
which can come behind it. -/
structure Grounded (g : Grammar) (s : ItemSet) : Prop where
  proper : Proper g s
  item : ∀ i ∈ s.core, IsItem g i
  needed : ∀ i ∈ s.core, Needed g i
  expects : ∀ i a, a ∈ s.lookaheads i → Expects g i a

/-- A nonterminal behind the mark is needed where the item is, after what stands before the mark. -/
theorem situation_of_next? {n : Nat} {before after : List Symbol} (hi : IsItem g i)
    (hn : (ofGrammar g).next? i = some (.nonterminal n))
    (h : Situation g.augmented before ((ofGrammar g).production i).left after) :
    Situation g.augmented (before ++ ((ofGrammar g).production i).right.take i.mark) n
      ((ofGrammar g).behind i.advance ++ after) :=
  .inside h hi.production_mem rfl (right_eq_of_next? hn)

/-- The demands of items pass on that they are needed, and what can come behind them. -/
theorem closed_needed (hg : g.WellFormed) :
    Closed g (fun i => IsItem g i ∧ Needed g i) (Expects g) := by
  have hstart : ∀ {n p}, p ∈ (ofGrammar g).derivationsOf n →
      IsItem g ⟨p, 0⟩ ∧ ((ofGrammar g).production ⟨p, 0⟩).left = n := by
    intro n p hp
    obtain ⟨q, hq, hn⟩ := (mem_derivationsOf_iff hg).1 hp
    exact ⟨⟨q, hq, Nat.zero_le _⟩, by rw [production_eq_of_getElem? hq, hn]⟩
  refine ⟨fun {i n p} hi hn hp => ?_, fun {i n p a} hi hn hp ha => ?_⟩
  · obtain ⟨hi, before, after, hs⟩ := hi
    exact ⟨(hstart hp).1, _, _, (hstart hp).2.symm ▸ situation_of_next? hi hn hs⟩
  · have htail : ((ofGrammar g).behind i).tail = (ofGrammar g).behind i.advance := by
      rw [behind_eq_of_next? hn]
      rfl
    rw [htail] at ha
    obtain ⟨hi, before, after, hs⟩ := hi
    rcases ha with hb | ⟨hv, before', after', hs', hb⟩
    · refine ⟨_, _, (hstart hp).2.symm ▸ situation_of_next? hi hn hs, ?_⟩
      exact begins_append_iff.2 (.inl hb)
    · refine ⟨_, _, (hstart hp).2.symm ▸ situation_of_next? hi hn hs', ?_⟩
      exact begins_append_iff.2 (.inr ⟨hv, hb⟩)

theorem grounded_closure (hg : g.WellFormed) {kernel : ItemSet} (h : Grounded g kernel) :
    Grounded g ((ofGrammar g).closure kernel) := by
  obtain ⟨hM, hF⟩ := closure_least hg h.proper (closed_needed hg)
    (fun i hi => ⟨h.item i hi, h.needed i hi⟩) h.expects
  exact ⟨proper_closure hg h.proper, fun i hi => (hM i hi).1, fun i hi => (hM i hi).2, hF⟩

theorem IsGoto.grounded {elements kernel : ItemSet} (h : IsGoto (ofGrammar g) elements X kernel)
    (hs : Grounded g elements) : Grounded g kernel := by
  refine ⟨⟨h.sorted, fun j a ha => ?_⟩, fun j hj => ?_, fun j hj => ?_, fun j a ha => ?_⟩
  · obtain ⟨i, ha, -⟩ := (h.lookaheads j a).1 ha
    exact hs.proper.bounded i a ha
  · obtain ⟨i, hi, -, hX, rfl⟩ := (h.core j).1 hj
    exact (hs.item i hi).advance hX
  · obtain ⟨i, hi, -, -, rfl⟩ := (h.core j).1 hj
    exact hs.needed i hi
  · obtain ⟨i, hi, -, -, rfl⟩ := (h.lookaheads j a).1 ha
    exact hs.expects i a hi

theorem Grounded.merge {s t : ItemSet} (hs : Grounded g s) (ht : Grounded g t) :
    Grounded g (s.merge t) := by
  have hlas : ∀ i a, a ∈ (s.merge t).lookaheads i → a ∈ s.lookaheads i ∨ a ∈ t.lookaheads i :=
    fun i a => (hs.proper.sorted.mem_lookaheads_merge ht.proper.sorted).1
  refine ⟨⟨hs.proper.sorted.merge t, fun i a ha => ?_⟩, fun i hi => ?_, fun i hi => ?_,
    fun i a ha => ?_⟩
  · exact (hlas i a ha).elim (hs.proper.bounded i a) (ht.proper.bounded i a)
  · exact (ItemSet.mem_core_merge.1 hi).elim (hs.item i) (ht.item i)
  · exact (ItemSet.mem_core_merge.1 hi).elim (hs.needed i) (ht.needed i)
  · exact (hlas i a ha).elim (hs.expects i a) (ht.expects i a)

/-- The only item of the first kernel has no lookahead. -/
theorem not_mem_lookaheads_first {a : Nat} : ¬ a ∈ ItemSet.lookaheads [(⟨0, 0⟩, ∅)] i := by
  intro ha
  rw [ItemSet.lookaheads, ItemSet.find?_cons] at ha
  split at ha <;> simp [ItemSet.find?] at ha

/-- The first kernel: the whole input is to come. -/
theorem grounded_first (g : Grammar) : Grounded g [(⟨0, 0⟩, ∅)] := by
  refine ⟨⟨ItemSet.sorted_singleton _, fun j a ha => absurd ha not_mem_lookaheads_first⟩, ?_, ?_,
    fun i a ha => absurd ha not_mem_lookaheads_first⟩
  · simpa [ItemSet.core] using ⟨g.wholeInput, rfl, Nat.zero_le _⟩
  · simpa [ItemSet.core] using ⟨[], [], .whole⟩

/-! ### Counting grounded sets -/

/-- The items of the grammar, production by production. -/
def itemsFrom (n : Nat) : List Production → List Item
  | [] => []
  | p :: rest => (List.range (p.right.length + 1)).map (⟨n, ·⟩) ++ itemsFrom (n + 1) rest

theorem mem_itemsFrom {productions : List Production} {n k : Nat} {p : Production}
    (h : productions[k]? = some p) {m : Nat} (hm : m ≤ p.right.length) :
    ⟨n + k, m⟩ ∈ itemsFrom n productions := by
  induction productions generalizing n k with
  | nil => simp at h
  | cons q rest ih =>
    rw [itemsFrom, List.mem_append]
    cases k with
    | zero =>
      obtain rfl : q = p := by simpa using h
      exact .inl (List.mem_map.2 ⟨m, List.mem_range.2 (by omega), rfl⟩)
    | succ k =>
      have hk : n + (k + 1) = n + 1 + k := by omega
      rw [hk]
      exact .inr (ih (by simpa using h))

theorem length_itemsFrom (n k : Nat) (productions : List Production) :
    k + (itemsFrom n productions).length =
      productions.foldl (fun n p => n + p.right.length + 1) k := by
  induction productions generalizing n k with
  | nil => rfl
  | cons p rest ih =>
    rw [List.foldl_cons, ← ih (n + 1)]
    simp only [itemsFrom, List.length_append, List.length_map, List.length_range]
    omega

/-- All that can be said of a grounded set: that an item belongs to it, or has a lookahead. -/
def kernelSpace (g : Grammar) : Finset (Item × Option Nat) :=
  (itemsFrom 0 g.augmented).toFinset ×ˢ (Finset.range g.terminals.size).insertNone

theorem card_kernelSpace_le (g : Grammar) :
    (kernelSpace g).card ≤ (ofGrammar g).itemCount * ((ofGrammar g).terminalCount + 1) := by
  have hcount : (itemsFrom 0 g.augmented).length = (ofGrammar g).itemCount := by
    have := length_itemsFrom 0 0 g.augmented
    simpa [itemCount, ofGrammar] using this
  rw [kernelSpace, Finset.card_product, Finset.card_insertNone, Finset.card_range, ← hcount]
  exact Nat.mul_le_mul_right _ (List.toFinset_card_le _)

/-- What is said by a set. -/
def Says (s : ItemSet) : Item × Option Nat → Prop
  | (i, none) => i ∈ s.core
  | (i, some a) => a ∈ s.lookaheads i

theorem Grounded.mem_kernelSpace {s : ItemSet} (h : Grounded g s) {f : Item × Option Nat}
    (hf : Says s f) : f ∈ kernelSpace g := by
  have hitem : ∀ i ∈ s.core, i ∈ itemsFrom 0 g.augmented := by
    intro i hi
    obtain ⟨p, hp, hm⟩ := h.item i hi
    simpa using mem_itemsFrom (n := 0) hp hm
  obtain ⟨i, _ | a⟩ := f
  · have := hitem i hf
    simp [kernelSpace, this]
  · have hi := hitem i (ItemSet.mem_core_of_mem_lookaheads hf)
    have ha := h.proper.bounded i a hf
    simp [kernelSpace, hi, ha]

open Classical in
/-- What is said by a set, as a finite set. -/
noncomputable def sayings (g : Grammar) (s : ItemSet) : Finset (Item × Option Nat) :=
  (kernelSpace g).filter (Says s)

theorem sayings_injective {s t : ItemSet} (hs : Grounded g s) (ht : Grounded g t)
    (h : sayings g s = sayings g t) : s = t := by
  classical
  have hsays : ∀ f, Says s f ↔ Says t f := by
    intro f
    constructor
    · intro hf
      have hm : f ∈ sayings g s := Finset.mem_filter.2 ⟨hs.mem_kernelSpace hf, hf⟩
      rw [h] at hm
      exact (Finset.mem_filter.1 hm).2
    · intro hf
      have hm : f ∈ sayings g t := Finset.mem_filter.2 ⟨ht.mem_kernelSpace hf, hf⟩
      rw [← h] at hm
      exact (Finset.mem_filter.1 hm).2
  exact ItemSet.ext_sorted hs.proper.sorted ht.proper.sorted (fun i => hsays (i, none))
    fun i a => hsays (i, some a)

/-- **There are only so many grounded sets.** -/
theorem length_le_of_grounded {l : List ItemSet} (hnodup : l.Nodup) (h : ∀ s ∈ l, Grounded g s) :
    l.length ≤ 2 ^ ((ofGrammar g).itemCount * ((ofGrammar g).terminalCount + 1)) := by
  classical
  have hmap : (l.map (sayings g)).Nodup :=
    hnodup.map_on fun s hs t ht heq => sayings_injective (h s hs) (h t ht) heq
  have hsub : (l.map (sayings g)).toFinset ⊆ (kernelSpace g).powerset := by
    intro x hx
    obtain ⟨s, -, rfl⟩ := List.mem_map.1 (List.mem_toFinset.1 hx)
    exact Finset.mem_powerset.2 (Finset.filter_subset _ _)
  calc l.length = (l.map (sayings g)).toFinset.card := by
        rw [List.toFinset_card_of_nodup hmap, List.length_map]
    _ ≤ (kernelSpace g).powerset.card := Finset.card_le_card hsub
    _ = 2 ^ (kernelSpace g).card := Finset.card_powerset _
    _ ≤ _ := Nat.pow_le_pow_right (by omega) (card_kernelSpace_le g)

end LexParse.Lr
