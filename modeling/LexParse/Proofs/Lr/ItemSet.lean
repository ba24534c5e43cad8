import LexParse.Lr.Item
import Mathlib.Data.List.Basic

/-!
# Item sets as finite maps

An item set is a sorted list, and all that matters of it is which items belong to it and which
lookaheads they have. The lemmas here say what each operation does to these two, so that later
proofs never look at the list. Sorted sets with the same items and lookaheads are equal
(`ItemSet.ext_sorted`).
-/

namespace LexParse.Lr

namespace Item

variable {i j k : Item}

theorem before_iff : i.before j = true ↔
    i.production < j.production ∨ i.production = j.production ∧ i.mark < j.mark := by
  simp [before]

theorem before_irrefl : ¬ i.before i = true := by
  rw [before_iff]
  omega

theorem ne_of_before (h : i.before j = true) : i ≠ j := by
  rintro rfl
  exact before_irrefl h

theorem before_trans (h : i.before j = true) (h' : j.before k = true) : i.before k = true := by
  rw [before_iff] at *
  omega

theorem eq_of_not_before (h : ¬ i.before j = true) (h' : ¬ j.before i = true) : i = j := by
  rw [before_iff] at h h'
  obtain ⟨p, m⟩ := i
  obtain ⟨q, n⟩ := j
  simp only at h h'
  obtain rfl : p = q := by omega
  obtain rfl : m = n := by omega
  rfl

theorem advance_injective : Function.Injective advance := by
  intro i j h
  obtain ⟨p, m⟩ := i
  obtain ⟨q, n⟩ := j
  simp only [advance, mk.injEq] at h
  obtain ⟨rfl, h⟩ := h
  obtain rfl : m = n := by omega
  rfl

end Item

namespace ItemSet

variable {s t : ItemSet} {i j : Item} {las : NatSet} {a : Nat}

/-- The items of the set increase. -/
def Sorted (s : ItemSet) : Prop := s.Pairwise fun e f => e.1.before f.1 = true

@[simp] theorem sorted_nil : Sorted [] := List.Pairwise.nil

@[simp] theorem sorted_singleton (e : Item × NatSet) : Sorted [e] := List.pairwise_singleton _ _

theorem mem_core_of_mem (h : (i, las) ∈ s) : i ∈ s.core := List.mem_map_of_mem (f := (·.1)) h

theorem exists_of_mem_core (h : i ∈ s.core) : ∃ las, (i, las) ∈ s := by
  obtain ⟨⟨j, las⟩, hm, rfl⟩ := List.mem_map.1 h
  exact ⟨las, hm⟩

/-- The first item of a sorted set does not come again. -/
theorem Sorted.head_notMem_core {e : Item × NatSet} {rest : ItemSet} (h : Sorted (e :: rest)) :
    e.1 ∉ rest.core := by
  intro hm
  obtain ⟨las, hm⟩ := exists_of_mem_core hm
  exact Item.before_irrefl ((List.pairwise_cons.1 h).1 (e.1, las) hm)

theorem find?_cons (e : Item × NatSet) (rest : ItemSet) :
    find? (e :: rest) i = if i = e.1 then some e.2 else find? rest i := by
  obtain ⟨j, las⟩ := e
  rw [find?, List.lookup_cons]
  by_cases h : i = j
  · simp [h]
  · simp [h, beq_eq_false_iff_ne.2 h, find?]

/-- In a sorted set the entry of an item is the one that is found. -/
theorem Sorted.find?_eq_some_iff (h : s.Sorted) : s.find? i = some las ↔ (i, las) ∈ s := by
  induction s with
  | nil => simp [find?]
  | cons e rest ih =>
    obtain ⟨j, other⟩ := e
    have ih := ih (List.pairwise_cons.1 h).2
    rw [find?_cons]
    by_cases hij : i = j
    · subst hij
      have hnot : (i, las) ∉ rest := fun hm => h.head_notMem_core (mem_core_of_mem hm)
      simp [hnot, eq_comm]
    · simp [hij, ih]

theorem Sorted.lookaheads_eq (h : s.Sorted) (hm : (i, las) ∈ s) : s.lookaheads i = las := by
  rw [lookaheads, h.find?_eq_some_iff.2 hm]
  rfl

theorem Sorted.mem_lookaheads (h : s.Sorted) (hm : i ∈ s.core) : (i, s.lookaheads i) ∈ s := by
  obtain ⟨las, hlas⟩ := exists_of_mem_core hm
  rwa [h.lookaheads_eq hlas]

theorem find?_eq_none_iff : s.find? i = none ↔ i ∉ s.core := by
  induction s with
  | nil => simp [find?, core]
  | cons e rest ih =>
    rw [core] at ih ⊢
    rw [find?_cons]
    by_cases hij : i = e.1
    · simp [hij]
    · simp [hij, ih]

theorem mem_core_of_mem_lookaheads (h : a ∈ s.lookaheads i) : i ∈ s.core := by
  by_contra hi
  rw [lookaheads, find?_eq_none_iff.2 hi] at h
  simp at h

/-- Sorted sets with the same items and lookaheads are equal. -/
theorem ext_sorted (hs : s.Sorted) (ht : t.Sorted) (hcore : ∀ i, i ∈ s.core ↔ i ∈ t.core)
    (hlas : ∀ i a, a ∈ s.lookaheads i ↔ a ∈ t.lookaheads i) : s = t := by
  have hmem : ∀ e, e ∈ s ↔ e ∈ t := by
    rintro ⟨i, las⟩
    have heq : s.lookaheads i = t.lookaheads i := NatSet.ext_mem (hlas i)
    constructor
    · intro h
      have := ht.mem_lookaheads ((hcore i).1 (mem_core_of_mem h))
      rwa [← heq, hs.lookaheads_eq h] at this
    · intro h
      have := hs.mem_lookaheads ((hcore i).2 (mem_core_of_mem h))
      rwa [heq, ht.lookaheads_eq h] at this
  have hnodup : ∀ {u : ItemSet}, u.Sorted → u.Nodup := fun hu =>
    hu.imp fun h he => Item.ne_of_before h (congrArg Prod.fst he)
  refine List.Perm.eq_of_pairwise (fun e f _ _ hef hfe => ?_) hs ht
    ((List.perm_ext_iff_of_nodup (hnodup hs) (hnodup ht)).2 hmem)
  exact absurd (Item.before_trans hef hfe) Item.before_irrefl

/-- Sorted sets with the same items list them alike. -/
theorem core_eq_of_sorted (hs : s.Sorted) (ht : t.Sorted) (hcore : ∀ i, i ∈ s.core ↔ i ∈ t.core) :
    s.core = t.core := by
  have hpair : ∀ {u : ItemSet}, u.Sorted → u.core.Pairwise fun i j => i.before j = true := fun hu =>
    List.pairwise_map.2 hu
  have hnodup : ∀ {u : ItemSet}, u.Sorted → u.core.Nodup := fun hu =>
    (hpair hu).imp Item.ne_of_before
  refine List.Perm.eq_of_pairwise (fun i j _ _ hij hji => ?_) (hpair hs) (hpair ht)
    ((List.perm_ext_iff_of_nodup (hnodup hs) (hnodup ht)).2 hcore)
  exact absurd (Item.before_trans hij hji) Item.before_irrefl

/-! ### Adding lookaheads -/

@[simp] theorem mem_core_add : j ∈ (s.add i las).core ↔ j = i ∨ j ∈ s.core := by
  simp only [core]
  induction s with
  | nil => simp [add]
  | cons e rest ih =>
    obtain ⟨k, other⟩ := e
    rw [add]
    split
    · rename_i h
      simp [h]
    · split
      · simp
      · simp only [List.map_cons, List.mem_cons, ih]
        tauto

theorem Sorted.add (h : s.Sorted) (i : Item) (las : NatSet) : (s.add i las).Sorted := by
  induction s with
  | nil => simp [ItemSet.add]
  | cons e rest ih =>
    obtain ⟨k, other⟩ := e
    obtain ⟨hlt, hrest⟩ := List.pairwise_cons.1 h
    rw [ItemSet.add]
    split
    · exact List.pairwise_cons.2 ⟨hlt, hrest⟩
    · rename_i hne
      split
      · rename_i hb
        refine List.pairwise_cons.2 ⟨fun f hf => ?_, h⟩
        rcases List.mem_cons.1 hf with rfl | hf
        · exact hb
        · exact Item.before_trans hb (hlt f hf)
      · rename_i hb
        refine List.pairwise_cons.2 ⟨fun f hf => ?_, ih hrest⟩
        have hki : k.before i = true := by
          by_contra hk
          exact hne (Item.eq_of_not_before hb hk)
        rcases mem_core_add.1 (mem_core_of_mem (i := f.1) hf) with hf | hf
        · exact hf ▸ hki
        · obtain ⟨las', hf⟩ := exists_of_mem_core hf
          exact hlt (f.1, las') hf

theorem Sorted.mem_lookaheads_add (h : s.Sorted) :
    a ∈ (s.add i las).lookaheads j ↔ a ∈ s.lookaheads j ∨ j = i ∧ a ∈ las := by
  induction s with
  | nil =>
    simp only [ItemSet.add, lookaheads, find?_cons]
    by_cases hji : j = i <;> simp [hji, find?]
  | cons e rest ih =>
    obtain ⟨k, other⟩ := e
    obtain ⟨hlt, hrest⟩ := List.pairwise_cons.1 h
    have ih := ih hrest
    simp only [lookaheads] at ih ⊢
    rw [ItemSet.add]
    split
    · rename_i hik
      subst hik
      by_cases hji : j = i <;> simp [find?_cons, hji]
    · rename_i hne
      split
      · rename_i hb
        by_cases hji : j = i
        · -- the item stands before all of the set, so it had no lookaheads
          subst hji
          have hnone : find? ((k, other) :: rest) j = none := by
            rw [find?_eq_none_iff]
            intro hj
            obtain ⟨las', hj⟩ := exists_of_mem_core hj
            rcases List.mem_cons.1 hj with hj | hj
            · exact hne (congrArg Prod.fst hj)
            · exact Item.before_irrefl (Item.before_trans hb (hlt _ hj))
          rw [hnone, find?_cons]
          simp
        · rw [find?_cons]
          simp [hji]
      · rw [find?_cons, find?_cons]
        by_cases hjk : j = k
        · have : j ≠ i := fun hji => hne (hji.symm.trans hjk)
          simp [hjk, Ne.symm hne]
        · simp [hjk, ih]

/-! ### Growing -/

theorem grows_eq_false_iff : s.grows i las = false ↔
    i ∈ s.core ∧ ∀ a, a ∈ las → a ∈ s.lookaheads i := by
  unfold grows lookaheads
  cases h : s.find? i with
  | none => simpa using fun hi => absurd hi (find?_eq_none_iff.1 h)
  | some old =>
    have hi : i ∈ s.core := by
      by_contra hi
      rw [find?_eq_none_iff.2 hi] at h
      cases h
    simp [hi, NatSet.subset_iff]

theorem Sorted.growsBy_eq_false_iff (ht : t.Sorted) : s.growsBy t = false ↔
    ∀ i ∈ t.core, i ∈ s.core ∧ ∀ a, a ∈ t.lookaheads i → a ∈ s.lookaheads i := by
  rw [growsBy, List.any_eq_false]
  constructor
  · intro h i hi
    have hm := ht.mem_lookaheads hi
    exact grows_eq_false_iff.1 (by simpa using h _ hm)
  · rintro h ⟨i, las⟩ hm
    have := h i (mem_core_of_mem hm)
    rw [ht.lookaheads_eq hm] at this
    simpa using grows_eq_false_iff.2 this

theorem Sorted.growsBy_self (h : s.Sorted) : s.growsBy s = false :=
  h.growsBy_eq_false_iff.2 fun _ hi => ⟨hi, fun _ ha => ha⟩

/-! ### Joining sets -/

theorem merge_cons (e : Item × NatSet) (rest : ItemSet) :
    s.merge (e :: rest) = (s.add e.1 e.2).merge rest := rfl

theorem Sorted.merge (h : s.Sorted) (t : ItemSet) : (s.merge t).Sorted := by
  induction t generalizing s with
  | nil => exact h
  | cons e rest ih => exact ih (h.add e.1 e.2)

@[simp] theorem mem_core_merge : j ∈ (s.merge t).core ↔ j ∈ s.core ∨ j ∈ t.core := by
  induction t generalizing s with
  | nil => simp [ItemSet.merge, core]
  | cons e rest ih =>
    rw [merge_cons, ih, mem_core_add]
    simp only [core, List.map_cons, List.mem_cons]
    tauto

theorem Sorted.mem_lookaheads_merge (hs : s.Sorted) (ht : t.Sorted) :
    a ∈ (s.merge t).lookaheads j ↔ a ∈ s.lookaheads j ∨ a ∈ t.lookaheads j := by
  induction t generalizing s with
  | nil => simp [ItemSet.merge, lookaheads, find?]
  | cons e rest ih =>
    obtain ⟨k, other⟩ := e
    rw [merge_cons, ih (hs.add _ _) (List.pairwise_cons.1 ht).2, hs.mem_lookaheads_add, or_assoc]
    have hcons : a ∈ lookaheads ((k, other) :: rest) j ↔
        j = k ∧ a ∈ other ∨ a ∈ lookaheads rest j := by
      simp only [lookaheads, find?_cons]
      by_cases hjk : j = k
      · subst hjk
        have hnone : find? rest j = none :=
          find?_eq_none_iff.2 ht.head_notMem_core
        simp [hnone]
      · simp [hjk]
    rw [hcons]

end ItemSet

end LexParse.Lr
