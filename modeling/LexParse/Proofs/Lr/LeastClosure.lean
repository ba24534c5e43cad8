import LexParse.Proofs.Lr.Closure
import Mathlib.Data.Set.Lattice
import Mathlib.Order.CompletePartialOrder
import Mathlib.Order.WithBot

/-!
# The closure is a least map, in whatever order items are looked at

An item set is a finite map from items to sets of lookaheads. Such maps are compared item by item:
an item that does not belong to a map is at the bottom, below every set of lookaheads. Of the maps
above a kernel that meet the demands of all their items there is a least one, and this is the
closure.

That is why the order does not matter in which items are taken off the list. Looking at an item adds
nothing that is not demanded, and when the list is empty all demands are met, however late a
lookahead has come: an item that gains one is put back. So every run ends, and with the same map.

## What is proved

* `Context.isLeast_closure`: the closure is the least map above the kernel that meets its demands.
* `Context.Looks.eq_closure`: a run that has left no item has found the closure.
* `Context.closure_of_any_order`: both, and every run from a kernel ends.
-/

namespace LexParse.Lr

/-- An item set as a map. Items that do not belong to it are at the bottom. -/
def ItemSet.toMap (s : ItemSet) (i : Item) : WithBot (Set Nat) :=
  if i ∈ s.core then ({a | a ∈ s.lookaheads i} : Set Nat) else ⊥

/-- A map has a lookahead of an item. -/
def HasLookahead (m : Item → WithBot (Set Nat)) (i : Item) (a : Nat) : Prop :=
  ({a} : Set Nat) ≤ m i

/-! ### Maps -/

/-- A map is above a set of lookaheads at an item if it has the item and each of the lookaheads. -/
theorem coe_le_iff {m : Item → WithBot (Set Nat)} {i : Item} {las : Set Nat} :
    (las : WithBot (Set Nat)) ≤ m i ↔ m i ≠ ⊥ ∧ ∀ a ∈ las, HasLookahead m i a := by
  constructor
  · intro h
    refine ⟨fun hbot => ?_, fun a ha => ?_⟩
    · rw [hbot] at h
      exact WithBot.coe_ne_bot (le_bot_iff.1 h)
    · exact (WithBot.coe_le_coe.2 (Set.singleton_subset_iff.2 ha)).trans h
  · rintro ⟨hne, h⟩
    obtain ⟨other, hother⟩ := WithBot.ne_bot_iff_exists.1 hne
    rw [← hother, WithBot.coe_le_coe]
    intro a ha
    have hmem := h a ha
    rw [HasLookahead, ← hother, WithBot.coe_le_coe] at hmem
    exact Set.singleton_subset_iff.1 hmem

theorem HasLookahead.mono {m : Item → WithBot (Set Nat)} {i j : Item} {a : Nat}
    (h : HasLookahead m i a) (hle : m i ≤ m j) : HasLookahead m j a :=
  le_trans h hle

namespace ItemSet

variable {s : ItemSet} {m : Item → WithBot (Set Nat)} {i : Item} {a : Nat}

theorem toMap_of_mem (h : i ∈ s.core) : s.toMap i = ({a | a ∈ s.lookaheads i} : Set Nat) :=
  if_pos h

theorem toMap_of_notMem (h : i ∉ s.core) : s.toMap i = ⊥ :=
  if_neg h

theorem toMap_ne_bot_iff : s.toMap i ≠ ⊥ ↔ i ∈ s.core := by
  by_cases h : i ∈ s.core
  · simp [toMap_of_mem h, h]
  · simp [toMap_of_notMem h, h]

theorem hasLookahead_toMap_iff : HasLookahead s.toMap i a ↔ a ∈ s.lookaheads i := by
  rw [HasLookahead]
  constructor
  · intro h
    have hi : i ∈ s.core := toMap_ne_bot_iff.1 (coe_le_iff.1 h).1
    rw [toMap_of_mem hi, WithBot.coe_le_coe] at h
    exact h (Set.mem_singleton a)
  · intro h
    rw [toMap_of_mem (mem_core_of_mem_lookaheads h), WithBot.coe_le_coe]
    exact Set.singleton_subset_iff.2 h

/-- A map is above an item set if it has its items with their lookaheads. -/
theorem toMap_le_iff : s.toMap ≤ m ↔
    (∀ i ∈ s.core, m i ≠ ⊥) ∧ ∀ i a, a ∈ s.lookaheads i → HasLookahead m i a := by
  constructor
  · intro h
    refine ⟨fun i hi hbot => ?_, fun i a ha => ?_⟩
    · exact toMap_ne_bot_iff.2 hi (le_bot_iff.1 (hbot ▸ h i))
    · exact le_trans (hasLookahead_toMap_iff.2 ha) (h i)
  · rintro ⟨hcore, hlas⟩ i
    by_cases hi : i ∈ s.core
    · rw [toMap_of_mem hi, coe_le_iff]
      exact ⟨hcore i hi, hlas i⟩
    · rw [toMap_of_notMem hi]
      exact bot_le

end ItemSet

namespace Context

variable {g : Grammar} {kernel s : ItemSet} {todo : List Item} {n : Nat}
  {m : Item → WithBot (Set Nat)}

/-! ### Closed sets and maps that meet their demands -/

/-- A map that has, with every item that stands in front of a nonterminal, the starts of the
productions of the nonterminal. -/
structure MeetsDemands (g : Grammar) (m : Item → WithBot (Set Nat)) : Prop where
  /-- What the symbols behind the nonterminal begin with is expected after its productions. -/
  first : ∀ {i n rest p q}, m i ≠ ⊥ → (ofGrammar g).behind i = .nonterminal n :: rest →
    g.augmented[p]? = some q → q.left = n →
    ({a | a ∈ (g.augmentedFirstTable.ofString rest).terminals} : Set Nat) ≤ m ⟨p, 0⟩
  /-- If these symbols may vanish, so is all that is expected after the item. -/
  inherited : ∀ {i n rest p q}, (ofGrammar g).behind i = .nonterminal n :: rest →
    g.augmented[p]? = some q → q.left = n →
    (g.augmentedFirstTable.ofString rest).nullable = true → m i ≤ m ⟨p, 0⟩

/-- A closed item set is a map that meets its demands. -/
theorem Closed.meetsDemands (hg : g.WellFormed)
    (hc : Closed g (· ∈ s.core) fun i a => a ∈ s.lookaheads i) : MeetsDemands g s.toMap := by
  constructor
  · intro i n rest p q hi hbehind hp hq
    have hi := ItemSet.toMap_ne_bot_iff.1 hi
    have hp := (mem_derivationsOf_iff hg).2 ⟨q, hp, hq⟩
    have hnext := next?_of_behind hbehind
    refine coe_le_iff.2 ⟨ItemSet.toMap_ne_bot_iff.2 (hc.item hi hnext hp), fun a ha => ?_⟩
    refine ItemSet.hasLookahead_toMap_iff.2 (hc.lookahead hi hnext hp (.inl ?_))
    rw [hbehind]
    exact (FirstTable.mem_terminals_compute_iff hg.within_augmented).1 ha
  · intro i n rest p q hbehind hp hq hnullable
    by_cases hi : i ∈ s.core
    · have hp := (mem_derivationsOf_iff hg).2 ⟨q, hp, hq⟩
      have hnext := next?_of_behind hbehind
      rw [ItemSet.toMap_of_mem hi]
      refine coe_le_iff.2 ⟨ItemSet.toMap_ne_bot_iff.2 (hc.item hi hnext hp), fun a ha => ?_⟩
      refine ItemSet.hasLookahead_toMap_iff.2 (hc.lookahead hi hnext hp (.inr ⟨?_, ha⟩))
      rw [hbehind]
      exact (FirstTable.nullable_compute_iff hg.within_augmented).1 hnullable
    · rw [ItemSet.toMap_of_notMem hi]
      exact bot_le

/-- What belongs to a map that meets its demands is closed. -/
theorem MeetsDemands.closed (hg : g.WellFormed) (hm : MeetsDemands g m) :
    Closed g (m · ≠ ⊥) (HasLookahead m) := by
  have hbehind : ∀ {i : Item} {n : Nat}, (ofGrammar g).next? i = some (.nonterminal n) →
      (ofGrammar g).behind i = .nonterminal n :: ((ofGrammar g).behind i).tail :=
    fun hn => List.eq_cons_of_mem_head? hn
  constructor
  · intro i n p hi hn hp
    obtain ⟨q, hq, hleft⟩ := (mem_derivationsOf_iff hg).1 hp
    exact (coe_le_iff.1 (hm.first hi (hbehind hn) hq hleft)).1
  · intro i n p a hi hn hp ha
    obtain ⟨q, hq, hleft⟩ := (mem_derivationsOf_iff hg).1 hp
    rcases ha with hbegins | ⟨hvanishes, ha⟩
    · have hmem := (FirstTable.mem_terminals_compute_iff hg.within_augmented).2 hbegins
      exact (coe_le_iff.1 (hm.first hi (hbehind hn) hq hleft)).2 a hmem
    · have hnullable := (FirstTable.nullable_compute_iff hg.within_augmented).2 hvanishes
      exact ha.mono (hm.inherited (hbehind hn) hq hleft hnullable)

/-- **The closure is the least map above the kernel that meets its demands.** -/
theorem isLeast_closure (hg : g.WellFormed) (hk : Proper g kernel) :
    IsLeast {m | kernel.toMap ≤ m ∧ MeetsDemands g m} ((ofGrammar g).closure kernel).toMap := by
  refine ⟨⟨?_, (closed_closure hg hk).meetsDemands hg⟩, fun m hm => ?_⟩
  · refine ItemSet.toMap_le_iff.2 ⟨fun i hi => ?_, fun i a ha => ?_⟩
    · exact ItemSet.toMap_ne_bot_iff.2 (mem_core_closure_of_mem hk hi)
    · exact ItemSet.hasLookahead_toMap_iff.2 (mem_lookaheads_closure_of_mem hk ha)
  · obtain ⟨hcore, hlas⟩ := ItemSet.toMap_le_iff.1 hm.1
    exact ItemSet.toMap_le_iff.2 (closure_least hg hk (hm.2.closed hg) hcore hlas)

/-! ### Runs in any order -/

/-- **A run that has left no item has found the closure.** -/
theorem Looks.eq_closure (hg : g.WellFormed) (hk : Proper g kernel)
    (htodo : todo.Perm kernel.core) (hlooks : (ofGrammar g).Looks n (todo, kernel) ([], s)) :
    s = (ofGrammar g).closure kernel := by
  have hworking := (hk.working htodo).looks hg hlooks
  obtain ⟨hcore, hlas⟩ := hlooks.mono hk.sorted
  -- each of the two is closed and holds the kernel, so it holds the other
  have hin := hlooks.least hg (closed_closure hg hk) hk.sorted
    (fun j hj => mem_core_closure_of_mem hk (htodo.mem_iff.1 hj))
    (fun j hj => mem_core_closure_of_mem hk hj) fun j a ha => mem_lookaheads_closure_of_mem hk ha
  have hout := closure_least hg hk hworking.closed hcore hlas
  exact ItemSet.ext_sorted hworking.sorted (proper_closure hg hk).sorted
    (fun i => ⟨hin.1 i, hout.1 i⟩) fun i a => ⟨hin.2 i a, hout.2 i a⟩

/-- **The closure is the least map above the kernel that meets its demands, and every run finds
it**, in whatever order items are taken off the list. -/
theorem closure_of_any_order (hg : g.WellFormed) (hk : Proper g kernel) :
    IsLeast {m | kernel.toMap ≤ m ∧ MeetsDemands g m} ((ofGrammar g).closure kernel).toMap ∧
    ∀ todo, todo.Perm kernel.core →
      (∃ n, (ofGrammar g).Looks n (todo, kernel) ([], (ofGrammar g).closure kernel)) ∧
      ∀ n st, (ofGrammar g).Looks n (todo, kernel) st →
        n ≤ kernel.length + g.augmented.length * (g.terminals.size + 1) ∧
        (st.1 = [] → st.2 = (ofGrammar g).closure kernel) := by
  refine ⟨isLeast_closure hg hk, fun todo htodo => ⟨?_, fun n st hlooks => ⟨?_, fun hnil => ?_⟩⟩⟩
  · obtain ⟨n, hlooks⟩ := exists_looks_nil hg hk htodo
    exact ⟨n, hlooks.eq_closure hg hk htodo ▸ hlooks⟩
  · exact hlooks.length_le_of_proper hg hk htodo
  · obtain ⟨rest, s⟩ := st
    subst hnil
    exact hlooks.eq_closure hg hk htodo

/-- Two nonterminals that derive each other and may vanish: behind a word the one stands alone, the
other before a stop. -/
def circling : GrammarDecl where
  productions := [⟨"line", ["WORD", "left"], .list, none⟩,
    ⟨"line", ["WORD", "right", "STOP"], .list, none⟩, ⟨"left", ["right"], .list, none⟩,
    ⟨"right", ["left"], .list, none⟩, ⟨"right", [], .list, none⟩]

/-- The items of a line after its word. -/
def afterWord : ItemSet := [(⟨1, 1⟩, .single 0), (⟨2, 1⟩, .single 0)]

/-- The stop is a lookahead of all items in front of the two nonterminals, also if it comes when
they have been looked at already. -/
theorem closure_afterWord : ∃ g, g.WellFormed ∧ Proper g afterWord ∧
    (∃ n, (ofGrammar g).Looks n ([⟨1, 1⟩, ⟨2, 1⟩], afterWord)
      ([], (ofGrammar g).closure afterWord)) ∧
    (∀ n s, (ofGrammar g).Looks n ([⟨1, 1⟩, ⟨2, 1⟩], afterWord) ([], s) →
      1 ∈ s.lookaheads ⟨3, 0⟩ ∧ 2 ∉ s.lookaheads ⟨3, 0⟩) ∧
    ∀ m, afterWord.toMap ≤ m → MeetsDemands g m → HasLookahead m ⟨4, 0⟩ 1 := by
  have hrun : ∃ g ∈ (circling.resolve [⟨"STOP", none⟩, ⟨"WORD", none⟩]).toOption,
      0 < g.terminals.size ∧ ((ofGrammar g).closure afterWord).lookaheads ⟨3, 0⟩ = ⟨3⟩ ∧
        ((ofGrammar g).closure afterWord).lookaheads ⟨4, 0⟩ = ⟨3⟩ := by decide +kernel
  obtain ⟨g, hresolved, hpos, hleft, hright⟩ := hrun
  have hg := GrammarDecl.wellFormed_of_resolve (toOption_eq_some_iff.1 hresolved)
  have hsorted : afterWord.Sorted := List.pairwise_pair.2 (by decide)
  have hk : Proper g afterWord := by
    refine ⟨hsorted, fun j a ha => ?_⟩
    have hmem := hsorted.mem_lookaheads (ItemSet.mem_core_of_mem_lookaheads ha)
    have hlas : afterWord.lookaheads j = .single 0 := by
      simp only [afterWord, List.mem_cons, Prod.mk.injEq, List.not_mem_nil, or_false] at hmem
      exact hmem.elim (·.2) (·.2)
    rw [hlas, NatSet.mem_single] at ha
    omega
  obtain ⟨⟨-, hleast⟩, horder⟩ := closure_of_any_order hg hk
  obtain ⟨hexists, hruns⟩ := horder [⟨1, 1⟩, ⟨2, 1⟩] (.refl _)
  refine ⟨g, hg, hk, hexists, fun n s hlooks => ?_, fun m hle hm => ?_⟩
  · have heq : s = (ofGrammar g).closure afterWord := (hruns n ([], s) hlooks).2 rfl
    rw [heq, hleft]
    decide
  · have hhas : HasLookahead ((ofGrammar g).closure afterWord).toMap ⟨4, 0⟩ 1 := by
      rw [ItemSet.hasLookahead_toMap_iff, hright]
      decide
    exact hhas.trans (hleast ⟨hle, hm⟩ ⟨4, 0⟩)

end Context

end LexParse.Lr
