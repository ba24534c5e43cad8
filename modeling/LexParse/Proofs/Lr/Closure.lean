import LexParse.Lr.Closure
import LexParse.Proofs.Grammar.Resolved
import LexParse.Proofs.Lr.ItemSet

/-!
# The closure is the least closed set

An item with a nonterminal behind its mark demands the productions of that nonterminal, with the
lookaheads that what follows the nonterminal allows. A set of items that meets all demands is
*closed*.

The closure is found by looking at items, and what is said of it here is said of any *run* that
looks at items one by one, whichever of those on the list comes next. The list always has all items
whose demands are not met.

## What is proved

* `Context.Looks.length_le`: a run is no longer than its list at the start and the facts that can be
  added, as every item that is put back has gained a fact, and there are only as many facts as
  productions times terminals and one.
* `Context.closed_closure`: the closure of a kernel is closed, since the list is empty in the end.
* `Context.closure_least`: whatever closed set holds the kernel holds its closure. Every later
  statement about what is *not* in a state comes from this one.
-/

namespace LexParse.Lr

namespace Context

variable {g : Grammar}

/-! ### Items of a grammar -/

theorem production_eq (i : Item) :
    (ofGrammar g).production i = (g.augmented[i.production]?).getD default := by
  simp [production, ofGrammar, Array.getD_eq_getD_getElem?]

/-- The symbols behind a mark are those of a right side. -/
theorem within_behind (hg : g.WellFormed) (i : Item) :
    ∀ s ∈ (ofGrammar g).behind i, s.Within g.nonterminals.size g.terminals.size := by
  intro s hs
  have hs := List.mem_of_mem_drop hs
  rw [production_eq] at hs
  cases h : g.augmented[i.production]? with
  | none =>
    rw [h] at hs
    exact absurd hs List.not_mem_nil
  | some p =>
    rw [h] at hs
    exact (hg.within_augmented p (List.mem_of_getElem? h)).right s hs

theorem behind_eq_of_next? {c : Context} {i : Item} {s : Symbol} (h : c.next? i = some s) :
    c.behind i = s :: c.behind i.advance := by
  have htail : c.behind i.advance = (c.behind i).tail := by
    simp [behind, production, Item.advance]
  rw [htail]
  exact List.eq_cons_of_mem_head? h

theorem next?_of_behind {c : Context} {i : Item} {s : Symbol} {rest : List Symbol}
    (h : c.behind i = s :: rest) : c.next? i = some s := by
  rw [next?, h]
  rfl

/-- What stands behind the mark once it has moved over some symbols. -/
theorem behind_add {c : Context} {i : Item} {u v : List Symbol} (h : c.behind i = u ++ v) :
    c.behind ⟨i.production, i.mark + u.length⟩ = v := by
  have hdrop : c.behind ⟨i.production, i.mark + u.length⟩ = (c.behind i).drop u.length := by
    simp [behind, production]
  rw [hdrop, h, List.drop_left]

/-- The productions of a nonterminal are those with it on their left side. -/
theorem mem_derivationsOf_iff (hg : g.WellFormed) {n p : Nat} :
    p ∈ (ofGrammar g).derivationsOf n ↔ ∃ q, g.augmented[p]? = some q ∧ q.left = n := by
  have hget : (ofGrammar g).derivationsOf n = if n < g.nonterminals.size then
      (List.range g.augmented.length).filter fun p =>
        (g.augmented.toArray.getD p default).left == n else [] := by
    simp only [derivationsOf, ofGrammar, Array.getD_eq_getD_getElem?, List.getElem?_toArray,
      List.getElem?_map, List.size_toArray]
    split
    · rename_i h
      rw [List.getElem?_range h]
      rfl
    · rename_i h
      rw [List.getElem?_eq_none (by simpa using h)]
      rfl
  rw [hget]
  constructor
  · intro h
    split at h
    · obtain ⟨hp, hn⟩ := List.mem_filter.1 h
      have hp : p < g.augmented.length := List.mem_range.1 hp
      refine ⟨g.augmented[p], List.getElem?_eq_getElem hp, ?_⟩
      simpa [Array.getD, hp] using hn
    · cases h
  · rintro ⟨q, hq, rfl⟩
    have hp := (List.getElem?_eq_some_iff.1 hq).1
    rw [if_pos (hg.within_augmented q (List.mem_of_getElem? hq)).left]
    refine List.mem_filter.2 ⟨List.mem_range.2 hp, ?_⟩
    have hq' : g.augmented[p] = q := (List.getElem?_eq_some_iff.1 hq).2
    simp [Array.getD, hp, hq']

/-- The lookaheads that an item passes on are the terminals that may follow the nonterminal behind
its mark. -/
theorem mem_passedOn_iff (hg : g.WellFormed) {s : ItemSet} {i : Item} {a : Nat} :
    a ∈ (ofGrammar g).passedOn s i ↔
      Ahead g.augmented ((ofGrammar g).behind i).tail (· ∈ s.lookaheads i) a := by
  have hb : ∀ b, b ∈ ((ofGrammar g).first.ofString ((ofGrammar g).behind i).tail).terminals ↔
      Begins g.augmented ((ofGrammar g).behind i).tail b := fun b =>
    FirstTable.mem_terminals_compute_iff hg.within_augmented
  have hv : ((ofGrammar g).first.ofString ((ofGrammar g).behind i).tail).nullable = true ↔
      Vanishes g.augmented ((ofGrammar g).behind i).tail :=
    FirstTable.nullable_compute_iff hg.within_augmented
  rw [passedOn, Ahead, ← hb, ← hv]
  split
  · rename_i h
    simp [h]
  · rename_i h
    simp [h]

theorem lt_of_mem_passedOn (hg : g.WellFormed) {s : ItemSet} {i : Item} {a : Nat}
    (hs : ∀ j b, b ∈ s.lookaheads j → b < g.terminals.size)
    (ha : a ∈ (ofGrammar g).passedOn s i) : a < g.terminals.size := by
  rcases (mem_passedOn_iff hg).1 ha with hb | ⟨-, hl⟩
  · have hmem := (FirstTable.mem_terminals_compute_iff hg.within_augmented).2 hb
    exact FirstTable.lt_of_mem_ofString (FirstTable.bounded_compute hg.within_augmented)
      (fun x hx => within_behind hg i x (List.mem_of_mem_tail hx)) hmem
  · exact hs i a hl

/-! ### Adding the starts of productions -/

section
variable {las : NatSet} {ps : List Nat} {p : Nat} {todo : List Item} {s : ItemSet} {j : Item}
  {a : Nat}

/-- What adding the starts of some productions does to a set and to the items to look at. -/
structure Started (las : NatSet) (ps : List Nat) (todo todo' : List Item) (s s' : ItemSet) :
    Prop where
  sorted : s'.Sorted
  core : ∀ j, j ∈ s'.core ↔ j ∈ s.core ∨ ∃ p ∈ ps, j = ⟨p, 0⟩
  lookaheads : ∀ j a, a ∈ s'.lookaheads j ↔ a ∈ s.lookaheads j ∨ (∃ p ∈ ps, j = ⟨p, 0⟩) ∧ a ∈ las
  todo_subset : ∀ j ∈ todo, j ∈ todo'
  /-- An item that is new or has gained a lookahead is to be looked at. -/
  changed : ∀ j ∈ s'.core, j ∈ todo' ∨ j ∈ s.core ∧ ∀ a, a ∈ s'.lookaheads j → a ∈ s.lookaheads j

theorem started_addStart (las : NatSet) (todo : List Item) (h : s.Sorted) (p : Nat) :
    Started las [p] todo (addStart las (todo, s) p).1 s (addStart las (todo, s) p).2 := by
  simp only [addStart]
  split
  · refine ⟨h.add _ _, fun j => ?_, fun j a => ?_, fun j hj => List.mem_cons_of_mem _ hj,
      fun j hj => ?_⟩
    · simp [or_comm]
    · simp [h.mem_lookaheads_add]
    · by_cases hjp : j = ⟨p, 0⟩
      · exact .inl (by simp [hjp])
      · refine .inr ⟨(ItemSet.mem_core_add.1 hj).resolve_left hjp, fun a ha => ?_⟩
        exact (h.mem_lookaheads_add.1 ha).resolve_right fun hjp' => hjp hjp'.1
  · -- nothing is added, as it is there already
    rename_i hgrow
    obtain ⟨hi, hl⟩ := ItemSet.grows_eq_false_iff.1 (Bool.eq_false_iff.2 hgrow)
    refine ⟨h, fun j => ⟨.inl, ?_⟩, fun j a => ⟨.inl, ?_⟩, fun j hj => hj,
      fun j hj => .inr ⟨hj, fun _ ha => ha⟩⟩
    · rintro (hj | ⟨q, hq, rfl⟩)
      · exact hj
      · exact List.mem_singleton.1 hq ▸ hi
    · rintro (ha | ⟨⟨q, hq, rfl⟩, ha⟩)
      · exact ha
      · exact List.mem_singleton.1 hq ▸ hl a ha

theorem Started.trans {ps' : List Nat} {todo' todo'' : List Item} {s' s'' : ItemSet}
    (h : Started las ps todo todo' s s') (h' : Started las ps' todo' todo'' s' s'') :
    Started las (ps ++ ps') todo todo'' s s'' := by
  have hor : ∀ j : Item, (∃ p ∈ ps ++ ps', j = ⟨p, 0⟩) ↔
      (∃ p ∈ ps, j = ⟨p, 0⟩) ∨ ∃ p ∈ ps', j = ⟨p, 0⟩ := by
    intro j
    simp only [List.mem_append, or_and_right, exists_or]
  refine ⟨h'.sorted, fun j => ?_, fun j a => ?_, fun j hj => h'.todo_subset j (h.todo_subset j hj),
    fun j hj => ?_⟩
  · rw [h'.core, h.core, hor, or_assoc]
  · rw [h'.lookaheads, h.lookaheads, hor, or_and_right, or_assoc]
  · rcases h'.changed j hj with hj | ⟨hj, hl⟩
    · exact .inl hj
    · rcases h.changed j hj with hj | ⟨hj, hl'⟩
      · exact .inl (h'.todo_subset j hj)
      · exact .inr ⟨hj, fun a ha => hl' a (hl a ha)⟩

theorem started_foldl (las : NatSet) (todo : List Item) (h : s.Sorted) (ps : List Nat) :
    Started las ps todo (ps.foldl (addStart las) (todo, s)).1 s
      (ps.foldl (addStart las) (todo, s)).2 := by
  induction ps generalizing todo s with
  | nil => exact ⟨h, by simp, by simp, by simp, fun j hj => .inr ⟨hj, fun _ ha => ha⟩⟩
  | cons p rest ih =>
    have hp := started_addStart las todo h p
    exact hp.trans (ih _ hp.sorted)

/-- Only starts are put on the list. -/
theorem foldl_addStart_subset (las : NatSet) (todo : List Item) (s : ItemSet) (ps : List Nat) :
    ∀ j ∈ (ps.foldl (addStart las) (todo, s)).1, j ∈ todo ∨ ∃ p ∈ ps, j = ⟨p, 0⟩ := by
  induction ps generalizing todo s with
  | nil => exact fun j hj => .inl hj
  | cons p rest ih =>
    intro j hj
    rw [List.foldl_cons, ← Prod.mk.eta (p := addStart las (todo, s) p)] at hj
    rcases ih _ _ j hj with hj | ⟨q, hq, rfl⟩
    · simp only [addStart] at hj
      split at hj
      · rcases List.mem_cons.1 hj with rfl | hj
        · exact .inr ⟨p, by simp, rfl⟩
        · exact .inl hj
      · exact .inl hj
    · exact .inr ⟨q, by simp [hq], rfl⟩

/-! ### Counting facts -/

/-- What a set says of the starts of productions: that one belongs to it, or has a lookahead. -/
def Fact (s : ItemSet) : Nat × Option Nat → Prop
  | (p, none) => ⟨p, 0⟩ ∈ s.core
  | (p, some a) => a ∈ s.lookaheads ⟨p, 0⟩

open Classical in
/-- How much a set says of the starts of the productions below `rows`. -/
noncomputable def factCount (rows columns : Nat) (s : ItemSet) : Nat :=
  ((factSpace rows columns).filter (Fact s)).card

theorem factCount_le (rows columns : Nat) (s : ItemSet) :
    factCount rows columns s ≤ rows * (columns + 1) := by
  classical
  calc factCount rows columns s
      ≤ (factSpace rows columns).card := Finset.card_filter_le _ _
    _ = rows * (columns + 1) := card_factSpace _ _

/-- Every start that is put on the list has added a fact. -/
theorem length_addStart_le {rows columns : Nat} (todo : List Item) (h : s.Sorted) (hp : p < rows)
    (hlas : ∀ a, a ∈ las → a < columns) :
    (addStart las (todo, s) p).1.length + factCount rows columns s ≤
      todo.length + factCount rows columns (addStart las (todo, s) p).2 := by
  classical
  simp only [addStart]
  split
  · rename_i hgrow
    have hlt : factCount rows columns s < factCount rows columns (s.add ⟨p, 0⟩ las) := by
      apply Finset.card_lt_card
      rw [Finset.ssubset_iff_of_subset]
      · -- the fact that is new
        by_cases hmem : ⟨p, 0⟩ ∈ s.core
        · have hnew : ∃ a, a ∈ las ∧ a ∉ s.lookaheads ⟨p, 0⟩ := by
            by_contra hno
            push Not at hno
            rw [ItemSet.grows_eq_false_iff.2 ⟨hmem, hno⟩] at hgrow
            cases hgrow
          obtain ⟨a, ha, hna⟩ := hnew
          refine ⟨(p, some a), Finset.mem_filter.2 ⟨?_, ?_⟩,
            fun hf => hna (Finset.mem_filter.1 hf).2⟩
          · simp [factSpace, hp, hlas a ha]
          · exact h.mem_lookaheads_add.2 (.inr ⟨rfl, ha⟩)
        · refine ⟨(p, none), Finset.mem_filter.2 ⟨?_, ?_⟩,
            fun hf => hmem (Finset.mem_filter.1 hf).2⟩
          · simp [factSpace, hp]
          · exact ItemSet.mem_core_add.2 (.inl rfl)
      · rintro ⟨q, what⟩ hf
        obtain ⟨hu, hf⟩ := Finset.mem_filter.1 hf
        refine Finset.mem_filter.2 ⟨hu, ?_⟩
        cases what with
        | none => exact ItemSet.mem_core_add.2 (.inr hf)
        | some a => exact h.mem_lookaheads_add.2 (.inl hf)
    simp only [List.length_cons]
    omega
  · exact Nat.le_refl _

theorem length_foldl_addStart_le {rows columns : Nat} (todo : List Item) (h : s.Sorted)
    (hps : ∀ p ∈ ps, p < rows) (hlas : ∀ a, a ∈ las → a < columns) :
    (ps.foldl (addStart las) (todo, s)).1.length + factCount rows columns s ≤
      todo.length + factCount rows columns (ps.foldl (addStart las) (todo, s)).2 := by
  induction ps generalizing todo s with
  | nil => exact Nat.le_refl _
  | cons p rest ih =>
    have hp := length_addStart_le todo h (hps p (by simp)) hlas
    have hrest := ih (addStart las (todo, s) p).1 (started_addStart las todo h p).sorted
      fun q hq => hps q (by simp [hq])
    rw [Prod.mk.eta] at hrest
    rw [List.foldl_cons]
    omega

end

/-! ### Looking at items -/

/-- The productions of the nonterminal behind the mark. -/
def demanded (c : Context) (i : Item) : List Nat :=
  match c.next? i with
  | some (.nonterminal n) => c.derivationsOf n
  | _ => []

/-- Look at an item: add the starts of the productions it demands. -/
def lookAt (c : Context) (i : Item) (st : List Item × ItemSet) : List Item × ItemSet :=
  (c.demanded i).foldl (addStart (c.passedOn st.2 i)) st

/-- Items are taken off a list and looked at, one in each step, whichever of them comes next. -/
inductive Looks (c : Context) : Nat → List Item × ItemSet → List Item × ItemSet → Prop where
  | refl (st : List Item × ItemSet) : Looks c 0 st st
  | step {n : Nat} {i : Item} {todo rest : List Item} {s : ItemSet} {st : List Item × ItemSet} :
    todo.Perm (i :: rest) → Looks c n (c.lookAt i (rest, s)) st → Looks c (n + 1) (todo, s) st

theorem mem_demanded_iff {c : Context} {i : Item} {p : Nat} :
    p ∈ c.demanded i ↔ ∃ n, c.next? i = some (.nonterminal n) ∧ p ∈ c.derivationsOf n := by
  unfold demanded
  split
  · rename_i n hn
    simp [hn]
  · rename_i hn
    simp only [List.not_mem_nil, false_iff, not_exists, not_and]
    exact fun n h => absurd h (hn n)

theorem closeFrom_cons (c : Context) (steps : Nat) (i : Item) (todo : List Item) (s : ItemSet) :
    c.closeFrom (steps + 1) (i :: todo) s =
      c.closeFrom steps (c.lookAt i (todo, s)).1 (c.lookAt i (todo, s)).2 := by
  rw [closeFrom, lookAt, demanded]
  rcases c.next? i with _ | _ | _ <;> rfl

/-- Looking at the first item in each step is a run. It stops when no item is left, or when there
are no more steps. -/
theorem looks_closeFrom (c : Context) (steps : Nat) (todo : List Item) (s : ItemSet) :
    ∃ n rest, c.Looks n (todo, s) (rest, c.closeFrom steps todo s) ∧ (rest = [] ∨ n = steps) := by
  induction steps generalizing todo s with
  | zero => exact ⟨0, todo, .refl _, .inr rfl⟩
  | succ steps ih =>
    cases todo with
    | nil => exact ⟨0, [], .refl _, .inl rfl⟩
    | cons i todo =>
      rw [closeFrom_cons]
      obtain ⟨n, rest, hlooks, hstop⟩ := ih (c.lookAt i (todo, s)).1 (c.lookAt i (todo, s)).2
      exact ⟨n + 1, rest, .step (.refl _) hlooks, hstop.imp_right (congrArg (· + 1))⟩

section
variable {M : Item → Prop} {F : Item → Nat → Prop} {i : Item} {todo rest : List Item}
  {s s' : ItemSet} {n : Nat} {st st' : List Item × ItemSet}

/-- Items and lookaheads that meet all demands. -/
structure Closed (g : Grammar) (M : Item → Prop) (F : Item → Nat → Prop) : Prop where
  item : ∀ {i n p}, M i → (ofGrammar g).next? i = some (.nonterminal n) →
    p ∈ (ofGrammar g).derivationsOf n → M ⟨p, 0⟩
  lookahead : ∀ {i n p a}, M i → (ofGrammar g).next? i = some (.nonterminal n) →
    p ∈ (ofGrammar g).derivationsOf n →
    Ahead g.augmented ((ofGrammar g).behind i).tail (F i) a → F ⟨p, 0⟩ a

/-- The demands of an item are met by the set. -/
def Met (g : Grammar) (s : ItemSet) (i : Item) : Prop :=
  ∀ p ∈ (ofGrammar g).demanded i, ⟨p, 0⟩ ∈ s.core ∧
    ∀ a, Ahead g.augmented ((ofGrammar g).behind i).tail (· ∈ s.lookaheads i) a →
      a ∈ s.lookaheads ⟨p, 0⟩

/-- What looking at items keeps: each item of the set has been looked at, or is on the list. -/
structure Working (g : Grammar) (todo : List Item) (s : ItemSet) : Prop where
  sorted : s.Sorted
  bounded : ∀ j a, a ∈ s.lookaheads j → a < g.terminals.size
  met : ∀ j ∈ s.core, j ∈ todo ∨ Met g s j

theorem lt_of_mem_demanded (hg : g.WellFormed) {p : Nat} (h : p ∈ (ofGrammar g).demanded i) :
    p < g.augmented.length := by
  obtain ⟨n, -, hp⟩ := mem_demanded_iff.1 h
  obtain ⟨q, hq, -⟩ := (mem_derivationsOf_iff hg).1 hp
  exact (List.getElem?_eq_some_iff.1 hq).1

theorem started_lookAt (h : s.Sorted) (i : Item) (rest : List Item) :
    Started ((ofGrammar g).passedOn s i) ((ofGrammar g).demanded i) rest
      ((ofGrammar g).lookAt i (rest, s)).1 s ((ofGrammar g).lookAt i (rest, s)).2 :=
  started_foldl ((ofGrammar g).passedOn s i) rest h ((ofGrammar g).demanded i)

/-- **Looking at an item meets its demands**, and puts back the items whose demands have changed. -/
theorem Working.lookAt (hg : g.WellFormed) (h : Working g todo s)
    (htodo : todo.Perm (i :: rest)) : Working g ((ofGrammar g).lookAt i (rest, s)).1
      ((ofGrammar g).lookAt i (rest, s)).2 := by
  have hst := started_lookAt (g := g) h.sorted i rest
  refine ⟨hst.sorted, fun j a ha => ?_, fun j hj => ?_⟩
  · rcases (hst.lookaheads j a).1 ha with ha | ⟨-, ha⟩
    · exact h.bounded j a ha
    · exact lt_of_mem_passedOn hg h.bounded ha
  · rcases hst.changed j hj with hj | ⟨hj, hsame⟩
    · exact .inl hj
    · -- the item has not changed, so it demands what it did before
      by_cases hji : j = i
      · subst hji
        refine .inr fun p hp => ⟨(hst.core _).2 (.inr ⟨p, hp, rfl⟩), fun a ha => ?_⟩
        refine (hst.lookaheads _ a).2 (.inr ⟨⟨p, hp, rfl⟩, ?_⟩)
        exact (mem_passedOn_iff hg).2 (ha.mono hsame)
      · rcases h.met j hj with hj' | hmet
        · exact .inl (hst.todo_subset j ((List.mem_cons.1 (htodo.mem_iff.1 hj')).resolve_left hji))
        · refine .inr fun p hp => ⟨(hst.core _).2 (.inl (hmet p hp).1), fun a ha => ?_⟩
          exact (hst.lookaheads _ a).2 (.inl ((hmet p hp).2 a (ha.mono hsame)))

/-- Every item that is put back has gained a fact. -/
theorem Working.length_lookAt_le (hg : g.WellFormed) (h : Working g todo s) (i : Item)
    (rest : List Item) :
    ((ofGrammar g).lookAt i (rest, s)).1.length +
        factCount g.augmented.length g.terminals.size s ≤
      rest.length + factCount g.augmented.length g.terminals.size
        ((ofGrammar g).lookAt i (rest, s)).2 :=
  length_foldl_addStart_le rest h.sorted
    (fun _ (hp : _ ∈ (ofGrammar g).demanded i) => lt_of_mem_demanded hg hp)
    fun _ (ha : _ ∈ (ofGrammar g).passedOn s i) => lt_of_mem_passedOn hg h.bounded ha

theorem Working.looks (hg : g.WellFormed) (hlooks : (ofGrammar g).Looks n st st')
    (h : Working g st.1 st.2) : Working g st'.1 st'.2 := by
  induction hlooks with
  | refl => exact h
  | step htodo _ ih => exact ih (h.lookAt hg htodo)

namespace Looks

/-- **A run ends**: every step but those for the items on the list at the start adds a fact. -/
theorem length_le (hg : g.WellFormed) (hlooks : (ofGrammar g).Looks n st st')
    (h : Working g st.1 st.2) :
    n + st'.1.length + factCount g.augmented.length g.terminals.size st.2 ≤
      st.1.length + factCount g.augmented.length g.terminals.size st'.2 := by
  induction hlooks with
  | refl => omega
  | @step n i todo rest s st htodo _ ih =>
    have hstep := h.length_lookAt_le hg i rest
    have hrest := ih (h.lookAt hg htodo)
    have hlength : todo.length = rest.length + 1 := htodo.length_eq
    simp only at hstep hrest ⊢
    omega

/-- A run only adds to the set. -/
theorem mono (hlooks : (ofGrammar g).Looks n st st') (h : st.2.Sorted) :
    (∀ j ∈ st.2.core, j ∈ st'.2.core) ∧ ∀ j a, a ∈ st.2.lookaheads j → a ∈ st'.2.lookaheads j := by
  induction hlooks with
  | refl => exact ⟨fun _ hj => hj, fun _ _ ha => ha⟩
  | @step n i todo rest s st _ _ ih =>
    have hst := started_lookAt (g := g) h i rest
    obtain ⟨hcore, hlas⟩ := ih hst.sorted
    exact ⟨fun j hj => hcore j ((hst.core j).2 (.inl hj)),
      fun j a ha => hlas j a ((hst.lookaheads j a).2 (.inl ha))⟩

/-- A run adds nothing that a closed set does not hold. -/
theorem least (hg : g.WellFormed) (hc : Closed g M F) (hlooks : (ofGrammar g).Looks n st st')
    (h : st.2.Sorted) (htodo : ∀ j ∈ st.1, M j) (hM : ∀ j ∈ st.2.core, M j)
    (hF : ∀ j a, a ∈ st.2.lookaheads j → F j a) :
    (∀ j ∈ st'.2.core, M j) ∧ ∀ j a, a ∈ st'.2.lookaheads j → F j a := by
  induction hlooks with
  | refl => exact ⟨hM, hF⟩
  | @step n i todo rest s st hperm _ ih =>
    have hst := started_lookAt (g := g) h i rest
    have hi : M i := htodo i (hperm.mem_iff.2 (List.mem_cons_self ..))
    have hstart : ∀ p ∈ (ofGrammar g).demanded i, M ⟨p, 0⟩ := by
      intro p hp
      obtain ⟨n, hn, hp⟩ := mem_demanded_iff.1 hp
      exact hc.item hi hn hp
    refine ih hst.sorted (fun j hj => ?_) (fun j hj => ?_) fun j a ha => ?_
    · rcases foldl_addStart_subset _ rest s _ j hj with hj | ⟨p, hp, rfl⟩
      · exact htodo j (hperm.mem_iff.2 (List.mem_cons_of_mem _ hj))
      · exact hstart p hp
    · rcases (hst.core j).1 hj with hj | ⟨p, hp, rfl⟩
      · exact hM j hj
      · exact hstart p hp
    · rcases (hst.lookaheads j a).1 ha with hold | ⟨⟨p, hp, rfl⟩, hnew⟩
      · exact hF j a hold
      · obtain ⟨n, hn, hp⟩ := mem_demanded_iff.1 hp
        exact hc.lookahead hi hn hp (((mem_passedOn_iff hg).1 hnew).mono (hF i))

end Looks

end

/-! ### The closure of a kernel -/

section
variable {kernel : ItemSet}

/-- What the construction of the closure relies on. -/
structure Proper (g : Grammar) (s : ItemSet) : Prop where
  sorted : s.Sorted
  bounded : ∀ j a, a ∈ s.lookaheads j → a < g.terminals.size

/-- Before any item has been looked at, all items of the kernel are on the list. -/
theorem Proper.working (hk : Proper g kernel) {todo : List Item} (htodo : todo.Perm kernel.core) :
    Working g todo kernel :=
  ⟨hk.sorted, hk.bounded, fun _ hj => .inl (htodo.mem_iff.2 hj)⟩

/-- A run from a kernel has no more steps than the kernel has items, and facts can be added. -/
theorem Looks.length_le_of_proper (hg : g.WellFormed) (hk : Proper g kernel) {n : Nat}
    {todo : List Item} {st : List Item × ItemSet} (htodo : todo.Perm kernel.core)
    (hlooks : (ofGrammar g).Looks n (todo, kernel) st) :
    n ≤ kernel.length + g.augmented.length * (g.terminals.size + 1) := by
  have hlength : todo.length = kernel.length := htodo.length_eq.trans (List.length_map _)
  have hle := hlooks.length_le hg (hk.working htodo)
  have hcount := factCount_le g.augmented.length g.terminals.size st.2
  simp only [hlength] at hle
  omega

/-- The closure comes of a run that stops when no item is left, or when its steps are used up. -/
theorem looks_closure (c : Context) (kernel : ItemSet) :
    ∃ n rest, c.Looks n (kernel.core.reverse, kernel) (rest, c.closure kernel) ∧
      (rest = [] ∨ n = kernel.length + c.productions.size * (c.terminalCount + 1) + 1) :=
  looks_closeFrom c _ kernel.core.reverse kernel

/-- **The steps that the closure is given are enough**, in whatever order the items of the kernel
are on the list: no item is left over. -/
theorem exists_looks_nil (hg : g.WellFormed) (hk : Proper g kernel) {todo : List Item}
    (htodo : todo.Perm kernel.core) :
    ∃ n, (ofGrammar g).Looks n (todo, kernel) ([], (ofGrammar g).closeFrom (kernel.length +
      (ofGrammar g).productions.size * ((ofGrammar g).terminalCount + 1) + 1) todo kernel) := by
  obtain ⟨n, rest, hlooks, rfl | hn⟩ := looks_closeFrom (ofGrammar g) (kernel.length +
    (ofGrammar g).productions.size * ((ofGrammar g).terminalCount + 1) + 1) todo kernel
  · exact ⟨n, hlooks⟩
  · have hle := hlooks.length_le_of_proper hg hk htodo
    have hsize : (ofGrammar g).productions.size = g.augmented.length := by simp [ofGrammar]
    have hcount : (ofGrammar g).terminalCount = g.terminals.size := rfl
    rw [hsize, hcount] at hn
    omega

theorem working_closure (hg : g.WellFormed) (hk : Proper g kernel) :
    Working g [] ((ofGrammar g).closure kernel) := by
  obtain ⟨n, hlooks⟩ := exists_looks_nil hg hk (List.reverse_perm _)
  exact (hk.working (List.reverse_perm _)).looks hg hlooks

theorem proper_closure (hg : g.WellFormed) (hk : Proper g kernel) :
    Proper g ((ofGrammar g).closure kernel) :=
  ⟨(working_closure hg hk).sorted, (working_closure hg hk).bounded⟩

theorem mem_core_closure_of_mem (hk : Proper g kernel) {i : Item} (h : i ∈ kernel.core) :
    i ∈ ((ofGrammar g).closure kernel).core := by
  obtain ⟨n, rest, hlooks, -⟩ := looks_closure (ofGrammar g) kernel
  exact (hlooks.mono hk.sorted).1 i h

theorem mem_lookaheads_closure_of_mem (hk : Proper g kernel) {i : Item} {a : Nat}
    (h : a ∈ kernel.lookaheads i) : a ∈ ((ofGrammar g).closure kernel).lookaheads i := by
  obtain ⟨n, rest, hlooks, -⟩ := looks_closure (ofGrammar g) kernel
  exact (hlooks.mono hk.sorted).2 i a h

/-- When no item is left on the list, all demands are met. -/
theorem Working.closed {s : ItemSet} (h : Working g [] s) :
    Closed g (· ∈ s.core) fun i a => a ∈ s.lookaheads i := by
  have hmet : ∀ i ∈ s.core, Met g s i := fun i hi => (h.met i hi).resolve_left List.not_mem_nil
  exact ⟨fun hi hn hp => (hmet _ hi _ (mem_demanded_iff.2 ⟨_, hn, hp⟩)).1,
    fun hi hn hp => (hmet _ hi _ (mem_demanded_iff.2 ⟨_, hn, hp⟩)).2 _⟩

/-- **The closure is closed.** -/
theorem closed_closure (hg : g.WellFormed) (hk : Proper g kernel) :
    Closed g (· ∈ ((ofGrammar g).closure kernel).core)
      fun i a => a ∈ ((ofGrammar g).closure kernel).lookaheads i :=
  (working_closure hg hk).closed

/-- **The closure is the least closed set** that holds the kernel. -/
theorem closure_least (hg : g.WellFormed) (hk : Proper g kernel) {M : Item → Prop}
    {F : Item → Nat → Prop} (hc : Closed g M F) (hM : ∀ i ∈ kernel.core, M i)
    (hF : ∀ i a, a ∈ kernel.lookaheads i → F i a) :
    (∀ i ∈ ((ofGrammar g).closure kernel).core, M i) ∧
      ∀ i a, a ∈ ((ofGrammar g).closure kernel).lookaheads i → F i a := by
  obtain ⟨n, rest, hlooks, -⟩ := looks_closure (ofGrammar g) kernel
  exact hlooks.least hg hc hk.sorted (fun j hj => hM j (List.mem_reverse.1 hj)) hM hF

/-- An item of the closure is one of the kernel, or starts a production of a nonterminal that stands
behind the mark of an item of the closure. -/
theorem mem_core_closure (hg : g.WellFormed) (hk : Proper g kernel) {i : Item}
    (h : i ∈ ((ofGrammar g).closure kernel).core) : i ∈ kernel.core ∨
      i.mark = 0 ∧ ∃ j n, j ∈ ((ofGrammar g).closure kernel).core ∧
        (ofGrammar g).next? j = some (.nonterminal n) ∧
        i.production ∈ (ofGrammar g).derivationsOf n := by
  let M (i : Item) : Prop := i ∈ ((ofGrammar g).closure kernel).core ∧ (i ∈ kernel.core ∨
    i.mark = 0 ∧ ∃ j n, j ∈ ((ofGrammar g).closure kernel).core ∧
      (ofGrammar g).next? j = some (.nonterminal n) ∧ i.production ∈ (ofGrammar g).derivationsOf n)
  have hc : Closed g M fun _ _ => True := by
    refine ⟨fun {i n p} hi hn hp => ⟨?_, ?_⟩, fun _ _ _ _ => trivial⟩
    · exact (closed_closure hg hk).item hi.1 hn hp
    · exact .inr ⟨rfl, i, n, hi.1, hn, hp⟩
  have hleast := closure_least hg hk hc (fun i hi => ⟨mem_core_closure_of_mem hk hi, .inl hi⟩)
    fun _ _ _ => trivial
  exact (hleast.1 i h).2

/-- A lookahead in the closure is one of the kernel, or what an item of the closure passes on to the
productions of the nonterminal behind its mark. -/
theorem mem_lookaheads_closure (hg : g.WellFormed) (hk : Proper g kernel) {i : Item} {a : Nat}
    (h : a ∈ ((ofGrammar g).closure kernel).lookaheads i) : a ∈ kernel.lookaheads i ∨
      i.mark = 0 ∧ ∃ j n, j ∈ ((ofGrammar g).closure kernel).core ∧
        (ofGrammar g).next? j = some (.nonterminal n) ∧
        i.production ∈ (ofGrammar g).derivationsOf n ∧
        Ahead g.augmented ((ofGrammar g).behind j).tail
          (· ∈ ((ofGrammar g).closure kernel).lookaheads j) a := by
  let s := (ofGrammar g).closure kernel
  let F (i : Item) (a : Nat) : Prop := a ∈ s.lookaheads i ∧ (a ∈ kernel.lookaheads i ∨
    i.mark = 0 ∧ ∃ j n, j ∈ s.core ∧ (ofGrammar g).next? j = some (.nonterminal n) ∧
      i.production ∈ (ofGrammar g).derivationsOf n ∧
      Ahead g.augmented ((ofGrammar g).behind j).tail (· ∈ s.lookaheads j) a)
  have hclosed := closed_closure hg hk
  have hc : Closed g (· ∈ s.core) F := by
    refine ⟨hclosed.item, fun {i n p a} hi hn hp ha => ?_⟩
    have ha := ha.mono fun b (hb : F i b) => hb.1
    exact ⟨hclosed.lookahead hi hn hp ha, .inr ⟨rfl, i, n, hi, hn, hp, ha⟩⟩
  have hleast := closure_least hg hk hc (fun i hi => mem_core_closure_of_mem hk hi)
    fun i a ha => ⟨mem_lookaheads_closure_of_mem hk ha, .inl ha⟩
  exact (hleast.2 i a h).2

end

end Context

end LexParse.Lr
