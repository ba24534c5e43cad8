import LexParse.Automaton.Subset
import LexParse.Proofs.Automaton.Machine
import LexParse.Proofs.Automaton.Nfa
import Mathlib.Data.List.Forall2
import Mathlib.Logic.Relation

/-!
# What the subset machine follows

After reading a word the subset machine is in the set of all states that the automaton may have come
to on that word. The set of what can be reached without reading is computed with as many steps as
there are edges (`mem_reach_iff`), and what the members of a set lead to is put together from a
table that was filled edge by edge (`mem_cell_readers`).

The machine reads classes where the automaton reads symbols. All that is asked of the classes is
that the class of a symbol belongs to a set of an edge just when the symbol does.

## What is proved

* `Nfa.mem_closure_iff`: the closure of a state is what can be reached from it without reading.
* `Nfa.mem_next_iff`: what the machine's successors are made of.
* `Nfa.mem_run_iff`: the states after a word.
* `Nfa.rule_run_eq_some_iff`: the rule that the machine matches is the first one that has the word.
-/

namespace LexParse.Automaton

open Relation

/-! ### Reaching states without reading -/

theorem getElem?_foldl_modify (edges : List (Nat × Nat)) (table : Array (List Nat)) (s : Nat) :
    (edges.foldl (fun table e => table.modify e.1 (e.2 :: ·)) table)[s]? =
      table[s]?.map (((edges.filter (·.1 = s)).map (·.2)).reverse ++ ·) := by
  induction edges generalizing table with
  | nil => simp
  | cons e rest ih =>
    rw [List.foldl_cons, ih, Array.getElem?_modify]
    by_cases he : e.1 = s
    · simp [he, Function.comp_def]
    · simp [he]

/-- The targets of a state's edges. -/
theorem getD_adjacency (size : Nat) (edges : List (Nat × Nat)) (s : Nat) :
    (adjacency size edges).getD s [] =
      if s < size then ((edges.filter (·.1 = s)).map (·.2)).reverse else [] := by
  rw [Array.getD_eq_getD_getElem?, adjacency, getElem?_foldl_modify, Array.getElem?_replicate]
  split <;> simp

theorem mem_adjacency_iff {size s t : Nat} {edges : List (Nat × Nat)} :
    t ∈ (adjacency size edges).getD s [] ↔ s < size ∧ (s, t) ∈ edges := by
  rw [getD_adjacency]
  by_cases hs : s < size
  · simp [hs]
  · simp [hs]

theorem length_adjacency_le {size s : Nat} {edges : List (Nat × Nat)} :
    ((adjacency size edges).getD s []).length ≤ edges.countP (·.1 = s) := by
  rw [getD_adjacency]
  split
  · simp [List.countP_eq_length_filter]
  · simp

/-- The edges that leave the states not seen: fewer by those of a state that is seen next. -/
theorem countP_insert {seen : NatSet} {s : Nat} (hs : s ∉ seen) (edges : List (Nat × Nat)) :
    edges.countP (fun e => e.1 ∉ seen.insert s) + edges.countP (·.1 = s) =
      edges.countP fun e => e.1 ∉ seen := by
  induction edges with
  | nil => rfl
  | cons e rest ih =>
    rw [List.countP_cons, List.countP_cons, List.countP_cons, ← ih]
    by_cases he : e.1 = s
    · simp [he, hs]
      omega
    · by_cases hm : e.1 ∈ seen
      · simp [he, hm]
      · simp [he, hm]
        omega

/-- **Following edges finds all that can be reached**, in no more steps than there are edges that
leave the states not seen, and states to look at. -/
theorem mem_reach_iff {size steps : Nat} {edges : List (Nat × Nat)} {todo : List Nat}
    {seen : NatSet} {x : Nat}
    (hsteps : todo.length + edges.countP (fun e => e.1 ∉ seen) ≤ steps)
    (hseen : ∀ s ∈ seen, ∀ t ∈ (adjacency size edges).getD s [], t ∈ seen ∨ t ∈ todo) :
    x ∈ reach (adjacency size edges) steps todo seen ↔ ∃ s, (s ∈ seen ∨ s ∈ todo) ∧
      ReflTransGen (fun s t => t ∈ (adjacency size edges).getD s []) s x := by
  -- with nothing left to look at the states seen are closed
  have hdone : ∀ {seen : NatSet},
      (∀ s ∈ seen, ∀ t ∈ (adjacency size edges).getD s [], t ∈ seen ∨ t ∈ ([] : List Nat)) →
      (x ∈ seen ↔ ∃ s, (s ∈ seen ∨ s ∈ ([] : List Nat)) ∧
        ReflTransGen (fun s t => t ∈ (adjacency size edges).getD s []) s x) := by
    intro seen hseen
    refine ⟨fun hx => ⟨x, .inl hx, .refl⟩, ?_⟩
    rintro ⟨s, hs | hs, hrun⟩
    · induction hrun with
      | refl => exact hs
      | tail _ hstep ih => exact (hseen _ ih _ hstep).resolve_right List.not_mem_nil
    · cases hs
  fun_induction reach (adjacency size edges) steps todo seen with
  | case1 todo seen =>
    obtain rfl : todo = [] := List.eq_nil_of_length_eq_zero (by omega)
    exact hdone hseen
  | case2 steps seen => exact hdone hseen
  | case3 steps s todo seen hs ih =>
    refine (ih ?_ fun u hu t ht => ?_).trans (exists_congr fun u => and_congr_left fun _ => ?_)
    · simp only [List.length_cons] at hsteps
      omega
    · rcases hseen u hu t ht with ht | ht
      · exact .inl ht
      · rcases List.mem_cons.1 ht with rfl | ht
        · exact .inl hs
        · exact .inr ht
    · rw [List.mem_cons]
      exact ⟨fun h => h.imp_right .inr, fun h => h.elim .inl fun h => h.elim (· ▸ .inl hs) .inr⟩
  | case4 steps s todo seen hs ih =>
    refine (ih ?_ fun u hu t ht => ?_).trans ⟨?_, ?_⟩
    · have hlen : ((adjacency size edges).getD s []).length ≤ _ := length_adjacency_le
      have hcount := countP_insert hs edges
      simp only [List.length_append, List.length_cons] at hsteps ⊢
      omega
    · rw [NatSet.mem_insert, List.mem_append]
      rcases NatSet.mem_insert.1 hu with hu | rfl
      · rcases hseen u hu t ht with ht | ht
        · exact .inl (.inl ht)
        · exact (List.mem_cons.1 ht).elim (fun h => .inl (.inr h)) fun h => .inr (.inr h)
      · exact .inr (.inl ht)
    · rintro ⟨u, hu, hrun⟩
      rw [NatSet.mem_insert, List.mem_append] at hu
      rcases hu with (hu | rfl) | hu | hu
      · exact ⟨u, .inl hu, hrun⟩
      · exact ⟨u, .inr (List.mem_cons_self ..), hrun⟩
      · exact ⟨s, .inr (List.mem_cons_self ..), .head hu hrun⟩
      · exact ⟨u, .inr (List.mem_cons_of_mem _ hu), hrun⟩
    · rintro ⟨u, hu, hrun⟩
      refine ⟨u, ?_, hrun⟩
      rw [NatSet.mem_insert, List.mem_append]
      rcases hu with hu | hu
      · exact .inl (.inl hu)
      · exact (List.mem_cons.1 hu).elim (fun h => .inl (.inr h)) fun h => .inr (.inr h)

namespace Nfa

variable {nfa : Nfa} {s t i : Nat} {w : List Int} {c : Int}

/-- The edges stay among the states. -/
structure Bounded (nfa : Nfa) : Prop where
  pos : 0 < nfa.size
  step : ∀ {s u t}, nfa.Step s u t → s < nfa.size ∧ t < nfa.size
  target : ∀ e ∈ nfa.moves, e.2.2 < nfa.size

/-- The edges that read nothing, by state. -/
def edges (nfa : Nfa) : Array (List Nat) := adjacency nfa.size nfa.silent

/-- **The closure of a state is what can be reached from it without reading.** -/
theorem mem_closure_iff (hb : nfa.Bounded) :
    t ∈ nfa.closure nfa.edges s ↔ Reaches nfa.Step s [] t := by
  have hreach : t ∈ nfa.closure nfa.edges s ↔ ∃ u, (u ∈ (∅ : NatSet) ∨ u ∈ [s]) ∧
      ReflTransGen (fun s t => t ∈ (adjacency nfa.size nfa.silent).getD s []) u t := by
    refine mem_reach_iff ?_ fun s hs => absurd hs (NatSet.not_mem_empty s)
    have := List.countP_le_length (p := fun e : Nat × Nat => decide (e.1 ∉ (∅ : NatSet)))
      (l := nfa.silent)
    simp only [List.length_singleton]
    omega
  rw [hreach]
  clear hreach
  constructor
  · rintro ⟨u, hu | hu, hrun⟩
    · exact absurd hu (NatSet.not_mem_empty u)
    · rw [List.mem_singleton.1 hu] at hrun
      induction hrun with
      | refl => exact .refl
      | tail _ hstep ih => exact ih.tail (.silent (mem_adjacency_iff.1 hstep).2)
  · rintro ⟨k, hpath⟩
    refine ⟨s, .inr (List.mem_singleton.2 rfl), ?_⟩
    generalize hw : ([] : List Int) = w at hpath
    induction hpath with
    | nil => exact .refl
    | cons hstep _ ih =>
      obtain ⟨rfl, rfl⟩ := List.append_eq_nil_iff.1 hw.symm
      cases hstep with
      | silent h => exact .head (mem_adjacency_iff.2 ⟨(hb.step (.silent h)).1, h⟩) (ih rfl)

/-! ### The table of what is read -/

/-- The set in a cell of a table. -/
def cell (table : Array (Array NatSet)) (cls s : Nat) : NatSet := (table.getD cls #[]).getD s ∅

/-- The table has a number of rows of a number of cells. -/
def HasShape (rows columns : Nat) (table : Array (Array NatSet)) : Prop :=
  table.size = rows ∧ ∀ cls < rows, (table.getD cls #[]).size = columns

section
variable {rows columns cls x y : Nat} {table : Array (Array NatSet)} {targets : NatSet}

theorem HasShape.modify (h : HasShape rows columns table) (cls x : Nat) (targets : NatSet) :
    HasShape rows columns (table.modify cls (·.modify x (· ∪ targets))) := by
  refine ⟨by simpa using h.1, fun other hother => ?_⟩
  have hrow := h.2 other hother
  have hlt : other < table.size := h.1 ▸ hother
  rw [Array.getD_eq_getD_getElem?, Array.getElem?_modify]
  rw [Array.getD_eq_getD_getElem?] at hrow
  split <;> simpa [hlt] using hrow

theorem mem_cell_modify (h : HasShape rows columns table) (hcls : cls < rows) (hx : x < columns)
    (other : Nat) : t ∈ cell (table.modify other (·.modify y (· ∪ targets))) cls x ↔
      t ∈ cell table cls x ∨ other = cls ∧ y = x ∧ t ∈ targets := by
  have hlt : cls < table.size := h.1 ▸ hcls
  have hrow := h.2 cls hcls
  rw [Array.getD_eq_getD_getElem?, Array.getElem?_eq_getElem hlt, Option.getD_some] at hrow
  by_cases hother : other = cls
  · by_cases hy : y = x
    · simp [cell, Array.getElem_modify, hlt, hother, hy, hrow, hx]
    · simp [cell, Array.getElem_modify, Array.getElem?_modify, hlt, hother, hy]
  · simp [cell, Array.getElem_modify, hlt, hother]

/-- Adding targets in some classes of a state. -/
theorem mem_cell_foldl_modify (l : List Nat) (h : HasShape rows columns table) :
    HasShape rows columns (l.foldl (fun table cls => table.modify cls (·.modify y (· ∪ targets)))
      table) ∧ ∀ cls < rows, ∀ x < columns, ∀ t, t ∈ cell
        (l.foldl (fun table cls => table.modify cls (·.modify y (· ∪ targets))) table) cls x ↔
          t ∈ cell table cls x ∨ cls ∈ l ∧ y = x ∧ t ∈ targets := by
  induction l generalizing table with
  | nil => exact ⟨h, by simp⟩
  | cons other rest ih =>
    obtain ⟨hshape, hmem⟩ := ih (h.modify other y targets)
    refine ⟨hshape, fun cls hcls x hx t => ?_⟩
    rw [List.foldl_cons, hmem cls hcls x hx, mem_cell_modify h hcls hx, List.mem_cons]
    constructor
    · rintro ((ht | ⟨rfl, hy, ht⟩) | ⟨hcls, hy, ht⟩)
      · exact .inl ht
      · exact .inr ⟨.inl rfl, hy, ht⟩
      · exact .inr ⟨.inr hcls, hy, ht⟩
    · rintro (ht | ⟨rfl | hcls, hy, ht⟩)
      · exact .inl (.inl ht)
      · exact .inl (.inr ⟨rfl, hy, ht⟩)
      · exact .inr ⟨hcls, hy, ht⟩

end

/-- A cell holds what the edges of its state lead to on reading its class. -/
theorem mem_cell_readers {edges : Array (List Nat)} {k : SymbolClasses} {cls : Nat}
    (hcls : cls < k.count) (hs : s < nfa.size) : t ∈ cell (nfa.readers edges k) cls s ↔
      ∃ set u, (s, set, u) ∈ nfa.moves ∧ cls ∈ k.classesOf set ∧ t ∈ nfa.closure edges u := by
  have hfold : ∀ (moves : List (Nat × CharSet × Nat)) (table : Array (Array NatSet)),
      HasShape k.count nfa.size table →
      (t ∈ cell (moves.foldl (fun table e => (k.classesOf e.2.1).foldl (fun table cls =>
          table.modify cls (·.modify e.1 (· ∪ nfa.closure edges e.2.2))) table) table) cls s ↔
        t ∈ cell table cls s ∨ ∃ set u, (s, set, u) ∈ moves ∧ cls ∈ k.classesOf set ∧
          t ∈ nfa.closure edges u) := by
    intro moves
    induction moves with
    | nil => simp
    | cons e rest ih =>
      intro table htable
      obtain ⟨hshape, hmem⟩ := mem_cell_foldl_modify (k.classesOf e.2.1) htable
      rw [List.foldl_cons, ih _ hshape, hmem cls hcls s hs, or_assoc]
      obtain ⟨y, set, u⟩ := e
      refine or_congr_right ⟨?_, ?_⟩
      · rintro (⟨hc, rfl, ht⟩ | ⟨set', u', hm, hc, ht⟩)
        · exact ⟨set, u, List.mem_cons_self .., hc, ht⟩
        · exact ⟨set', u', List.mem_cons_of_mem _ hm, hc, ht⟩
      · rintro ⟨set', u', hm, hc, ht⟩
        rcases List.mem_cons.1 hm with heq | hm
        · cases heq
          exact .inl ⟨hc, rfl, ht⟩
        · exact .inr ⟨set', u', hm, hc, ht⟩
  have hempty : HasShape k.count nfa.size
      (Array.replicate k.count (Array.replicate nfa.size ∅)) := by
    refine ⟨by simp, fun cls hcls => ?_⟩
    simp [hcls]
  refine (hfold nfa.moves _ hempty).trans (or_iff_right ?_)
  simp [cell, hcls, hs]

theorem mem_advance_iff {readers : Array NatSet} {S : NatSet} :
    t ∈ advance readers S ↔ ∃ s ∈ S, t ∈ readers.getD s ∅ := by
  have hfold : ∀ (l : List Nat) (acc : NatSet),
      t ∈ l.foldl (fun acc i => acc ∪ readers.getD i ∅) acc ↔
        t ∈ acc ∨ ∃ s ∈ l, t ∈ readers.getD s ∅ := by
    intro l
    induction l with
    | nil => simp
    | cons s rest ih =>
      intro acc
      rw [List.foldl_cons, ih, NatSet.mem_union, or_assoc]
      simp only [List.mem_cons, exists_eq_or_imp]
  refine (hfold S.toList ∅).trans ((or_iff_right (NatSet.not_mem_empty t)).trans ?_)
  simp only [NatSet.mem_toList]

/-! ### The machine -/

/-- The symbols of a class are those of the sets that the class belongs to. -/
def Reads (nfa : Nfa) (k : SymbolClasses) (c : Int) (cls : Nat) : Prop :=
  cls < k.count ∧ ∀ {s set t}, (s, set, t) ∈ nfa.moves → (cls ∈ k.classesOf set ↔ c ∈ set)

/-- **A successor holds what its members' edges lead to.** -/
theorem mem_next_iff (hb : nfa.Bounded) {k : SymbolClasses} {cls : Nat} (hcls : cls < k.count)
    {S : NatSet} (hS : ∀ s ∈ S, s < nfa.size) : t ∈ (nfa.subsets k).next S cls ↔
      ∃ s ∈ S, ∃ set u, (s, set, u) ∈ nfa.moves ∧ cls ∈ k.classesOf set ∧
        Reaches nfa.Step u [] t := by
  refine mem_advance_iff.trans (exists_congr fun s => and_congr_right fun hs => ?_)
  refine (mem_cell_readers hcls (hS s hs)).trans ?_
  refine exists_congr fun set => exists_congr fun u => and_congr_right fun _ => ?_
  exact and_congr_right fun _ => mem_closure_iff hb

/-- The last symbol of a word is read along an edge. -/
theorem reaches_snoc_iff {nfa : Nfa} : Reaches nfa.Step s (w ++ [c]) t ↔
    ∃ u, Reaches nfa.Step s w u ∧ ∃ set v, (u, set, v) ∈ nfa.moves ∧ c ∈ set ∧
      Reaches nfa.Step v [] t := by
  constructor
  · rintro ⟨k, hpath⟩
    generalize hx : w ++ [c] = x at hpath
    induction hpath generalizing w with
    | nil => cases w <;> cases hx
    | @cons k s m z u v hstep hrest ih =>
      cases hstep with
      | silent h =>
        obtain ⟨u, hway, hlast⟩ := ih hx
        exact ⟨u, .head (.silent h) hway, hlast⟩
      | @move _ set d h hd =>
        cases w with
        | nil =>
          obtain ⟨rfl, rfl⟩ := List.cons.inj hx
          exact ⟨s, .refl, set, m, h, hd, k, hrest⟩
        | cons e w =>
          obtain ⟨rfl, hx'⟩ := List.cons.inj hx
          obtain ⟨u, hway, hlast⟩ := ih hx'
          exact ⟨u, .head (.move h hd) hway, hlast⟩
  · rintro ⟨u, hway, set, v, hm, hc, hlast⟩
    exact hway.trans (.head (u := [c]) (.move hm hc) hlast)

theorem lt_size_of_reaches (hb : nfa.Bounded) (hs : s < nfa.size) (h : Reaches nfa.Step s w t) :
    t < nfa.size := by
  obtain ⟨k, hpath⟩ := h
  exact hpath.stays hs fun _ _ _ _ hstep => (hb.step hstep).2

/-- The machine stays among the sets of states. -/
theorem lt_size_of_mem_next (hb : nfa.Bounded) {k : SymbolClasses} {cls : Nat}
    (hcls : cls < k.count) {S : NatSet} (hS : ∀ s ∈ S, s < nfa.size) :
    ∀ t ∈ (nfa.subsets k).next S cls, t < nfa.size := by
  intro t ht
  obtain ⟨s, -, set, u, hm, -, hway⟩ := (mem_next_iff hb hcls hS).1 ht
  exact lt_size_of_reaches hb (hb.target _ hm) hway

/-- **After a word the machine is in the set of all states that the automaton may have come to.** -/
theorem mem_run_iff (hb : nfa.Bounded) {k : SymbolClasses} {cs : List Nat}
    (hcs : List.Forall₂ (nfa.Reads k) w cs) :
    t ∈ cs.foldl (nfa.subsets k).next (nfa.subsets k).start ↔ Reaches nfa.Step 0 w t := by
  suffices hfold : ∀ (v : List Int) (S : NatSet), (∀ t, t ∈ S ↔ Reaches nfa.Step 0 v t) →
      ∀ t, t ∈ cs.foldl (nfa.subsets k).next S ↔ Reaches nfa.Step 0 (v ++ w) t from
    hfold [] _ (fun t => mem_closure_iff hb) t
  induction hcs with
  | nil =>
    intro v S hS t
    rw [List.append_nil]
    exact hS t
  | @cons c cls w cs hc _ ih =>
    intro v S hS t
    rw [List.foldl_cons, List.append_cons]
    refine ih _ _ (fun t => ?_) t
    have hlt : ∀ s ∈ S, s < nfa.size := fun s hs => lt_size_of_reaches hb hb.pos ((hS s).1 hs)
    rw [mem_next_iff hb hc.1 hlt, reaches_snoc_iff]
    refine exists_congr fun s => and_congr (hS s) ?_
    refine exists_congr fun set => exists_congr fun u => and_congr_right fun hm => ?_
    rw [hc.2 hm]

/-! ### The table -/

/-- A set of the automaton's states. -/
def Holds (nfa : Nfa) (S : NatSet) : Prop := ∀ s ∈ S, s < nfa.size

theorem stays_subsets (hb : nfa.Bounded) (k : SymbolClasses) :
    (nfa.subsets k).Stays nfa.Holds where
  start := fun _ hs => lt_size_of_reaches hb hb.pos ((mem_closure_iff hb).1 hs)
  dead := fun s hs => absurd hs (NatSet.not_mem_empty s)
  next := fun _ _ hS hcls => lt_size_of_mem_next hb hcls hS
  next_dead := by
    intro cls _
    refine NatSet.ext_mem fun t => ⟨fun ht => ?_, fun ht => absurd ht (NatSet.not_mem_empty t)⟩
    obtain ⟨s, hs, -⟩ := mem_advance_iff.1 ht
    exact absurd hs (NatSet.not_mem_empty s)

/-- There are no more sets of states than numbers with a binary digit for each state. -/
theorem atMost_holds (nfa : Nfa) : AtMost (Nat.pow 2 nfa.size) nfa.Holds := by
  intro l hl hholds
  have hnodup : (l.map NatSet.bits).Nodup :=
    hl.map fun S T heq => NatSet.ext heq
  have hlt : ∀ n ∈ l.map NatSet.bits, n < Nat.pow 2 nfa.size := by
    intro n hn
    obtain ⟨S, hS, rfl⟩ := List.mem_map.1 hn
    refine Nat.lt_pow_two_of_testBit _ fun i hi => Bool.eq_false_iff.2 fun hbit => ?_
    exact Nat.not_lt.2 hi (hholds S hS i hbit)
  simpa using atMost_lt _ _ hnodup hlt

/-- **The table stands for the machine.** -/
theorem simulates_table (hb : nfa.Bounded) (k : SymbolClasses) :
    ∃ R, Simulates (nfa.subsets k) (nfa.table k) R :=
  ⟨_, simulates_tabulate (stays_subsets hb k) (atMost_holds nfa)⟩

/-- A word that can be read does not lead to the dead state. -/
theorem run_ne_dead (hb : nfa.Bounded) {k : SymbolClasses} {cs : List Nat}
    (hcs : List.Forall₂ (nfa.Reads k) w cs) (h : Reaches nfa.Step 0 w s) :
    cs.foldl (nfa.table k).next (nfa.table k).start ≠ (nfa.table k).dead := by
  intro hdead
  have hsim := simulates_tabulate (stays_subsets hb k) (atMost_holds nfa)
  have hlt : ∀ cls ∈ cs, cls < k.count := by
    clear h hdead
    induction hcs with
    | nil => nofun
    | cons hc _ ih => exact List.forall_mem_cons.2 ⟨hc.1, ih⟩
  have hrun := hsim.run hsim.start hlt
  have hempty : cs.foldl (nfa.subsets k).next (nfa.subsets k).start = ∅ :=
    Option.some.inj (hrun.symm.trans (hdead ▸ hsim.dead))
  exact NatSet.not_mem_empty s (hempty ▸ (mem_run_iff hb hcs).2 h)

/-- From the dead state nothing matches, and at the start nothing has matched. -/
theorem rule_dead_subsets (nfa : Nfa) (k : SymbolClasses) :
    (nfa.subsets k).rule (nfa.subsets k).dead = none := by
  show (if (∅ : NatSet) = _ then _ else _) = _
  split
  · rfl
  · have hnone : nfa.accepting.find? (·.1 ∈ (∅ : NatSet)) = none := by simp
    exact congrArg (Option.map _) hnone

theorem rule_dead_table (hb : nfa.Bounded) (k : SymbolClasses) :
    (nfa.table k).rule (nfa.table k).dead = none := by
  obtain ⟨R, hsim⟩ := simulates_table hb k
  rw [hsim.rule hsim.dead]
  exact rule_dead_subsets nfa k

theorem rule_start_table (hb : nfa.Bounded) (k : SymbolClasses) :
    (nfa.table k).rule (nfa.table k).start = none := by
  obtain ⟨R, hsim⟩ := simulates_table hb k
  rw [hsim.rule hsim.start]
  exact if_pos rfl

/-! ### The rule that is matched -/

/-- The first of some states, numbered in order, that has a property. -/
theorem map_find?_eq_some_iff {l : List (Nat × Nat)} (h : (l.map (·.2)).Pairwise (· < ·))
    {S : NatSet} : (l.find? (·.1 ∈ S)).map (·.2) = some i ↔
      (∃ s, (s, i) ∈ l ∧ s ∈ S) ∧ ∀ s j, (s, j) ∈ l → s ∈ S → i ≤ j := by
  induction l with
  | nil => simp
  | cons e rest ih =>
    obtain ⟨s, j⟩ := e
    obtain ⟨hj, hrest⟩ := List.pairwise_cons.1 h
    have hlt : ∀ t m, (t, m) ∈ rest → j < m := fun t m hm => hj m (List.mem_map.2 ⟨(t, m), hm, rfl⟩)
    by_cases hs : s ∈ S
    · rw [List.find?_cons_of_pos (by simpa using hs), Option.map_some, Option.some.injEq]
      constructor
      · rintro rfl
        refine ⟨⟨s, List.mem_cons_self .., hs⟩, fun t m hm _ => ?_⟩
        rcases List.mem_cons.1 hm with heq | hm
        · cases heq
          exact Nat.le_refl _
        · exact Nat.le_of_lt (hlt t m hm)
      · rintro ⟨⟨t, ht, -⟩, hle⟩
        rcases List.mem_cons.1 ht with heq | ht
        · cases heq
          rfl
        · have := hlt t i ht
          have := hle s j (List.mem_cons_self ..) hs
          omega
    · rw [List.find?_cons_of_neg (by simpa using hs), ih hrest]
      refine and_congr ⟨?_, ?_⟩ ⟨fun hle t m hm ht => ?_, fun hle t m hm => ?_⟩
      · rintro ⟨t, ht, htS⟩
        exact ⟨t, List.mem_cons_of_mem _ ht, htS⟩
      · rintro ⟨t, ht, htS⟩
        rcases List.mem_cons.1 ht with heq | ht
        · cases heq
          exact absurd htS hs
        · exact ⟨t, ht, htS⟩
      · rcases List.mem_cons.1 hm with heq | hm
        · cases heq
          exact absurd ht hs
        · exact hle t m hm ht
      · exact hle t m (List.mem_cons_of_mem _ hm)

variable {rules : List Regex}

theorem bounded_ofRules (rules : List Regex) : (ofRules rules).Bounded := by
  obtain ⟨hsize, hstep, -⟩ := within_ofRulesFrom 1 0 rules
  refine ⟨hsize, fun h => ?_, fun e he => lt_size_of_mem_moves he⟩
  obtain ⟨hs, ht⟩ := hstep h
  refine ⟨?_, ht.2⟩
  rcases hs with ⟨rfl, -⟩ | hs
  · exact hsize
  · exact hs.2

/-- A way that has left the first state does not come back to it. -/
theorem pos_of_path {m : Nat} (h : Path (ofRules rules).Step m s w t) (hs : 0 < s) : 0 < t :=
  h.stays (P := (0 < ·)) hs fun _ _ _ _ hstep => ((within_ofRulesFrom 1 0 rules).step hstep).2.1

/-- Nothing leads back to the first state. -/
theorem not_reaches_zero (hw : w ≠ []) : ¬ Reaches (ofRules rules).Step s w 0 := by
  rintro ⟨k, hpath⟩
  cases hpath with
  | nil => exact hw rfl
  | cons hstep hrest =>
    have hpos := ((within_ofRulesFrom 1 0 rules).step hstep).2.1
    exact Nat.lt_irrefl 0 (pos_of_path hrest hpos)

/-- Nothing leads the machine back to its start. -/
theorem next_ne_start {k : SymbolClasses} {cls : Nat} (hcls : cls < k.count) {S : NatSet}
    (hS : (ofRules rules).Holds S) :
    ((ofRules rules).subsets k).next S cls ≠ ((ofRules rules).subsets k).start := by
  intro heq
  have hzero : 0 ∈ ((ofRules rules).subsets k).next S cls := by
    rw [heq]
    exact (mem_closure_iff (bounded_ofRules rules)).2 .refl
  obtain ⟨s, -, set, u, hmove, -, m, hpath⟩ :=
    (mem_next_iff (bounded_ofRules rules) hcls hS).1 hzero
  exact Nat.lt_irrefl 0 (pos_of_path hpath (le_of_mem_moves hmove))

/-- **The machine matches the first rule that has the word**, if the word has a symbol. -/
theorem rule_run_eq_some_iff {k : SymbolClasses} {cs : List Nat} (hw : w ≠ [])
    (hcs : List.Forall₂ ((ofRules rules).Reads k) w cs) :
    ((ofRules rules).subsets k).rule (cs.foldl ((ofRules rules).subsets k).next
      ((ofRules rules).subsets k).start) = some i ↔ IsFirstRule rules w i := by
  have hmem := fun t => mem_run_iff (t := t) (bounded_ofRules rules) hcs
  generalize cs.foldl _ _ = S at hmem ⊢
  have hstart : S ≠ ((ofRules rules).subsets k).start := by
    rintro rfl
    exact not_reaches_zero hw ((hmem 0).1 ((mem_closure_iff (bounded_ofRules rules)).2 .refl))
  have hsorted : ((ofRules rules).accepting.map (·.2)).Pairwise (· < ·) := by
    rw [ofRules, map_snd_accepting]
    exact List.pairwise_lt_range'
  have hrule : ((ofRules rules).subsets k).rule S =
      ((ofRules rules).accepting.find? (·.1 ∈ S)).map (·.2) := if_neg hstart
  rw [hrule, map_find?_eq_some_iff hsorted]
  simp only [hmem]
  rw [reaches_accepting_iff]
  constructor
  · rintro ⟨hacc, hle⟩
    refine ⟨hacc, fun j r hr hj => ?_⟩
    obtain ⟨s, hs, hway⟩ := reaches_accepting_iff.2 ⟨r, hr, hj⟩
    exact hle s j hs hway
  · rintro ⟨hacc, hle⟩
    refine ⟨hacc, fun s j hs hway => ?_⟩
    obtain ⟨r, hr, hj⟩ := reaches_accepting_iff.1 ⟨s, hs, hway⟩
    exact hle j r hr hj

end Nfa

end LexParse.Automaton
