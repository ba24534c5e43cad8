import LexParse.Automaton.Machine
import LexParse.Proofs.Numbering
import Mathlib.Data.List.Perm.Subperm

/-!
# Tables do what their machines do

The table of a machine gives each state that can be reached a number, and a row that leads to the
numbers of its successors. The states are found one by one, and a state is never numbered twice, so
as many visits are enough as there are states (`explored_explore`).

## What is proved

* `simulates_tabulate`: the numbers of a table stand for states of the machine, and its rows lead on
  as the machine does.
* `Simulates.rule_run`: after a word the table matches what the machine matches.
-/

namespace LexParse.Automaton

variable {σ : Type} {m : Machine σ} {P : σ → Prop} {i j c : Nat} {s s' : σ}

/-! ### Simulation -/

/-- A machine that does not leave a set of states, and from the dead state goes nowhere else. -/
structure Machine.Stays (m : Machine σ) (P : σ → Prop) : Prop where
  start : P m.start
  dead : P m.dead
  next : ∀ s c, P s → c < m.classes → P (m.next s c)
  next_dead : ∀ c < m.classes, m.next m.dead c = m.dead

/-- The states of a table stand for states of a machine. -/
structure Simulates (m : Machine σ) (t : Table) (R : Nat → σ → Prop) : Prop where
  start : R t.start m.start
  dead : R t.dead m.dead
  lt_size : ∀ {i s}, R i s → i < t.size
  total : ∀ {i}, i < t.size → ∃ s, R i s
  unique : ∀ {i j s}, R i s → R j s → i = j
  next : ∀ {i c s}, R i s → c < m.classes → ∃ j, t.next? i c = some j ∧ R j (m.next s c)
  rule : ∀ {i s}, R i s → t.rule i = m.rule s

namespace Simulates

variable {t : Table} {R : Nat → σ → Prop}

theorem next_eq (h : Simulates m t R) (hi : R i s) (hc : c < m.classes) :
    R (t.next i c) (m.next s c) := by
  obtain ⟨j, hj, hR⟩ := h.next hi hc
  rw [Table.next, hj]
  exact hR

/-- Along a word of classes the table goes where the machine goes. -/
theorem run (h : Simulates m t R) (hi : R i s) {cs : List Nat} (hcs : ∀ c ∈ cs, c < m.classes) :
    R (cs.foldl t.next i) (cs.foldl m.next s) := by
  induction cs generalizing i s with
  | nil => exact hi
  | cons c rest ih =>
    have hc := hcs c (List.mem_cons_self ..)
    exact ih (h.next_eq hi hc) fun d hd => hcs d (List.mem_cons_of_mem _ hd)

/-- **After a word the table matches what the machine matches.** -/
theorem rule_run (h : Simulates m t R) {cs : List Nat} (hcs : ∀ c ∈ cs, c < m.classes) :
    t.rule (cs.foldl t.next t.start) = m.rule (cs.foldl m.next m.start) :=
  h.rule (h.run h.start hcs)

end Simulates

/-- A table whose rows lead to states of the table for all classes, and from the dead state nowhere
else. -/
structure Table.Total (t : Table) (classes : Nat) : Prop where
  start : t.start < t.size
  dead : t.dead < t.size
  next : ∀ i < t.size, ∀ c < classes, ∃ j < t.size, t.next? i c = some j
  next_dead : ∀ c < classes, t.next t.dead c = t.dead

theorem Table.Total.next_lt {t : Table} {classes : Nat} (ht : t.Total classes) (hi : i < t.size)
    (hc : c < classes) : t.next i c < t.size := by
  obtain ⟨j, hj, hnext⟩ := ht.next i hi c hc
  rw [Table.next, hnext]
  exact hj

/-- No word leads out of the dead state. -/
theorem Table.Total.foldl_dead {t : Table} {classes : Nat} (ht : t.Total classes) {cs : List Nat}
    (hcs : ∀ c ∈ cs, c < classes) : cs.foldl t.next t.dead = t.dead := by
  induction cs with
  | nil => rfl
  | cons c cs ih =>
    rw [List.foldl_cons, ht.next_dead c (hcs c (List.mem_cons_self ..))]
    exact ih fun d hd => hcs d (List.mem_cons_of_mem _ hd)

theorem Simulates.total_table {t : Table} {R : Nat → σ → Prop} (h : Simulates m t R)
    (hm : m.Stays P) : t.Total m.classes := by
  refine ⟨h.lt_size h.start, h.lt_size h.dead, fun i hi c hc => ?_, fun c hc => ?_⟩
  · obtain ⟨s, hs⟩ := h.total hi
    obtain ⟨j, hj, hR⟩ := h.next hs hc
    exact ⟨j, h.lt_size hR, hj⟩
  · have hnext := h.next_eq h.dead hc
    rw [hm.next_dead c hc] at hnext
    exact h.unique hnext h.dead

/-! ### Visiting states -/

/-- There are no more states of a kind than a limit. -/
def AtMost (limit : Nat) (P : σ → Prop) : Prop :=
  ∀ l : List σ, l.Nodup → (∀ s ∈ l, P s) → l.length ≤ limit

theorem atMost_lt (n : Nat) : AtMost n (· < n) := by
  intro l hl hlt
  have hsub : l ⊆ List.range n := fun i hi => List.mem_range.2 (hlt i hi)
  simpa using (List.subperm_of_subset hl hsub).length_le

theorem getElem?_successors (hc : c < m.classes) : (m.successors s)[c]? = some (m.next s c) := by
  simp [Machine.successors, hc]

theorem mem_successors_iff : s' ∈ m.successors s ↔ ∃ c < m.classes, m.next s c = s' := by
  simp [Machine.successors]

variable [BEq σ] [LawfulBEq σ] [Hashable σ]

/-- The states found lie in a set, and the rows of those visited lead to the numbers of their
successors. -/
structure Explored (m : Machine σ) (P : σ → Prop) (e : Exploration σ) : Prop where
  inside : ∀ s ∈ e.found.values, P s
  size_le : e.rows.size ≤ e.found.size
  row : ∀ i < e.rows.size, ∃ s row, e.found.values[i]? = some s ∧ e.rows[i]? = some row ∧
    ∀ c < m.classes, ∃ j, row[c]? = some j ∧ e.found.values[j]? = some (m.next s c)

/-- No state loses its number. -/
def Keeps (e e' : Exploration σ) : Prop :=
  ∀ {i : Nat} {s : σ}, e.found.values[i]? = some s → e'.found.values[i]? = some s

theorem visit_eq (m : Machine σ) (e : Exploration σ) (s : σ) : m.visit e s =
    ⟨(e.found.addAll (m.successors s)).2, e.rows.push (e.found.addAll (m.successors s)).1⟩ := rfl

theorem keeps_visit (m : Machine σ) (e : Exploration σ) (s : σ) : Keeps e (m.visit e s) :=
  Numbering.values_addAll

/-- **Visiting a state gives it its row.** -/
theorem Explored.visit {e : Exploration σ} (h : Explored m P e) (hm : m.Stays P)
    (hs : e.found.values[e.rows.size]? = some s) : Explored m P (m.visit e s) := by
  have hPs := h.inside s (Array.mem_of_getElem? hs)
  have hnew := keeps_visit m e s hs
  refine ⟨fun t ht => ?_, ?_, fun i hi => ?_⟩
  · rcases Numbering.mem_addAll_iff.1 ht with ht | ht
    · exact h.inside t ht
    · obtain ⟨c, hc, rfl⟩ := mem_successors_iff.1 ht
      exact hm.next s c hPs hc
  · rw [visit_eq, Array.size_push]
    exact (Array.getElem?_eq_some_iff.1 hnew).1
  · rw [visit_eq, Array.size_push] at hi
    rcases Nat.lt_or_eq_of_le (Nat.le_of_lt_succ hi) with hi | rfl
    · obtain ⟨t, row, ht, hrow, hnext⟩ := h.row i hi
      refine ⟨t, row, keeps_visit m e s ht, ?_, fun c hc => ?_⟩
      · rw [visit_eq, Array.getElem?_push, if_neg (Nat.ne_of_lt hi), hrow]
      · obtain ⟨j, hj, hv⟩ := hnext c hc
        exact ⟨j, hj, keeps_visit m e s hv⟩
    · refine ⟨s, _, hnew, Array.getElem?_push_size .., fun c hc => ?_⟩
      exact Numbering.exists_getElem?_addAll (getElem?_successors hc)

/-- **Visiting goes on until every state has its row**, or the steps are used up. -/
theorem explored_explore (steps : Nat) {e : Exploration σ} (h : Explored m P e) (hm : m.Stays P) :
    Explored m P (m.explore steps e) ∧ Keeps e (m.explore steps e) ∧
      ((m.explore steps e).rows.size = (m.explore steps e).found.size ∨
        (m.explore steps e).rows.size = e.rows.size + steps) := by
  induction steps generalizing e with
  | zero => exact ⟨h, id, .inr rfl⟩
  | succ steps ih =>
    rw [Machine.explore]
    split
    · rename_i hnone
      have hge := Array.getElem?_eq_none_iff.1 hnone
      exact ⟨h, id, .inl (Nat.le_antisymm h.size_le hge)⟩
    · rename_i s hs
      obtain ⟨hexp, hkeep, hsize⟩ := ih (h.visit hm hs)
      refine ⟨hexp, fun hi => hkeep (keeps_visit m e s hi), hsize.imp_right fun hsize => ?_⟩
      rw [hsize, visit_eq, Array.size_push]
      omega

/-- Rows with one entry for each class. -/
def Even (classes : Nat) (rows : Array (Array Nat)) : Prop := ∀ row ∈ rows, row.size = classes

theorem even_visit {e : Exploration σ} (h : Even m.classes e.rows) (s : σ) :
    Even m.classes (m.visit e s).rows := by
  intro row hrow
  rw [visit_eq, Array.mem_push] at hrow
  rcases hrow with hrow | rfl
  · exact h row hrow
  · rw [Numbering.size_addAll]
    simp [Machine.successors]

theorem even_explore (steps : Nat) {e : Exploration σ} (h : Even m.classes e.rows) :
    Even m.classes (m.explore steps e).rows := by
  induction steps generalizing e with
  | zero => exact h
  | succ steps ih =>
    rw [Machine.explore]
    split
    · exact h
    · exact ih (even_visit h _)

/-- **Every row of a table has one entry for each class.** -/
theorem even_tabulate (m : Machine σ) (limit : Nat) : Even m.classes (m.tabulate limit).rows := by
  have hbegin : Even m.classes #[] := fun row hrow => absurd hrow (Array.not_mem_empty row)
  have hexplored : Even m.classes (m.explore limit ⟨((∅ : Numbering σ).add m.start).2, #[]⟩).rows :=
    even_explore limit hbegin
  show Even m.classes (m.visited limit).rows
  unfold Machine.visited
  simp only
  split
  · exact hexplored
  · apply even_visit
    exact hexplored

/-- A state more is found. -/
theorem Explored.add {e : Exploration σ} (h : Explored m P e) (hs : P s) :
    Explored m P { e with found := (e.found.add s).2 } := by
  refine ⟨fun t ht => ?_, ?_, fun i hi => ?_⟩
  · rcases Numbering.mem_add_iff.1 ht with ht | rfl
    · exact h.inside t ht
    · exact hs
  · have hle : e.found.size ≤ (e.found.add s).2.size := by
      unfold Numbering.add
      split
      · exact Nat.le_refl _
      · simp [Numbering.size]
    exact Nat.le_trans h.size_le hle
  · obtain ⟨t, row, ht, hrow, hnext⟩ := h.row i hi
    refine ⟨t, row, Numbering.values_add_of_eq_some s ht, hrow, fun c hc => ?_⟩
    obtain ⟨j, hj, hv⟩ := hnext c hc
    exact ⟨j, hj, Numbering.values_add_of_eq_some s hv⟩

/-- **All states that can be reached are found and have their rows**, the start first. -/
theorem explored_reachable (hm : m.Stays P) {limit : Nat} (hlimit : AtMost limit P) :
    Explored m P (m.explore limit ⟨((∅ : Numbering σ).add m.start).2, #[]⟩) ∧
      (m.explore limit ⟨((∅ : Numbering σ).add m.start).2, #[]⟩).rows.size =
        (m.explore limit ⟨((∅ : Numbering σ).add m.start).2, #[]⟩).found.size ∧
      (m.explore limit ⟨((∅ : Numbering σ).add m.start).2, #[]⟩).found.values[0]? =
        some m.start := by
  have hvalues := (Numbering.add_of_number?_eq_none (Numbering.number?_empty m.start)).2
  have hbegin : Explored m P ⟨((∅ : Numbering σ).add m.start).2, #[]⟩ := by
    refine ⟨fun t ht => ?_, Nat.zero_le _, fun i hi => absurd hi (Nat.not_lt_zero i)⟩
    rcases Numbering.mem_add_iff.1 ht with ht | rfl
    · rw [Numbering.values_empty] at ht
      exact absurd ht (Array.not_mem_empty t)
    · exact hm.start
  obtain ⟨hexp, hkeep, hsize⟩ := explored_explore limit hbegin hm
  have hfirst : ((∅ : Numbering σ).add m.start).2.values[0]? = some m.start := by
    rw [hvalues]
    rfl
  refine ⟨hexp, ?_, hkeep hfirst⟩
  generalize m.explore limit _ = e at hexp hsize
  -- as many states have rows as there are states
  refine hsize.elim id fun hrows => Nat.le_antisymm hexp.size_le ?_
  have hcount := hlimit e.found.values.toList e.found.nodup_values
    fun s hs => hexp.inside s (Array.mem_toList_iff.1 hs)
  rw [hrows, Numbering.size]
  simpa using hcount

/-- A dead state that nothing leads to is found last. It gets a row that leads only to itself. -/
theorem visit_dead (hm : m.Stays P) {e : Exploration σ} (hfull : e.rows.size = e.found.size)
    (hnone : e.found.number? m.dead = none) :
    m.visit { e with found := (e.found.add m.dead).2 } m.dead =
      { found := (e.found.add m.dead).2
        rows := e.rows.push (Array.replicate m.classes e.rows.size) } := by
  obtain ⟨-, hvalues⟩ := Numbering.add_of_number?_eq_none hnone
  have hdead : (e.found.add m.dead).2.number? m.dead = some e.rows.size := by
    rw [Numbering.number?_eq_some_iff, hvalues, hfull, Numbering.size, Array.getElem?_push_size]
  have hself : ∀ s ∈ m.successors m.dead, s = m.dead := by
    intro s hs
    obtain ⟨c, hc, rfl⟩ := mem_successors_iff.1 hs
    exact hm.next_dead c hc
  rw [visit_eq, Numbering.addAll_of_forall_eq hdead hself]
  simp [Machine.successors]

/-- All states that can be reached are found and have their rows, and so has the dead state. -/
theorem explored_visited (hm : m.Stays P) {limit : Nat} (hlimit : AtMost limit P) :
    Explored m P (m.visited limit) ∧
      (m.visited limit).rows.size = (m.visited limit).found.size ∧
      m.start ∈ (m.visited limit).found.values ∧ m.dead ∈ (m.visited limit).found.values := by
  obtain ⟨hexp, hfull, hstart⟩ := explored_reachable hm hlimit
  unfold Machine.visited
  simp only
  generalize m.explore limit _ = e at hexp hfull hstart ⊢
  split
  · rename_i i hi
    exact ⟨hexp, hfull, Array.mem_of_getElem? hstart,
      Array.mem_of_getElem? (Numbering.number?_eq_some_iff.1 hi)⟩
  · rename_i hnone
    obtain ⟨-, hvalues⟩ := Numbering.add_of_number?_eq_none hnone
    have hdead : (e.found.add m.dead).2.values[e.rows.size]? = some m.dead := by
      rw [hvalues, hfull, Numbering.size, Array.getElem?_push_size]
    have hvisited := (hexp.add hm.dead).visit hm hdead
    rw [visit_dead hm hfull hnone] at hvisited ⊢
    refine ⟨hvisited, ?_, Numbering.mem_add_iff.2 (.inl (Array.mem_of_getElem? hstart)),
      Numbering.mem_add_iff.2 (.inr rfl)⟩
    rw [Array.size_push, Numbering.size, hvalues, Array.size_push, hfull, Numbering.size]

/-- **The table of a machine stands for the machine.** -/
theorem simulates_tabulate (hm : m.Stays P) {limit : Nat} (hlimit : AtMost limit P) :
    Simulates m (m.tabulate limit) fun i s => (m.visited limit).found.values[i]? = some s := by
  obtain ⟨hexp, hsize, hstart, hdead⟩ := explored_visited hm hlimit
  have hnumber : ∀ s ∈ (m.visited limit).found.values,
      (m.visited limit).found.values[((m.visited limit).found.number? s).getD 0]? = some s := by
    intro s hs
    obtain ⟨i, hi⟩ := Array.mem_iff_getElem?.1 hs
    rw [Numbering.number?_eq_some_iff.2 hi]
    exact hi
  constructor
  case start => exact hnumber _ hstart
  case dead => exact hnumber _ hdead
  case lt_size =>
    intro i s hi
    show i < (m.visited limit).rows.size
    exact hsize ▸ (Array.getElem?_eq_some_iff.1 hi).1
  case total =>
    intro i hi
    obtain ⟨s, -, hs, -⟩ := hexp.row i hi
    exact ⟨s, hs⟩
  case unique =>
    intro i j s hi hj
    exact Numbering.eq_of_values_eq hi hj
  case next =>
    intro i c s hi hc
    have hlt : i < (m.visited limit).rows.size := hsize ▸ (Array.getElem?_eq_some_iff.1 hi).1
    obtain ⟨s', row, hs', hrow, hnext⟩ := hexp.row i hlt
    obtain rfl := Option.some.inj (hs'.symm.trans hi)
    obtain ⟨j, hj, hv⟩ := hnext c hc
    refine ⟨j, ?_, hv⟩
    show ((m.visited limit).rows[i]?).bind _ = _
    rw [hrow]
    exact hj
  case rule =>
    intro i s hi
    simp [Table.rule, Machine.tabulate, hi]

end LexParse.Automaton
